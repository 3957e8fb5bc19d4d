/-!
# Parameter lists and callable shapes

What can be called has a parameter list, a result and sometimes a block.  These shapes are
generic in the types they carry, so that mapping over the types, listing them and pairing the
types of two lists are stated once.

Main definitions: `Params`, `Arrow`, `Block`, `Callable`; `Params.map`, `Params.toList`,
`Params.layout` and `Params.zipWith`.
-/

namespace TypeShape

/-- A parameter list.  Keywords are listed in the order of their names. -/
structure Params (α : Type) where
  required : List α := []
  optional : List α := []
  rest : Option α := none
  keywords : List (String × α) := []
  optionalKeywords : List (String × α) := []
  restKeywords : Option α := none
deriving Inhabited

/-- How many parameters of each kind a list takes, and under which keywords. -/
structure Layout where
  required : Nat
  optional : Nat
  rest : Bool
  keywords : List String
  optionalKeywords : List String
  restKeywords : Bool
deriving DecidableEq, Inhabited

/-- A parameter list and a result. -/
structure Arrow (α : Type) where
  params : Params α
  result : α
deriving Inhabited

/-- A block that a callable takes; it may rebind the receiver inside its body. -/
structure Block (α : Type) where
  arrow : Arrow α
  optional : Bool
  receiver : Option α

/-- An arrow with or without a block. -/
structure Callable (α : Type) where
  arrow : Arrow α
  block : Option (Block α)

namespace Params

variable {α β γ : Type}

/-- Maps every parameter type and keeps the layout. -/
def map (f : α → β) (p : Params α) : Params β where
  required := p.required.map f
  optional := p.optional.map f
  rest := p.rest.map f
  keywords := p.keywords.map fun e => (e.1, f e.2)
  optionalKeywords := p.optionalKeywords.map fun e => (e.1, f e.2)
  restKeywords := p.restKeywords.map f

/-- The parameter types from left to right. -/
def toList (p : Params α) : List α :=
  p.required ++ p.optional ++ p.rest.toList ++ p.keywords.map (·.2) ++
    p.optionalKeywords.map (·.2) ++ p.restKeywords.toList

/-- A parameter list without its types. -/
def layout (p : Params α) : Layout where
  required := p.required.length
  optional := p.optional.length
  rest := p.rest.isSome
  keywords := p.keywords.map (·.1)
  optionalKeywords := p.optionalKeywords.map (·.1)
  restKeywords := p.restKeywords.isSome

/-- Mapping the types keeps the layout. -/
@[simp]
theorem layout_map (f : α → β) (p : Params α) : (p.map f).layout = p.layout := by
  simp [layout, map]

/-- Pairs two optional types when both are there. -/
def zipOption (f : α → β → γ) : Option α → Option β → Option γ
  | some a, some b => some (f a b)
  | _, _ => none

/-- Pairs keyword types by position, under the names of the first list. -/
def zipKeywords (f : α → β → γ) (p : List (String × α)) (q : List (String × β)) :
    List (String × γ) :=
  List.zipWith (fun a b => (a.1, f a.2 b.2)) p q

/-- Pairs the types of two lists kind by kind; where one runs out the surplus is dropped. -/
def zipWith (f : α → β → γ) (p : Params α) (q : Params β) : Params γ where
  required := List.zipWith f p.required q.required
  optional := List.zipWith f p.optional q.optional
  rest := zipOption f p.rest q.rest
  keywords := zipKeywords f p.keywords q.keywords
  optionalKeywords := zipKeywords f p.optionalKeywords q.optionalKeywords
  restKeywords := zipOption f p.restKeywords q.restKeywords

end Params

namespace Arrow

variable {α β : Type}

/-- Maps every type of an arrow. -/
def map (f : α → β) (a : Arrow α) : Arrow β :=
  ⟨a.params.map f, f a.result⟩

/-- The types of an arrow, the result last. -/
def toList (a : Arrow α) : List α :=
  a.params.toList ++ [a.result]

end Arrow

namespace Block

variable {α β : Type}

/-- Maps every type of a block. -/
def map (f : α → β) (b : Block α) : Block β :=
  ⟨b.arrow.map f, b.optional, b.receiver.map f⟩

/-- The types of a block, the receiver last. -/
def toList (b : Block α) : List α :=
  b.arrow.toList ++ b.receiver.toList

end Block

namespace Callable

variable {α β : Type}

/-- Maps every type of a callable. -/
def map (f : α → β) (c : Callable α) : Callable β :=
  ⟨c.arrow.map f, c.block.map (Block.map f)⟩

/-- The types of a callable, those of the block last. -/
def toList (c : Callable α) : List α :=
  c.arrow.toList ++ (c.block.map Block.toList).getD []

/-- The same callable with another result. -/
def withResult (c : Callable α) (result : α) : Callable α :=
  { c with arrow := { c.arrow with result } }

end Callable
end TypeShape
