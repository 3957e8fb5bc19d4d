import TypeShape.Keyed
import TypeShape.Ty.Basic

/-!
# Free variables

The placeholders and type variables that a type mentions, which make its meaning depend on the
context.

Main definitions: `FreeVar`, `Ty.freeVars`, `Ty.mentionsSlot`.
-/

namespace TypeShape

/-- A placeholder or a type variable that occurs in a type. -/
inductive FreeVar where
  | slot (slot : Slot)
  | var (name : String)
deriving DecidableEq, Inhabited

namespace FreeVar

/-- Placeholders come first, the receiver before its instance and its class. -/
def rank : FreeVar → Nat
  | slot .selfType => 0
  | slot .instanceType => 1
  | slot .classType => 2
  | var _ => 3

/-- Placeholders by rank, then type variables by name. -/
instance : Ord FreeVar where
  compare a b :=
    match a, b with
    | var x, var y => compare x y
    | a, b => compare a.rank b.rank

/-- It is a placeholder. -/
def isSlot : FreeVar → Bool
  | slot _ => true
  | var _ => false

end FreeVar

namespace Ty

mutual

/-- Every occurrence of a placeholder or variable, from left to right. -/
def occurrences : Ty → List FreeVar
  | slot s => [.slot s]
  | var x => [.var x]
  | named _ _ args => occurrencesList args
  | union ms => occurrencesList ms
  | inter ms => occurrencesList ms
  | tuple items => occurrencesList items
  | record fields => occurrencesFields fields
  | proc c => occurrencesCallable c
  | untyped | top | bot | void | nil | bool | singleton _ | literal _ | logic _ => []
termination_by structural t => t

/-- The occurrences in a list of types. -/
def occurrencesList : List Ty → List FreeVar
  | [] => []
  | t :: ts => occurrences t ++ occurrencesList ts
termination_by structural ts => ts

/-- The occurrences in the fields of a record. -/
def occurrencesFields : List (Literal × Ty) → List FreeVar
  | [] => []
  | (_, t) :: fs => occurrences t ++ occurrencesFields fs
termination_by structural fs => fs

/-- The occurrences in keyword parameters. -/
def occurrencesKeywords : List (String × Ty) → List FreeVar
  | [] => []
  | (_, t) :: ks => occurrences t ++ occurrencesKeywords ks
termination_by structural ks => ks

/-- The occurrences in a type that may be missing. -/
def occurrencesOption : Option Ty → List FreeVar
  | none => []
  | some t => occurrences t
termination_by structural t => t

/-- The occurrences in a parameter list. -/
def occurrencesParams : Params Ty → List FreeVar
  | ⟨r, o, s, k, p, t⟩ =>
    occurrencesList r ++ occurrencesList o ++ occurrencesOption s ++ occurrencesKeywords k ++
      occurrencesKeywords p ++ occurrencesOption t
termination_by structural p => p

/-- The occurrences in an arrow. -/
def occurrencesArrow : Arrow Ty → List FreeVar
  | ⟨p, t⟩ => occurrencesParams p ++ occurrences t
termination_by structural a => a

/-- The occurrences in a block, its receiver included. -/
def occurrencesBlock : Block Ty → List FreeVar
  | ⟨a, _, r⟩ => occurrencesArrow a ++ occurrencesOption r
termination_by structural b => b

/-- The occurrences in a block that may be missing. -/
def occurrencesBlockOption : Option (Block Ty) → List FreeVar
  | none => []
  | some b => occurrencesBlock b
termination_by structural b => b

/-- The occurrences in a callable. -/
def occurrencesCallable : Callable Ty → List FreeVar
  | ⟨a, b⟩ => occurrencesArrow a ++ occurrencesBlockOption b
termination_by structural c => c

end

/-! ### Occurrences in containers

What occurs in a container occurs in the types that it holds, from left to right. -/

theorem occurrencesList_eq_flatMap (ts : List Ty) :
    occurrencesList ts = ts.flatMap occurrences := by
  induction ts with
  | nil => rfl
  | cons t ts ih => simp only [occurrencesList, List.flatMap_cons, ih]

theorem occurrencesFields_eq_flatMap (fs : List (Literal × Ty)) :
    occurrencesFields fs = (fs.map (·.2)).flatMap occurrences := by
  induction fs with
  | nil => rfl
  | cons f fs ih => simp only [occurrencesFields, List.map_cons, List.flatMap_cons, ih]

theorem occurrencesKeywords_eq_flatMap (ks : List (String × Ty)) :
    occurrencesKeywords ks = (ks.map (·.2)).flatMap occurrences := by
  induction ks with
  | nil => rfl
  | cons k ks ih => simp only [occurrencesKeywords, List.map_cons, List.flatMap_cons, ih]

theorem occurrencesOption_eq_flatMap (t : Option Ty) :
    occurrencesOption t = t.toList.flatMap occurrences := by
  cases t <;> simp [occurrencesOption]

theorem occurrencesParams_eq_flatMap (p : Params Ty) :
    occurrencesParams p = p.toList.flatMap occurrences := by
  cases p
  simp only [occurrencesParams, Params.toList, List.flatMap_append, occurrencesList_eq_flatMap,
    occurrencesKeywords_eq_flatMap, occurrencesOption_eq_flatMap]

theorem occurrencesArrow_eq_flatMap (a : Arrow Ty) :
    occurrencesArrow a = a.toList.flatMap occurrences := by
  cases a
  simp [occurrencesArrow, Arrow.toList, occurrencesParams_eq_flatMap]

theorem occurrencesBlock_eq_flatMap (b : Block Ty) :
    occurrencesBlock b = b.toList.flatMap occurrences := by
  cases b
  simp only [occurrencesBlock, Block.toList, List.flatMap_append, occurrencesArrow_eq_flatMap,
    occurrencesOption_eq_flatMap]

theorem occurrencesCallable_eq_flatMap (c : Callable Ty) :
    occurrencesCallable c = c.toList.flatMap occurrences := by
  obtain ⟨a, b⟩ := c
  cases b <;> simp [occurrencesCallable, occurrencesBlockOption, Callable.toList,
    occurrencesArrow_eq_flatMap, occurrencesBlock_eq_flatMap]

/-! ### Free variables -/

/-- The placeholders and variables of a type, each once, placeholders first. -/
def freeVars (t : Ty) : List FreeVar :=
  Keyed.sortKeys t.occurrences

/-- The type mentions the receiver, its instance or its class. -/
def mentionsSlot (t : Ty) : Bool :=
  t.freeVars.any FreeVar.isSlot

end Ty
end TypeShape
