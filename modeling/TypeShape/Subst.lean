import TypeShape.Overload

/-!
# Substitutions

A substitution maps type variables and placeholders to types.  Applying it rebuilds unions and
intersections in normal form; the empty substitution leaves every type as it is.  Applied to an
overload it spares the overload's own type parameters.

Main definitions: `Anchors`, `Subst`, `Subst.ofLists`, `Subst.andThen`, `Subst.apply`,
`Subst.applyOverload`.
-/

namespace TypeShape

/-- Replacements for the placeholders. -/
structure Anchors where
  selfType : Option Ty := none
  classType : Option Ty := none
  instanceType : Option Ty := none
deriving Inhabited

namespace Anchors

instance : BEq Anchors where
  beq a b := a.selfType == b.selfType && a.classType == b.classType &&
    a.instanceType == b.instanceType

/-- The replacement of one placeholder. -/
def get? (a : Anchors) : Slot → Option Ty
  | .selfType => a.selfType
  | .instanceType => a.instanceType
  | .classType => a.classType

/-- No placeholder is replaced. -/
def isEmpty (a : Anchors) : Bool :=
  a.selfType.isNone && a.classType.isNone && a.instanceType.isNone

/-- The first replacement where there is one, the second elsewhere. -/
def orElse (a b : Anchors) : Anchors where
  selfType := a.selfType.or b.selfType
  classType := a.classType.or b.classType
  instanceType := a.instanceType.or b.instanceType

end Anchors

/-- A map from type variables, in the order of their names, and placeholders to types. -/
structure Subst where
  vars : List (String × Ty) := []
  anchors : Anchors := {}
deriving Inhabited

/-- Why a substitution could not be made. -/
inductive SubstError where
  | clash (name : String) (existing incoming : Ty)
  | lengthMismatch (vars values : Nat)

/-- The wording of an error. -/
def SubstError.message : SubstError → String
  | clash name existing incoming =>
    "duplicated variable on merge: " ++ name ++ " is both " ++ existing.render ++ " and " ++
      incoming.render
  | lengthMismatch vars values =>
    "substitution expects " ++ toString vars ++ " types, got " ++ toString values

namespace Subst

instance : BEq Subst where
  beq a b := a.vars == b.vars && a.anchors == b.anchors

/-- The substitution that changes nothing. -/
def empty : Subst :=
  {}

/-- Nothing is replaced. -/
def isEmpty (s : Subst) : Bool :=
  s.vars.isEmpty && s.anchors.isEmpty

/-- Replaces placeholders only. -/
def ofAnchors (anchors : Anchors) : Subst :=
  { anchors }

/-- Maps variables to values position by position; there must be as many of both. -/
def ofLists (vars : List String) (values : List Ty) (anchors : Anchors) : Except SubstError Subst :=
  if vars.length = values.length then
    .ok { vars := Keyed.ofList (vars.zip values), anchors }
  else
    .error (.lengthMismatch vars.length values.length)

/-- What a variable is mapped to. -/
def get? (s : Subst) (name : String) : Option Ty :=
  Keyed.get? name s.vars

/-- What a placeholder or variable is mapped to. -/
def image? (s : Subst) : FreeVar → Option Ty
  | .slot p => s.anchors.get? p
  | .var x => s.get? x

/-- Replaces all the anchors and keeps the variables. -/
def withAnchors (s : Subst) (anchors : Anchors) : Subst :=
  { s with anchors }

/-- Replaces the anchor of the receiver only. -/
def withSelf (s : Subst) (selfType : Option Ty) : Subst :=
  { s with anchors := { s.anchors with selfType } }

/-- Forgets what the named variables are mapped to. -/
def without (s : Subst) (names : List String) : Subst :=
  { s with vars := names.foldl (fun vars x => Keyed.erase x vars) s.vars }

/-! ## Application -/

mutual

/-- Replaces every placeholder and variable, rebuilding unions and intersections. -/
def replace (s : Subst) : Ty → Ty
  | .slot p => (s.anchors.get? p).getD (.slot p)
  | .var x => (s.get? x).getD (.var x)
  | .named kind name args => .named kind name (replaceList s args)
  | .union ms => Ty.unionOf (replaceList s ms)
  | .inter ms => Ty.interOf (replaceList s ms)
  | .tuple items => .tuple (replaceList s items)
  | .record fields => .record (replaceFields s fields)
  | .proc c => .proc (replaceCallable s c)
  | .untyped => .untyped
  | .top => .top
  | .bot => .bot
  | .void => .void
  | .nil => .nil
  | .bool => .bool
  | .singleton name => .singleton name
  | .literal value => .literal value
  | .logic question => .logic question
termination_by structural t => t

/-- Replaces throughout a list of types. -/
def replaceList (s : Subst) : List Ty → List Ty
  | [] => []
  | t :: ts => replace s t :: replaceList s ts
termination_by structural ts => ts

/-- Replaces throughout the fields of a record. -/
def replaceFields (s : Subst) : List (Literal × Ty) → List (Literal × Ty)
  | [] => []
  | (key, t) :: fs => (key, replace s t) :: replaceFields s fs
termination_by structural fs => fs

/-- Replaces throughout keyword parameters. -/
def replaceKeywords (s : Subst) : List (String × Ty) → List (String × Ty)
  | [] => []
  | (name, t) :: ks => (name, replace s t) :: replaceKeywords s ks
termination_by structural ks => ks

/-- Replaces throughout a type that may be missing. -/
def replaceOption (s : Subst) : Option Ty → Option Ty
  | none => none
  | some t => some (replace s t)
termination_by structural t => t

/-- Replaces throughout a parameter list. -/
def replaceParams (s : Subst) : Params Ty → Params Ty
  | ⟨r, o, t, k, p, u⟩ =>
    ⟨replaceList s r, replaceList s o, replaceOption s t, replaceKeywords s k,
      replaceKeywords s p, replaceOption s u⟩
termination_by structural p => p

/-- Replaces throughout an arrow. -/
def replaceArrow (s : Subst) : Arrow Ty → Arrow Ty
  | ⟨p, t⟩ => ⟨replaceParams s p, replace s t⟩
termination_by structural a => a

/-- Replaces throughout a block. -/
def replaceBlock (s : Subst) : Block Ty → Block Ty
  | ⟨a, optional, receiver⟩ => ⟨replaceArrow s a, optional, replaceOption s receiver⟩
termination_by structural b => b

/-- Replaces throughout a block that may be missing. -/
def replaceBlockOption (s : Subst) : Option (Block Ty) → Option (Block Ty)
  | none => none
  | some b => some (replaceBlock s b)
termination_by structural b => b

/-- Replaces throughout a callable. -/
def replaceCallable (s : Subst) : Callable Ty → Callable Ty
  | ⟨a, b⟩ => ⟨replaceArrow s a, replaceBlockOption s b⟩
termination_by structural c => c

end

/-! ### Replacement over containers

Replacement in a container is replacement in each of the types that it holds. -/

theorem replaceList_eq_map (s : Subst) (ts : List Ty) : s.replaceList ts = ts.map s.replace := by
  induction ts with
  | nil => rfl
  | cons t ts ih => simp only [replaceList, List.map_cons, ih]

theorem replaceFields_eq_map (s : Subst) (fs : List (Literal × Ty)) :
    s.replaceFields fs = fs.map fun f => (f.1, s.replace f.2) := by
  induction fs with
  | nil => rfl
  | cons f fs ih => simp only [replaceFields, List.map_cons, ih]

theorem replaceKeywords_eq_map (s : Subst) (ks : List (String × Ty)) :
    s.replaceKeywords ks = ks.map fun k => (k.1, s.replace k.2) := by
  induction ks with
  | nil => rfl
  | cons k ks ih => simp only [replaceKeywords, List.map_cons, ih]

theorem replaceOption_eq_map (s : Subst) (t : Option Ty) : s.replaceOption t = t.map s.replace := by
  cases t <;> rfl

theorem replaceParams_eq_map (s : Subst) (p : Params Ty) : s.replaceParams p = p.map s.replace := by
  cases p
  simp only [replaceParams, Params.map, replaceList_eq_map, replaceKeywords_eq_map,
    replaceOption_eq_map]

theorem replaceArrow_eq_map (s : Subst) (a : Arrow Ty) : s.replaceArrow a = a.map s.replace := by
  cases a
  simp only [replaceArrow, Arrow.map, replaceParams_eq_map]

theorem replaceBlock_eq_map (s : Subst) (b : Block Ty) : s.replaceBlock b = b.map s.replace := by
  cases b
  simp only [replaceBlock, Block.map, replaceArrow_eq_map, replaceOption_eq_map]

theorem replaceBlockOption_eq_map (s : Subst) (b : Option (Block Ty)) :
    s.replaceBlockOption b = b.map (Block.map s.replace) := by
  cases b with
  | none => rfl
  | some b => simp only [replaceBlockOption, replaceBlock_eq_map, Option.map_some]

theorem replaceCallable_eq_map (s : Subst) (c : Callable Ty) :
    s.replaceCallable c = c.map s.replace := by
  cases c
  simp only [replaceCallable, Callable.map, replaceArrow_eq_map, replaceBlockOption_eq_map]

/-! ### Applying -/

/-- Applies a substitution to a type.  The empty one changes nothing, not even the form of a
union that is not in normal form. -/
def apply (s : Subst) (t : Ty) : Ty :=
  if s.isEmpty then t else s.replace t

/-- Applies a substitution to every type of a callable. -/
def applyCallable (s : Subst) (c : Callable Ty) : Callable Ty :=
  c.map s.apply

/-- Applies a substitution to an overload; its own type parameters stay as they are. -/
def applyOverload (s : Subst) (o : Overload) : Overload :=
  let inner := s.without (o.typeParams.map (·.name))
  { o with
    typeParams := o.typeParams.map fun p => { p with bound := p.bound.map inner.apply }
    callable := inner.applyCallable o.callable }

/-! ## Composition -/

/-- Adds a variable of the second substitution to the variables of the first. -/
def addVar (vars : List (String × Ty)) (entry : String × Ty) :
    Except SubstError (List (String × Ty)) :=
  match Keyed.get? entry.1 vars with
  | none => .ok (Keyed.insert entry.1 entry.2 vars)
  | some existing =>
    if existing == entry.2 then .ok vars
    else .error (.clash entry.1 existing entry.2)

/-- First one substitution, then another: the second is applied to the values of the first,
and its own variables are then added.  A variable of both must get one value.  Anchors of the first
win. -/
def andThen (s o : Subst) : Except SubstError Subst := do
  let vars ← o.vars.foldlM addVar (s.vars.map fun e => (e.1, o.apply e.2))
  return { vars, anchors := s.anchors.orElse o.anchors }

end Subst
end TypeShape
