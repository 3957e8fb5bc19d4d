import TypeShape.Ty.Basic

/-!
# Weights

The number of nodes of a type.  It bounds how deep a type can be nested, and with the weights of
alias bodies it bounds how long unfolding can go on when it ends at all.

Main definition: `Ty.weight`.
-/

namespace TypeShape
namespace Ty

mutual

/-- The number of nodes of a type. -/
def weight : Ty → Nat
  | named _ _ args => weightList args + 1
  | union ms => weightList ms + 1
  | inter ms => weightList ms + 1
  | tuple items => weightList items + 1
  | record fields => weightFields fields + 1
  | proc c => weightCallable c + 1
  | slot _ | untyped | top | bot | void | nil | bool => 1
  | singleton _ | literal _ | var _ | logic _ => 1
termination_by structural t => t

/-- The weight of a list of types. -/
def weightList : List Ty → Nat
  | [] => 0
  | t :: ts => weight t + weightList ts
termination_by structural ts => ts

/-- The weight of the fields of a record. -/
def weightFields : List (Literal × Ty) → Nat
  | [] => 0
  | (_, t) :: fs => weight t + weightFields fs
termination_by structural fs => fs

/-- The weight of keyword parameters. -/
def weightKeywords : List (String × Ty) → Nat
  | [] => 0
  | (_, t) :: ks => weight t + weightKeywords ks
termination_by structural ks => ks

/-- The weight of a type that may be missing. -/
def weightOption : Option Ty → Nat
  | none => 0
  | some t => weight t
termination_by structural t => t

/-- The weight of a parameter list. -/
def weightParams : Params Ty → Nat
  | ⟨r, o, s, k, p, t⟩ =>
    weightList r + weightList o + weightOption s + weightKeywords k + weightKeywords p +
      weightOption t
termination_by structural p => p

/-- The weight of an arrow. -/
def weightArrow : Arrow Ty → Nat
  | ⟨p, t⟩ => weightParams p + weight t
termination_by structural a => a

/-- The weight of a block. -/
def weightBlock : Block Ty → Nat
  | ⟨a, _, r⟩ => weightArrow a + weightOption r
termination_by structural b => b

/-- The weight of a block that may be missing. -/
def weightBlockOption : Option (Block Ty) → Nat
  | none => 0
  | some b => weightBlock b
termination_by structural b => b

/-- The weight of a callable. -/
def weightCallable : Callable Ty → Nat
  | ⟨a, b⟩ => weightArrow a + weightBlockOption b
termination_by structural c => c

end

/-! ### Weights of containers

A container weighs as much as the types that it holds, taken as a list. -/

theorem weightList_append (ts us : List Ty) :
    weightList (ts ++ us) = weightList ts + weightList us := by
  induction ts with
  | nil => simp [weightList]
  | cons t ts ih => simp only [List.cons_append, weightList, ih, Nat.add_assoc]

theorem weightFields_eq (fs : List (Literal × Ty)) :
    weightFields fs = weightList (fs.map (·.2)) := by
  induction fs with
  | nil => rfl
  | cons f fs ih => simp only [weightFields, List.map_cons, weightList, ih]

theorem weightKeywords_eq (ks : List (String × Ty)) :
    weightKeywords ks = weightList (ks.map (·.2)) := by
  induction ks with
  | nil => rfl
  | cons k ks ih => simp only [weightKeywords, List.map_cons, weightList, ih]

/-- Every type has a node of its own. -/
theorem weight_pos (t : Ty) : 0 < weight t := by
  cases t <;> simp [weight]

end Ty
end TypeShape
