/-!
# Deepening

A computation through types that refer to themselves is made to a bounded depth, and made again to
a greater one where that was not enough.

Main definition: `Deepening.answer`.
-/

namespace TypeShape

/-- A computation that may have no answer to a given depth. -/
structure Deepening (α : Type) where
  run : Nat → Option α

/-- The first answer at a given depth or, where that is not enough, at a greater one. -/
def Deepening.answer {α : Type} (m : Deepening α) (depth : Nat) : Option α :=
  match m.run depth with
  | some a => some a
  | none => m |>.answer (2 * depth + 1)
partial_fixpoint

end TypeShape
