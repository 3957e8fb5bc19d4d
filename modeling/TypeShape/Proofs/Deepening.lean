import Mathlib.Tactic.Common
import TypeShape.Deepening

/-!
# Answers at some depth

A computation that is made to greater and greater depth has an answer as soon as it has one at any
depth, if it keeps having answers from there on.

Main results:

- Theorem `Deepening.exists_of_answer`: an answer is one at some depth.
- Theorem `Deepening.exists_answer`: an answer at some depth is found.
- Theorem `Deepening.exists_common_depth`: a depth that is enough for all items of a list.
-/

namespace TypeShape
namespace Deepening

variable {α : Type} {m : Deepening α}

/-- If every item of a list has a depth that is enough for it, one depth is enough for all. -/
theorem exists_common_depth {α : Type} {P : Nat → α → Prop} {items : List α}
    (hmono : ∀ {n k : Nat} {a : α}, n ≤ k → P n a → P k a) (h : ∀ a ∈ items, ∃ n, P n a) :
    ∃ n, ∀ a ∈ items, P n a := by
  induction items with
  | nil => exact ⟨0, by simp⟩
  | cons a items ih =>
    obtain ⟨n, hn⟩ := h a List.mem_cons_self
    obtain ⟨k, hk⟩ := ih fun b hb => h b (List.mem_cons_of_mem _ hb)
    refine ⟨max n k, List.forall_mem_cons.mpr ⟨?_, fun b hb => ?_⟩⟩
    · exact hmono (Nat.le_max_left n k) hn
    · exact hmono (Nat.le_max_right n k) (hk b hb)

/-- An answer is one at some depth. -/
theorem exists_of_answer {depth : Nat} {a : α} (h : m.answer depth = some a) :
    ∃ n, m.run n = some a := by
  refine answer.partial_correctness m (fun _ a => ∃ n, m.run n = some a) ?_ depth a h
  intro deeper ih depth a h
  split at h
  · rename_i hr
    exact ⟨depth, hr.trans h⟩
  · exact ih _ _ h

/-- A computation that has answers from some depth on has an answer. -/
theorem exists_answer {n : Nat} (h : ∀ k, n ≤ k → ∃ a, m.run k = some a) (depth : Nat) :
    ∃ a, m.answer depth = some a := by
  induction hd : n - depth using Nat.strongRecOn generalizing depth with
  | ind d ih =>
    rw [answer]
    cases hr : m.run depth with
    | some a => exact ⟨a, rfl⟩
    | none =>
      have hlt : depth < n := by
        by_contra hle
        obtain ⟨a, ha⟩ := h depth (by omega)
        cases hr.symm.trans ha
      exact ih (n - (2 * depth + 1)) (by omega) _ rfl

/-- An answer that is the same at every greater depth, and the only one, is found. -/
theorem answer_eq_some {a : α} (hmono : ∀ n k, n ≤ k → m.run n = some a → m.run k = some a)
    {n : Nat} (h : m.run n = some a) (hunique : ∀ k a', m.run k = some a' → a' = a)
    (depth : Nat) : m.answer depth = some a := by
  obtain ⟨a', ha'⟩ := exists_answer (fun k hk => ⟨a, hmono n k hk h⟩) depth
  obtain ⟨k, hk⟩ := exists_of_answer ha'
  rw [ha', hunique k a' hk]

end Deepening
end TypeShape
