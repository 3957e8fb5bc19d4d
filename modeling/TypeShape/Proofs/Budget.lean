import Mathlib.Data.Nat.Find
import TypeShape.Subtyping

/-!
# Budgets of subtyping

Every rule of subtyping asks for other comparisons to hold and never for one to fail.  So a
comparison that holds still does when more can be spent on it, and the budgets within which it holds
are all those from some budget on, or none.

Main results:

- Theorem `Table.rule_mono`: one step of subtyping is monotone in the comparison of further types.
- Theorem `Table.isSubtypeWithin_mono`: a larger budget finds what a smaller one does.
- Theorem `Table.larger_budget_accepts_more`: what a raised limit of the budget can change.
-/

namespace TypeShape
namespace Table

variable {T : Table} {below below' : Ty → Ty → Bool} {a b : Ty}

/-- What one comparison finds, the other does. -/
def Refines (below below' : Ty → Ty → Bool) : Prop :=
  ∀ a b, below a b = true → below' a b = true

section Rules

variable (h : Refines below below')

include h

theorem formRule_mono (hform : formRule T below a b = true) : formRule T below' a b = true := by
  cases a with
  | tuple items =>
    cases b with
    | tuple others =>
      simp only [formRule, Bool.and_eq_true, List.all_eq_true] at hform ⊢
      exact ⟨hform.1, fun p hp => h _ _ (hform.2 p hp)⟩
    | _ => exact h _ _ hform
  | record fields =>
    cases b with
    | record others =>
      simp only [formRule, Bool.and_eq_true, List.all_eq_true] at hform ⊢
      refine ⟨hform.1, fun f hf => ?_⟩
      have hfield := hform.2 f hf
      cases hget : Keyed.get? f.1 others with
      | none => simp [hget] at hfield
      | some other =>
        simp only [hget] at hfield ⊢
        exact h _ _ hfield
    | _ => exact h _ _ hform
  | literal value =>
    cases b with
    | literal other => exact hform
    | _ => exact h _ _ hform
  | proc callable => exact h _ _ hform
  | singleton name =>
    cases b with
    | singleton target => exact hform
    | _ => exact h _ _ hform
  | _ => exact hform

theorem baseRule_mono (hbase : baseRule T below a b = true) : baseRule T below' a b = true := by
  have hform : formRule T below a b = true → formRule T below' a b = true := formRule_mono h
  cases a with
  | logic question => exact h _ _ hbase
  | bool =>
    have hboth : below .trueType b = true ∧ below .falseType b = true →
        (below' .trueType b && below' .falseType b) = true := fun hpair =>
      Bool.and_eq_true_iff.mpr ⟨h _ _ hpair.1, h _ _ hpair.2⟩
    cases b with
    | bool => exact hbase
    | _ => exact hboth (Bool.and_eq_true_iff.mp hbase)
  | nil =>
    cases b with
    | bool => exact hbase
    | nil => exact hbase
    | _ => exact h _ _ hbase
  | _ =>
    cases b with
    | bool => exact hbase
    | nil => exact hbase
    | _ => exact hform hbase

theorem memberRule_mono (hmember : memberRule T below a b = true) :
    memberRule T below' a b = true := by
  have hbase : baseRule T below a b = true → baseRule T below' a b = true := baseRule_mono h
  have hall : ∀ {ms : List Ty} {p q : Ty → Bool}, (∀ m, p m = true → q m = true) →
      ms.all p = true → ms.all q = true :=
    fun hpq hms => List.all_eq_true.mpr fun m hm => hpq m (List.all_eq_true.mp hms m hm)
  have hany : ∀ {ms : List Ty} {p q : Ty → Bool}, (∀ m, p m = true → q m = true) →
      ms.any p = true → ms.any q = true := by
    intro ms p q hpq hms
    obtain ⟨m, hm, hp⟩ := List.any_eq_true.mp hms
    exact List.any_eq_true.mpr ⟨m, hm, hpq m hp⟩
  revert hmember
  unfold memberRule
  split
  · exact hall fun m => h _ _
  · split
    · exact hall fun m => h _ _
    · exact hany fun m => h _ _
    · split
      · exact hany fun m => h _ _
      · exact hbase

theorem aliasRule_mono (halias : aliasRule T below a b = true) : aliasRule T below' a b = true := by
  have hmember : memberRule T below a b = true → memberRule T below' a b = true :=
    memberRule_mono h
  revert halias
  unfold aliasRule
  split
  · split
    · exact h _ _
    · exact id
  · split
    · split
      · exact h _ _
      · exact id
    · exact hmember

/-- One step of subtyping finds more if the comparison of further types does. -/
theorem rule_mono : Refines (rule T below) (rule T below') := by
  intro a b hrule
  rw [rule, Bool.or_eq_true] at hrule ⊢
  exact hrule.imp_right (aliasRule_mono h)

end Rules

/-- A larger budget finds what a smaller one does. -/
theorem isSubtypeWithin_mono {n k : Nat} (hnk : n ≤ k) :
    Refines (T.isSubtypeWithin n) (T.isSubtypeWithin k) := by
  induction n generalizing k with
  | zero =>
    intro a b hab
    cases k with
    | zero => exact hab
    | succ k => exact Bool.or_eq_true_iff.mpr (Or.inl hab)
  | succ n ih =>
    obtain ⟨k, rfl⟩ : ∃ k', k = k' + 1 := ⟨k - 1, by omega⟩
    intro a b hab
    rw [isSubtypeWithin, Bool.or_eq_true] at hab ⊢
    exact hab.imp_right (rule_mono (ih (by omega)) a b)

/-- Equal types are below each other within any budget. -/
theorem isSubtypeWithin_of_beq {n : Nat} (h : (a == b) = true) : T.isSubtypeWithin n a b = true :=
  isSubtypeWithin_mono (Nat.zero_le n) a b h

/-! ## Raising the limit -/

/-- A comparison that holds within some budget holds exactly from the least such budget on. -/
theorem exists_least_budget (h : ∃ d, T.isSubtypeWithin d a b = true) :
    ∃ least, ∀ d, T.isSubtypeWithin d a b = true ↔ least ≤ d :=
  ⟨Nat.find h, fun _ => ⟨Nat.find_min' h, fun hd => isSubtypeWithin_mono hd a b (Nat.find_spec h)⟩⟩

/-- One more unit of the budget keeps every comparison that holds, wherever aliases lead.  So a
comparison holds within no budget or exactly from one on, and if it comes out otherwise under a
higher limit than under the usual one, then it was rejected before and holds now. -/
theorem larger_budget_accepts_more (T : Table) (a b : Ty) :
    (∀ d, T.isSubtypeWithin d a b = true → T.isSubtypeWithin (d + 1) a b = true) ∧
    ((∀ d, T.isSubtypeWithin d a b = false) ∨
      ∃ least, ∀ d, T.isSubtypeWithin d a b = true ↔ least ≤ d) ∧
    ∀ limit, subtypeBudget ≤ limit → T.isSubtypeWithin limit a b ≠ T.isSubtype a b →
      T.isSubtype a b = false ∧ T.isSubtypeWithin limit a b = true := by
  refine ⟨fun d => isSubtypeWithin_mono (Nat.le_succ d) a b, ?_, fun limit hlimit hdiffer => ?_⟩
  · by_cases h : ∃ d, T.isSubtypeWithin d a b = true
    · exact Or.inr (exists_least_budget h)
    · exact Or.inl fun d => Bool.eq_false_iff.mpr fun hd => h ⟨d, hd⟩
  · have hkept : T.isSubtype a b = true → T.isSubtypeWithin limit a b = true :=
      isSubtypeWithin_mono hlimit a b
    cases hbelow : T.isSubtype a b with
    | true => exact absurd ((hkept hbelow).trans hbelow.symm) hdiffer
    | false =>
      rw [hbelow] at hdiffer
      exact ⟨rfl, eq_true_of_ne_false hdiffer⟩

/-- Two aliases that lead to each other, each time with an argument that is one tuple deeper. -/
def deepening : Table where
  aliases := [
    (⟨"::deep"⟩, {
      name := ⟨"::deep"⟩
      typeParams := [{ name := "T" }]
      body := .union [.var "T", .named .aliasOf ⟨"::next"⟩ [.tuple [.var "T"]]] }),
    (⟨"::next"⟩, {
      name := ⟨"::next"⟩
      typeParams := [{ name := "T" }]
      body := .named .aliasOf ⟨"::deep"⟩ [.var "T"] })]

/-- The aliases come to a number inside 21 tuples with 65 units, one above the limit. -/
theorem budgets_of_deepening :
    let nested : Ty := Nat.repeat (fun t => .tuple [t]) 21 (.ofClass .integer)
    let deep : Ty := .named .aliasOf ⟨"::deep"⟩ [.ofClass .integer]
    deepening.isSubtype nested deep = false ∧
      ∀ d, deepening.isSubtypeWithin d nested deep = true ↔ 65 ≤ d := by
  intro nested deep
  have hless : deepening.isSubtype nested deep = false := by decide +kernel
  have henough : deepening.isSubtypeWithin 65 nested deep = true := by decide +kernel
  obtain ⟨-, hnever | ⟨least, hleast⟩, -⟩ := larger_budget_accepts_more deepening nested deep
  · exact absurd henough (Bool.eq_false_iff.mp (hnever 65))
  · have h64 : ¬ least ≤ 64 := (hleast 64).not.mp (Bool.eq_false_iff.mp hless)
    have h65 : least ≤ 65 := (hleast 65).mp henough
    obtain rfl : least = 65 := by omega
    exact ⟨hless, hleast⟩

end Table
end TypeShape
