import TypeShape.Proofs.Budget
import TypeShape.Proofs.Subtyping.Settled

/-!
# Tuples and records

Tuples are compared item by item, and records field by field.  Each of these comparisons has one
unit less of the budget, although no alias is unfolded.  So items that use up the budget are below
each other and their tuples are not: the law that a tuple is below another when its items are holds
for types that are nested less deep than the budget allows for, and fails beyond.

Main results:

- Theorems `Table.isSubtypeWithin_tuple_iff` and `Table.isSubtypeWithin_record_iff`: what is
  compared in tuples and records, and with which budget.
- Theorem `Table.isSubtypeWithin_wrap`: each of some nested tuples costs one unit.
- Theorem `Table.tuple_record_pointwise`: when tuples and records are below each other.
-/

namespace TypeShape

namespace Table

variable {T : Table} {n : Nat} {a b : Ty}

/-- Every item is below the item in its place. -/
def ItemsBelow (below : Ty → Ty → Bool) (as bs : List Ty) : Prop :=
  List.Forall₂ (fun a b => below a b = true) as bs

/-- The keys are the same, and every value is below the value of its key. -/
def FieldsBelow (below : Ty → Ty → Bool) (as bs : List (Literal × Ty)) : Prop :=
  EntriesRel (fun a b => below a b = true) as bs

/-! ## One level -/

/-- Tuples are compared item by item with one unit less. -/
theorem isSubtypeWithin_tuple_iff {as bs : List Ty} :
    T.isSubtypeWithin (n + 1) (.tuple as) (.tuple bs) = true ↔
      ItemsBelow (T.isSubtypeWithin n) as bs := by
  have hrule : rule T (T.isSubtypeWithin n) (.tuple as) (.tuple bs) = true ↔
      ItemsBelow (T.isSubtypeWithin n) as bs := by
    simp [rule, isCeiling, isFloor, aliasRule, memberRule, baseRule, formRule, ItemsBelow,
      List.forall₂_iff_zip]
  rw [isSubtypeWithin, Bool.or_eq_true, hrule, or_iff_right_iff_imp]
  intro hbeq
  exact (Ty.beqList_iff.mp hbeq).imp fun _ _ => isSubtypeWithin_of_beq

/-- Records are compared field by field with one unit less. -/
theorem isSubtypeWithin_record_iff {as bs : List (Literal × Ty)} (has : Keyed.Sorted as)
    (hbs : Keyed.Sorted bs) :
    T.isSubtypeWithin (n + 1) (.record as) (.record bs) = true ↔
      FieldsBelow (T.isSubtypeWithin n) as bs := by
  have hrule : rule T (T.isSubtypeWithin n) (.record as) (.record bs) = true ↔
      FieldsBelow (T.isSubtypeWithin n) as bs := by
    rw [FieldsBelow, Keyed.entriesRel_iff_get? has hbs]
    simp only [rule, isCeiling, isFloor, aliasRule, memberRule, baseRule, formRule, Bool.false_or,
      Bool.and_eq_true, beq_iff_eq, List.all_eq_true]
    refine and_congr_right fun _ => forall₂_congr fun f _ => ?_
    cases Keyed.get? f.1 bs <;> simp
  rw [isSubtypeWithin, Bool.or_eq_true, hrule, or_iff_right_iff_imp]
  intro hbeq
  exact (Ty.beqFields_iff.mp hbeq).imp fun _ _ h => ⟨h.1, isSubtypeWithin_of_beq h.2⟩

/-! ## Many levels -/

/-- A type inside a number of tuples of one item. -/
def wrap : Nat → Ty → Ty
  | 0, t => t
  | n + 1, t => .tuple [wrap n t]

/-- Each tuple around two types costs one unit of the budget. -/
theorem isSubtypeWithin_wrap (n k : Nat) (a b : Ty) :
    T.isSubtypeWithin n (wrap k a) (wrap k b) = T.isSubtypeWithin (n - k) a b := by
  induction k generalizing n with
  | zero => rfl
  | succ k ih =>
    cases n with
    | zero =>
      -- Without a budget only equal types are below each other, with tuples around them or not.
      have hzero := ih 0
      rw [Nat.zero_sub] at hzero ⊢
      rw [← hzero]
      simp [isSubtypeWithin, wrap, BEq.beq, Ty.beq, Ty.beqList]
    | succ n =>
      rw [Nat.succ_sub_succ, ← ih, Bool.eq_iff_iff, wrap, wrap, isSubtypeWithin_tuple_iff]
      simp [ItemsBelow]

/-! ## Levels that leave enough of the budget -/

theorem forall₂_congr_of_mem {α β : Type} {R S : α → β → Prop} {as : List α} {bs : List β}
    (h : ∀ a ∈ as, ∀ b ∈ bs, (R a b ↔ S a b)) : List.Forall₂ R as bs ↔ List.Forall₂ S as bs := by
  rw [List.forall₂_iff_zip, List.forall₂_iff_zip]
  refine and_congr_right fun _ => ⟨fun hR a b hab => ?_, fun hS a b hab => ?_⟩
  · exact (h a (List.of_mem_zip hab).1 b (List.of_mem_zip hab).2).mp (hR hab)
  · exact (h a (List.of_mem_zip hab).1 b (List.of_mem_zip hab).2).mpr (hS hab)

section Shallow

variable {i j : Nat} (hij : i + j ≤ 61)

include hij

/-- What is below something with the whole budget is so with one unit less. -/
theorem isSubtypeWithin_pred_iff (ha : a.Shallow i) (hb : b.Shallow j) :
    T.isSubtypeWithin 63 a b = true ↔ T.isSubtype a b = true := by
  rw [isSubtypeWithin_eq_isSubtype ha hb (by omega) (by decide)]

theorem isSubtype_tuple_iff {as bs : List Ty} (has : ∀ a ∈ as, a.Shallow i)
    (hbs : ∀ b ∈ bs, b.Shallow j) :
    T.isSubtype (.tuple as) (.tuple bs) = true ↔ ItemsBelow T.isSubtype as bs :=
  isSubtypeWithin_tuple_iff.trans (forall₂_congr_of_mem fun a ha b hb =>
    isSubtypeWithin_pred_iff hij (has a ha) (hbs b hb))

theorem isSubtype_record_iff {as bs : List (Literal × Ty)} (hsorted : Keyed.Sorted as)
    (hsorted' : Keyed.Sorted bs) (has : ∀ e ∈ as, e.2.Shallow i) (hbs : ∀ e ∈ bs, e.2.Shallow j) :
    T.isSubtype (.record as) (.record bs) = true ↔ FieldsBelow T.isSubtype as bs :=
  (isSubtypeWithin_record_iff hsorted hsorted').trans (forall₂_congr_of_mem fun e he f hf =>
    and_congr_right fun _ => isSubtypeWithin_pred_iff hij (has e he) (hbs f hf))

end Shallow

/-! ## When tuples and records are below each other -/

/-- Tuples are below each other exactly when their items are with a budget of 63, and records in key
order exactly when their fields are.  For types without aliases whose levels add up to at most 61
this is the pointwise law.  It does not hold at every depth: each tuple around two types costs one
unit of the budget of 64. -/
theorem tuple_record_pointwise (T : Table) :
    (∀ as bs, T.isSubtype (.tuple as) (.tuple bs) = true ↔
      ItemsBelow (T.isSubtypeWithin 63) as bs) ∧
    (∀ as bs, Keyed.Sorted as → Keyed.Sorted bs →
      (T.isSubtype (.record as) (.record bs) = true ↔ FieldsBelow (T.isSubtypeWithin 63) as bs)) ∧
    (∀ i j, i + j ≤ 61 →
      (∀ as bs : List Ty, (∀ a ∈ as, a.Shallow i) → (∀ b ∈ bs, b.Shallow j) →
        (T.isSubtype (.tuple as) (.tuple bs) = true ↔ ItemsBelow T.isSubtype as bs)) ∧
      ∀ as bs : List (Literal × Ty), Keyed.Sorted as → Keyed.Sorted bs →
        (∀ e ∈ as, e.2.Shallow i) → (∀ e ∈ bs, e.2.Shallow j) →
        (T.isSubtype (.record as) (.record bs) = true ↔ FieldsBelow T.isSubtype as bs)) ∧
    ∀ n a b, T.isSubtype (wrap n a) (wrap n b) = T.isSubtypeWithin (64 - n) a b :=
  ⟨fun _ _ => isSubtypeWithin_tuple_iff, fun _ _ => isSubtypeWithin_record_iff,
    fun _ _ hij => ⟨fun _ _ => isSubtype_tuple_iff hij, fun _ _ => isSubtype_record_iff hij⟩,
    isSubtypeWithin_wrap 64⟩

/-- Inside 63 tuples a number is below its class, inside one more it is not. -/
theorem nested_tuples_at_limit :
    let one : Ty := .literal (.integer 1)
    let integer : Ty := .ofClass .integer
    ItemsBelow Table.empty.isSubtype [wrap 63 one] [wrap 63 integer] ∧
      Table.empty.isSubtype (.tuple [wrap 63 one]) (.tuple [wrap 63 integer]) = false ∧
      Table.empty.isSubtype (.record [(.symbol "x", wrap 28 one), (.symbol "y", .nil)])
        (.record [(.symbol "x", wrap 28 integer), (.symbol "y", .top)]) = true := by
  obtain ⟨-, -, hshallow, hwrap⟩ := tuple_record_pointwise Table.empty
  have hone : ∀ n, n < 64 → Table.empty.isSubtype (wrap n (.literal (.integer 1)))
      (wrap n (.ofClass .integer)) = true := by
    intro n hn
    rw [hwrap]
    exact isSubtypeWithin_mono (by omega : 1 ≤ 64 - n) _ _ rfl
  refine ⟨.cons (hone 63 (by decide)) .nil, hwrap 64 _ _, ?_⟩
  refine ((hshallow 30 30 (by decide)).2 _ _ (by decide) (by decide) (by decide) (by decide)).mpr ?_
  exact .cons ⟨rfl, hone 28 (by decide)⟩ (.cons ⟨rfl, rfl⟩ .nil)

end Table
end TypeShape
