import TypeShape.Proofs.Keyed
import TypeShape.Proofs.Types.Depth
import TypeShape.Subtyping

/-!
# Budgets that are enough

Between types without aliases every rule of subtyping goes on with types that are nested less deep
or that stand lower on the way from an answer over booleans and literals down to classes.  So there
is a budget from which on a comparison is settled: more of it changes nothing.

Main results:

- Theorem `Table.rule_eq_of_asks`: a rule depends only on the comparisons that it asks for.
- Theorem `Table.Asks.lower`: what a rule asks for is nearer to the end.
- Theorem `Table.isSubtypeWithin_settled`: a budget of two units more than the levels of both types
  is enough.
-/

namespace TypeShape
namespace Table

variable {T : Table} {a b a' b' : Ty}

/-! ## What a rule asks for -/

/-- What a single type is compared as where it is no application itself. -/
def comparedAs : Ty → List Ty
  | .logic _ => [.bool]
  | .bool => [.trueType, .falseType]
  | .nil => [.ofClass .nilClass]
  | .literal value => [.ofClass value.className]
  | .tuple items => [tupleClass items]
  | .record fields => [recordClass fields]
  | .proc _ => [.ofClass .proc]
  | .singleton _ => [.ofClass .moduleClass, .ofClass .classClass]
  | _ => []

/-- The comparisons that the rule for two types without aliases may ask for. -/
inductive Asks : Ty → Ty → Ty → Ty → Prop where
  | left {a b m : Ty} (ha : a.isSet = true) (hm : m ∈ a.parts) : Asks a b m b
  | right {a b m : Ty} (hb : b.isSet = true) (hm : m ∈ b.parts) : Asks a b a m
  | item {as bs : List Ty} {u v : Ty} (hu : u ∈ as) (hv : v ∈ bs) : Asks (.tuple as) (.tuple bs) u v
  | field {as bs : List (Literal × Ty)} {u v : Ty} (hu : u ∈ as.map (·.2)) (hv : v ∈ bs.map (·.2)) :
    Asks (.record as) (.record bs) u v
  | form {a b c : Ty} (hc : c ∈ comparedAs a) : Asks a b c b

theorem all_congr_of_mem {α : Type} {p q : α → Bool} {xs : List α} (h : ∀ x ∈ xs, p x = q x) :
    xs.all p = xs.all q := by
  rw [Bool.eq_iff_iff, List.all_eq_true, List.all_eq_true]
  exact forall₂_congr fun x hx => by rw [h x hx]

theorem any_congr_of_mem {α : Type} {p q : α → Bool} {xs : List α} (h : ∀ x ∈ xs, p x = q x) :
    xs.any p = xs.any q := by
  rw [Bool.eq_iff_iff, List.any_eq_true, List.any_eq_true]
  exact exists_congr fun x => and_congr_right fun hx => by rw [h x hx]

section Rules

variable {below below' : Ty → Ty → Bool} (h : ∀ a' b', Asks a b a' b' → below a' b' = below' a' b')

include h

theorem formRule_eq_of_asks : formRule T below a b = formRule T below' a b := by
  have hlower : ∀ c ∈ comparedAs a, below c b = below' c b := fun c hc => h c b (.form hc)
  cases a with
  | tuple items =>
    cases b with
    | tuple others =>
      simp only [formRule]
      congr 1
      refine all_congr_of_mem fun p hp => h _ _ ?_
      exact .item (List.of_mem_zip hp).1 (List.of_mem_zip hp).2
    | _ => exact hlower _ (List.mem_singleton.mpr rfl)
  | record fields =>
    cases b with
    | record others =>
      simp only [formRule]
      congr 1
      refine all_congr_of_mem fun f hf => ?_
      cases hget : Keyed.get? f.1 others with
      | none => rfl
      | some other =>
        exact h _ _ (.field (List.mem_map_of_mem hf) (List.mem_map_of_mem (Keyed.mem_of_get? hget)))
    | _ => exact hlower _ (List.mem_singleton.mpr rfl)
  | literal value =>
    cases b with
    | literal other => rfl
    | _ => exact hlower _ (List.mem_singleton.mpr rfl)
  | proc callable => exact hlower _ (List.mem_singleton.mpr rfl)
  | singleton name =>
    cases b with
    | singleton target => rfl
    | _ =>
      refine hlower _ ?_
      rw [comparedAs]
      split <;> simp
  | _ => rfl

theorem baseRule_eq_of_asks : baseRule T below a b = baseRule T below' a b := by
  have hform : formRule T below a b = formRule T below' a b := formRule_eq_of_asks h
  have hlower : ∀ c ∈ comparedAs a, below c b = below' c b := fun c hc => h c b (.form hc)
  cases a with
  | logic question => exact hlower _ (List.mem_singleton.mpr rfl)
  | bool =>
    have hboth : (below .trueType b && below .falseType b) =
        (below' .trueType b && below' .falseType b) := by
      rw [hlower .trueType (by simp [comparedAs]), hlower .falseType (by simp [comparedAs])]
    cases b with
    | bool => rfl
    | _ => exact hboth
  | nil =>
    cases b with
    | bool => rfl
    | nil => rfl
    | _ => exact hlower _ (List.mem_singleton.mpr rfl)
  | _ =>
    cases b with
    | bool => rfl
    | nil => rfl
    | _ => exact hform

theorem memberRule_eq_of_asks : memberRule T below a b = memberRule T below' a b := by
  have hbase : baseRule T below a b = baseRule T below' a b := baseRule_eq_of_asks h
  unfold memberRule
  split
  · exact all_congr_of_mem fun m hm => h _ _ (.left rfl hm)
  · split
    · exact all_congr_of_mem fun m hm => h _ _ (.right rfl hm)
    · exact any_congr_of_mem fun m hm => h _ _ (.right rfl hm)
    · split
      · exact any_congr_of_mem fun m hm => h _ _ (.left rfl hm)
      · exact hbase

omit h in
theorem aliasRule_of_notAlias (ha : a.notAlias = true) (hb : b.notAlias = true) :
    aliasRule T below a b = memberRule T below a b := by
  unfold aliasRule
  split
  · cases ha
  · split
    · cases hb
    · rfl

/-- A rule depends only on the comparisons that it asks for. -/
theorem rule_eq_of_asks (ha : a.notAlias = true) (hb : b.notAlias = true) :
    rule T below a b = rule T below' a b := by
  rw [rule, rule, aliasRule_of_notAlias ha hb, aliasRule_of_notAlias ha hb, memberRule_eq_of_asks h]

end Rules

/-! ## Nearer to the end -/

/-- How far the form of a type is from the classes that it is compared through.  What has members or
items may have an answer as one of them. -/
def distance : Ty → Nat
  | .named _ _ _ => 0
  | .bool => 2
  | .logic _ | .union _ | .inter _ | .tuple _ | .record _ => 3
  | _ => 1

theorem distance_le (t : Ty) : distance t ≤ 3 := by
  cases t <;> simp [distance]

theorem distance_of_isSet {t : Ty} (h : t.isSet = true) : distance t = 3 := by
  cases t with
  | union | inter => rfl
  | _ => cases h

theorem nestedBelow_ofClass (name : TypeName) {n : Nat} (hn : 0 < n) :
    (Ty.ofClass name).nestedBelow n = true :=
  Ty.nestedBelow_of_parts_eq_nil rfl hn

theorem nestedBelow_tupleClass {items : List Ty} {n : Nat}
    (h : ∀ t ∈ items, t.nestedBelow n = true) : (tupleClass items).nestedBelow (n + 2) = true :=
  Ty.nestedBelow_succ_iff.mpr (List.forall_mem_singleton.mpr (Ty.nestedBelow_unionOf h))

theorem nestedBelow_recordClass {fields : List (Literal × Ty)} {n : Nat} (hn : 0 < n)
    (h : ∀ t ∈ fields.map (·.2), t.nestedBelow n = true) :
    (recordClass fields).nestedBelow (n + 2) = true := by
  have hkeys : ∀ t ∈ fields.map fun f => Ty.literal f.1, t.nestedBelow n = true := by
    intro t ht
    obtain ⟨f, -, rfl⟩ := List.mem_map.mp ht
    exact Ty.nestedBelow_of_parts_eq_nil rfl hn
  refine Ty.nestedBelow_succ_iff.mpr ?_
  simp [Ty.parts, recordClass, Ty.nestedBelow_unionOf hkeys, Ty.nestedBelow_unionOf h]

/-- What a type is compared as is nearer to the end, though it may be nested deeper. -/
theorem exists_of_mem_comparedAs {c : Ty} (hc : c ∈ comparedAs a) {i : Nat}
    (hi : a.nestedBelow i = true) :
    ∃ i', c.nestedBelow i' = true ∧ i' + distance c < i + distance a := by
  have hpos := Ty.pos_of_nestedBelow hi
  have hclass : ∀ name, (Ty.ofClass name).nestedBelow i = true :=
    fun name => nestedBelow_ofClass name hpos
  cases a with
  | logic question =>
    obtain rfl := List.mem_singleton.mp hc
    exact ⟨i, Ty.nestedBelow_of_parts_eq_nil rfl hpos, by simp [distance]⟩
  | bool =>
    have hliteral : ∀ value, (Ty.literal value).nestedBelow i = true :=
      fun _ => Ty.nestedBelow_of_parts_eq_nil rfl hpos
    rcases List.mem_pair.mp hc with rfl | rfl <;>
      exact ⟨i, hliteral _, by simp [distance, Ty.trueType, Ty.falseType]⟩
  | tuple items =>
    obtain rfl := List.mem_singleton.mp hc
    refine ⟨i - 1 + 2, nestedBelow_tupleClass fun t ht => Ty.nestedBelow_part hi ht, ?_⟩
    simp only [distance, tupleClass]
    omega
  | record fields =>
    obtain rfl := List.mem_singleton.mp hc
    refine ⟨i + 2, nestedBelow_recordClass hpos fun t ht => ?_, by simp [distance, recordClass]⟩
    exact Ty.nestedBelow_mono (Nat.sub_le i 1) (Ty.nestedBelow_part hi ht)
  | singleton name =>
    rcases List.mem_pair.mp hc with rfl | rfl <;>
      exact ⟨i, hclass _, by simp [distance, Ty.ofClass]⟩
  | nil | literal value | proc callable =>
    obtain rfl := List.mem_singleton.mp hc
    exact ⟨i, hclass _, by simp [distance, Ty.ofClass]⟩
  | _ => cases hc

/-- What a rule asks for is nearer to the end: levels and distance together get less. -/
theorem Asks.lower (h : Asks a b a' b') {i j : Nat} (hi : a.nestedBelow i = true)
    (hj : b.nestedBelow j = true) :
    ∃ i' j', a'.nestedBelow i' = true ∧ b'.nestedBelow j' = true ∧
      i' + j' + distance a' < i + j + distance a := by
  have hposi := Ty.pos_of_nestedBelow hi
  have hposj := Ty.pos_of_nestedBelow hj
  cases h with
  | left ha hm =>
    refine ⟨i - 1, j, Ty.nestedBelow_part hi hm, hj, ?_⟩
    have hle := distance_le a'
    have heq := distance_of_isSet ha
    omega
  | right hb hm =>
    exact ⟨i, j - 1, hi, Ty.nestedBelow_part hj hm, by omega⟩
  | @item as _ _ _ hu hv =>
    refine ⟨i - 1, j - 1, Ty.nestedBelow_part hi hu, Ty.nestedBelow_part hj hv, ?_⟩
    have hle := distance_le a'
    have heq : distance (.tuple as) = 3 := rfl
    omega
  | @field as _ _ _ hu hv =>
    refine ⟨i - 1, j - 1, Ty.nestedBelow_part hi hu, Ty.nestedBelow_part hj hv, ?_⟩
    have hle := distance_le a'
    have heq : distance (.record as) = 3 := rfl
    omega
  | form hc =>
    obtain ⟨i', hi', hlt⟩ := exists_of_mem_comparedAs hc hi
    exact ⟨i', j, hi', hj, by omega⟩

theorem aliasFree_of_mem_comparedAs {c : Ty} (hc : c ∈ comparedAs a) (ha : a.AliasFree) :
    c.AliasFree := by
  cases a with
  | tuple items =>
    obtain rfl := List.mem_singleton.mp hc
    have hitems := Ty.stable_notAlias.unionOf fun t (ht : t ∈ items) => ha.part ht
    exact Ty.all_iff.mpr ⟨rfl, List.forall_mem_singleton.mpr hitems⟩
  | record fields =>
    obtain rfl := List.mem_singleton.mp hc
    have hvalues := Ty.stable_notAlias.unionOf fun t (ht : t ∈ (Ty.record fields).parts) =>
      ha.part ht
    have hkeys : ∀ t ∈ fields.map fun f => Ty.literal f.1, t.all Ty.notAlias = true := by
      intro t ht
      obtain ⟨f, -, rfl⟩ := List.mem_map.mp ht
      rfl
    refine Ty.all_iff.mpr ⟨rfl, ?_⟩
    simpa [Ty.parts, recordClass, Ty.stable_notAlias.unionOf hkeys] using hvalues
  | bool | singleton name =>
    rcases List.mem_pair.mp hc with rfl | rfl <;> rfl
  | logic question | nil | literal value | proc callable =>
    obtain rfl := List.mem_singleton.mp hc
    rfl
  | _ => cases hc

/-- Rules bring up no alias. -/
theorem Asks.aliasFree (h : Asks a b a' b') (ha : a.AliasFree) (hb : b.AliasFree) :
    a'.AliasFree ∧ b'.AliasFree := by
  cases h with
  | left _ hm => exact ⟨ha.part hm, hb⟩
  | right _ hm => exact ⟨ha, hb.part hm⟩
  | item hu hv => exact ⟨ha.part hu, hb.part hv⟩
  | field hu hv => exact ⟨ha.part hu, hb.part hv⟩
  | form hc => exact ⟨aliasFree_of_mem_comparedAs hc ha, hb⟩

/-! ## Settled comparisons -/

/-- The comparison is settled once the budget is not below the levels and the distance. -/
theorem isSubtypeWithin_eq_of_le {n k i j : Nat} (ha : a.AliasFree) (hb : b.AliasFree)
    (hi : a.nestedBelow i = true) (hj : b.nestedBelow j = true) (hn : i + j + distance a ≤ n + 1)
    (hnk : n ≤ k) : T.isSubtypeWithin k a b = T.isSubtypeWithin n a b := by
  induction n generalizing k a b i j with
  | zero =>
    have hposi := Ty.pos_of_nestedBelow hi
    have hposj := Ty.pos_of_nestedBelow hj
    omega
  | succ n ih =>
    obtain ⟨k, rfl⟩ : ∃ m, k = m + 1 := ⟨k - 1, by omega⟩
    have hrule : rule T (T.isSubtypeWithin k) a b = rule T (T.isSubtypeWithin n) a b := by
      refine rule_eq_of_asks (fun a' b' hasks => ?_) ha.notAlias hb.notAlias
      obtain ⟨ha', hb'⟩ := hasks.aliasFree ha hb
      obtain ⟨i', j', hi', hj', hlt⟩ := hasks.lower hi hj
      exact ih ha' hb' hi' hj' (by omega) (by omega)
    rw [isSubtypeWithin, isSubtypeWithin, hrule]

/-- Two units more than the levels of both types are enough of a budget. -/
theorem isSubtypeWithin_settled {n k i j : Nat} (ha : a.Shallow i) (hb : b.Shallow j)
    (hn : i + j + 2 ≤ n) (hk : i + j + 2 ≤ k) :
    T.isSubtypeWithin k a b = T.isSubtypeWithin n a b := by
  have hle := distance_le a
  have hleast : ∀ m, i + j + 2 ≤ m →
      T.isSubtypeWithin m a b = T.isSubtypeWithin (i + j + 2) a b := by
    intro m hm
    exact isSubtypeWithin_eq_of_le ha.aliasFree hb.aliasFree ha.nested hb.nested (by omega) hm
  rw [hleast k hk, hleast n hn]

/-- The comparison of shallow types is settled before the whole budget is spent. -/
theorem isSubtypeWithin_eq_isSubtype {n i j : Nat} (ha : a.Shallow i) (hb : b.Shallow j)
    (hn : i + j + 2 ≤ n) (hbudget : n ≤ subtypeBudget) :
    T.isSubtypeWithin n a b = T.isSubtype a b :=
  isSubtypeWithin_settled ha hb (by omega) hn

end Table
end TypeShape
