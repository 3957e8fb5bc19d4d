import TypeShape.Proofs.Split.Falsy
import TypeShape.Proofs.Subtyping.Members

/-!
# Joining the two sides of a split

What a split by truth takes apart is joined again where two branches meet.  The joined type has the
members of the type that was split, with booleans taken apart.  A boolean is below none of its two
literals, and against a union the members of the union are tried before the boolean is taken apart.
So the type is below what is joined exactly when each boolean among its members is below some other
member that is no boolean.

Main results:

- Theorem `Table.mem_unionParts_rejoined_iff`: the members of what is joined.
- Theorem `Table.isSubtype_rejoined_iff`: when a type is below what is joined from its two sides.
-/

namespace TypeShape
namespace Ty

/-- The boolean type or the answer to a question. -/
def Boolean (t : Ty) : Prop :=
  t = .bool ∨ ∃ q, t = .logic q

theorem grains_of_boolean {t : Ty} (h : t.Boolean) : t.grains = [.trueType, .falseType] := by
  rcases h with rfl | ⟨q, rfl⟩ <;> rfl

theorem grains_of_not_boolean {t : Ty} (h : ¬ t.Boolean) : t.grains = [t] :=
  grains_eq_singleton (fun hbool => h (Or.inl hbool)) fun q hlogic => h (Or.inr ⟨q, hlogic⟩)

theorem grain_cases {t g : Ty} (hg : g ∈ t.grains) :
    g = .trueType ∨ g = .falseType ∨ (g = t ∧ ¬ t.Boolean) := by
  by_cases h : t.Boolean
  · rw [grains_of_boolean h, List.mem_pair] at hg
    exact hg.imp_right Or.inl
  · rw [grains_of_not_boolean h, List.mem_singleton] at hg
    exact Or.inr (Or.inr ⟨hg, h⟩)

theorem mem_grains_self {t : Ty} (h : ¬ t.Boolean) : t ∈ t.grains := by
  rw [grains_of_not_boolean h]
  exact List.mem_singleton_self t

theorem exists_mem_grains (t : Ty) : ∃ g, g ∈ t.grains := by
  by_cases h : t.Boolean
  · exact ⟨.trueType, by simp [grains_of_boolean h]⟩
  · exact ⟨t, mem_grains_self h⟩

theorem isUnionMember_of_mem_grains {t g : Ty} (ht : t.isUnionMember = true) (hg : g ∈ t.grains) :
    g.isUnionMember = true := by
  rcases grain_cases hg with rfl | rfl | ⟨rfl, -⟩
  · rfl
  · rfl
  · exact ht

theorem Shallow.of_mem_grains {n : Nat} {t g : Ty} (ht : t.Shallow n) (hg : g ∈ t.grains) :
    g.Shallow n := by
  have hn : 0 < n := pos_of_nestedBelow ht.nested
  rcases grain_cases hg with rfl | rfl | ⟨rfl, -⟩
  · exact ⟨by decide, nestedBelow_of_parts_eq_nil rfl hn⟩
  · exact ⟨by decide, nestedBelow_of_parts_eq_nil rfl hn⟩
  · exact ht

/-- The types that the members of a type in normal form stand for are equal only if they are one
type. -/
theorem Normal.grain_eq_of_beq {t m k a b : Ty} (h : t.Normal) (hm : m ∈ t.unionParts)
    (hk : k ∈ t.unionParts) (ha : a ∈ m.grains) (hb : b ∈ k.grains) (hbeq : (a == b) = true) :
    a = b := by
  by_cases hatom : a.isAtom = true ∨ b.isAtom = true
  · rcases hatom with hatom | hatom
    · exact (eq_of_head_of_isAtom hatom (head_eq_of_beq hbeq).symm).symm
    · exact eq_of_head_of_isAtom hatom (head_eq_of_beq hbeq)
  · rw [not_or] at hatom
    rcases grain_cases ha with rfl | rfl | ⟨rfl, -⟩
    · exact absurd rfl hatom.1
    · exact absurd rfl hatom.1
    rcases grain_cases hb with rfl | rfl | ⟨rfl, -⟩
    · exact absurd rfl hatom.2
    · exact absurd rfl hatom.2
    exact h.eq_of_beq_of_mem hm hk hbeq

end Ty

namespace Table

variable {T : Table}

/-- What is joined from the two sides of a split by truth. -/
def rejoined (T : Table) (t : Ty) : Ty :=
  Ty.unionOf [(T.splitByTruth t).1, (T.splitByTruth t).2]

/-- The sides of the members of a type, those that can be true first. -/
def memberSides (T : Table) (t : Ty) : List Ty :=
  t.unionParts.map (fun m => (T.splitByTruth m).1) ++
    t.unionParts.map fun m => (T.splitByTruth m).2

theorem expansion?_of_notAlias {t : Ty} (h : t.notAlias = true) : T.expansion? t = none := by
  cases t with
  | named kind name args =>
    cases kind with
    | aliasOf => cases h
    | _ => rfl
  | _ => rfl

/-- The sides of a member are the types that it stands for, and what is left empty. -/
theorem eq_side_iff {m s : Ty} (hm : m.isUnionMember = true) (hna : m.notAlias = true)
    (hs : s ≠ .bot) :
    s = (T.splitByTruth m).1 ∨ s = (T.splitByTruth m).2 ↔ s ∈ m.grains := by
  have hu : ∀ ms, m ≠ .union ms := by
    rintro ms rfl
    cases hm
  have hb : m ≠ .bot := by
    rintro rfl
    cases hm
  have he : T.expansion? m = none := expansion?_of_notAlias hna
  rw [splitByTruth, splitDepth, splitWithin_of_leaf hu he]
  rcases Leaf.splitWithin_cases truthPlacement (.self hu hb he) with
    ⟨hgrains, hsplit⟩ | ⟨⟨name, args, rfl, -⟩, -⟩ | ⟨hgrains, -, hsplit⟩
  · rw [hsplit, hgrains, placeBool_truthPlacement]
    exact List.mem_pair.symm
  · cases hna
  · rw [hsplit, hgrains, List.mem_singleton, place]
    cases truthPlacement m <;> simp [hs]

section Members

variable {t : Ty} (ht : t.Normal) (hfree : t.AliasFree) (hun : t ≠ .untyped)

include ht hfree hun

theorem mem_memberSides_iff {s : Ty} (hs : s ≠ .bot) :
    s ∈ T.memberSides t ↔ ∃ m ∈ t.unionParts, s ∈ m.grains := by
  have hside : ∀ m ∈ t.unionParts,
      (s = (T.splitByTruth m).1 ∨ s = (T.splitByTruth m).2 ↔ s ∈ m.grains) := fun m hm =>
    eq_side_iff (ht.isUnionMember hun hm) (Ty.all_here (Ty.all_of_mem_unionParts hm hfree)) hs
  simp only [memberSides, List.mem_append, List.mem_map, ← exists_or, ← and_or_left,
    eq_comm (b := s)]
  exact exists_congr fun m => and_congr_right fun hm => hside m hm

theorem isUnionMember_of_mem_memberSides {s : Ty} (hs : s ∈ T.memberSides t) (hb : s ≠ .bot) :
    s.isUnionMember = true := by
  obtain ⟨m, hm, hsm⟩ := (mem_memberSides_iff ht hfree hun hb).mp hs
  exact Ty.isUnionMember_of_mem_grains (ht.isUnionMember hun hm) hsm

theorem steady_of_mem_memberSides {s : Ty} (hs : s ∈ T.memberSides t) : s.Steady := by
  refine .of_not_union fun ms heq => ?_
  subst heq
  cases isUnionMember_of_mem_memberSides ht hfree hun hs (by simp)

/-- A type is joined from the sides of its members. -/
theorem rejoined_eq_unionOf : T.rejoined t = Ty.unionOf (T.memberSides t) := by
  cases t with
  | union ms =>
    have hsteady := fun s => steady_of_mem_memberSides (T := T) (s := s) ht hfree hun
    have hsplit : T.splitByTruth (.union ms) =
        (Ty.unionOf (ms.map fun m => (T.splitByTruth m).1),
          Ty.unionOf (ms.map fun m => (T.splitByTruth m).2)) := splitWithin_union splitDepth ms
    rw [rejoined, hsplit, memberSides]
    exact Ty.unionOf_pair_unionOf (fun s hs => hsteady s (List.mem_append_left _ hs))
      fun s hs => hsteady s (List.mem_append_right _ hs)
  | _ => rfl

theorem mem_flatMap_memberSides_iff {r : Ty} :
    r ∈ (T.memberSides t).flatMap Ty.unionParts ↔ ∃ m ∈ t.unionParts, r ∈ m.grains := by
  rw [List.mem_flatMap]
  constructor
  · rintro ⟨s, hs, hr⟩
    have hb : s ≠ .bot := by
      rintro rfl
      cases hr
    rw [Ty.unionParts_of_isUnionMember (isUnionMember_of_mem_memberSides ht hfree hun hs hb)] at hr
    obtain rfl := List.mem_singleton.mp hr
    exact (mem_memberSides_iff ht hfree hun hb).mp hs
  · rintro ⟨m, hm, hr⟩
    have hmember := Ty.isUnionMember_of_mem_grains (ht.isUnionMember hun hm) hr
    have hb : r ≠ .bot := by
      rintro rfl
      cases hmember
    refine ⟨r, (mem_memberSides_iff ht hfree hun hb).mpr ⟨m, hm, hr⟩, ?_⟩
    rw [Ty.unionParts_of_isUnionMember hmember]
    exact List.mem_singleton_self r

/-- What is joined from both sides of a type has the members of the type, booleans taken apart. -/
theorem mem_unionParts_rejoined_iff {r : Ty} :
    r ∈ (T.rejoined t).unionParts ↔ ∃ m ∈ t.unionParts, r ∈ m.grains := by
  have hmem := fun r => mem_flatMap_memberSides_iff (T := T) (r := r) ht hfree hun
  have huntyped : .untyped ∉ (T.memberSides t).flatMap Ty.unionParts := by
    rw [hmem]
    rintro ⟨m, hm, hr⟩
    cases Ty.isUnionMember_of_mem_grains (ht.isUnionMember hun hm) hr
  rw [rejoined_eq_unionOf ht hfree hun,
    Ty.Steady.unionParts_unionOf (fun s hs => steady_of_mem_memberSides ht hfree hun hs) huntyped,
    Ty.mem_distinct_iff, hmem]
  intro a ha b hb hbeq
  obtain ⟨m, hm, ham⟩ := (hmem a).mp ha
  obtain ⟨k, hk, hbk⟩ := (hmem b).mp hb
  exact ht.grain_eq_of_beq hm hk ham hbk hbeq

end Members

/-! ## Against the type that was split -/

theorem isSubtype_literal_of_boolean {m r : Ty} (hm : m.Boolean)
    (hr : r = .trueType ∨ r = .falseType) : T.isSubtype m r = false := by
  rcases hm with rfl | ⟨q, rfl⟩ <;> rcases hr with rfl | rfl <;> rfl

theorem shallow_rejoined {n : Nat} {t : Ty} (ht : t.Normal) (hun : t ≠ .untyped)
    (hs : t.Shallow n) : (T.rejoined t).Shallow (n + 1) := by
  rw [rejoined_eq_unionOf ht hs.aliasFree hun]
  refine Ty.shallow_unionOf fun s hside => ?_
  by_cases hb : s = .bot
  · subst hb
    exact ⟨by decide, Ty.nestedBelow_of_parts_eq_nil rfl (Ty.pos_of_nestedBelow hs.nested)⟩
  · obtain ⟨m, hm, hsm⟩ := (mem_memberSides_iff ht hs.aliasFree hun hb).mp hside
    exact (hs.of_mem_unionParts hm).of_mem_grains hsm

/-- What a member is below when its type is joined again: other members that are no booleans, or
itself if it is none. -/
theorem exists_rejoined_iff {t m : Ty} (ht : t.Normal) (hfree : t.AliasFree) (hun : t ≠ .untyped)
    (hm : m ∈ t.unionParts) :
    (∃ r ∈ (T.rejoined t).unionParts, T.isSubtype m r = true) ↔
      (m.Boolean → ∃ k ∈ t.unionParts, ¬ k.Boolean ∧ T.isSubtype m k = true) := by
  have hmem := fun r => mem_unionParts_rejoined_iff (T := T) (r := r) ht hfree hun
  have hkept : ∀ k ∈ t.unionParts, ¬ k.Boolean → k ∈ (T.rejoined t).unionParts :=
    fun k hk hnot => (hmem k).mpr ⟨k, hk, Ty.mem_grains_self hnot⟩
  constructor
  · rintro ⟨r, hr, hbelow⟩ hbool
    obtain ⟨k, hk, hrk⟩ := (hmem r).mp hr
    have hliteral : ¬ (r = .trueType ∨ r = .falseType) := by
      intro h
      rw [isSubtype_literal_of_boolean hbool h] at hbelow
      cases hbelow
    rcases Ty.grain_cases hrk with h | h | ⟨rfl, hnot⟩
    · exact absurd (Or.inl h) hliteral
    · exact absurd (Or.inr h) hliteral
    · exact ⟨r, hk, hnot, hbelow⟩
  · intro h
    by_cases hbool : m.Boolean
    · obtain ⟨k, hk, hnot, hbelow⟩ := h hbool
      exact ⟨k, hkept k hk hnot, hbelow⟩
    · exact ⟨m, hkept m hm hbool, isSubtypeWithin_of_beq (Ty.beq_refl m)⟩

/-- A type is below what is joined from its two sides exactly when each boolean among its members is
below another member that is no boolean; so it is if no member is a boolean. -/
theorem isSubtype_rejoined_iff (T : Table) {t : Ty} (ht : t.Normal) (hs : t.Shallow 30) :
    T.isSubtype t (T.rejoined t) = true ↔
      ∀ m ∈ t.unionParts, m.Boolean →
        ∃ k ∈ t.unionParts, ¬ k.Boolean ∧ T.isSubtype m k = true := by
  by_cases hun : t = .untyped
  · subst hun
    refine iff_of_true (isSubtypeWithin_of_isCeiling rfl) fun m hm hbool => ?_
    obtain rfl := List.mem_singleton.mp hm
    simp [Ty.Boolean] at hbool
  have hshallow : (T.rejoined t).Shallow 31 := shallow_rejoined ht hun hs
  rw [isSubtype_iff_forall_unionParts (by decide) ht hs hshallow]
  refine forall₂_congr fun m hm => ?_
  have hne : T.rejoined t ≠ .bot := by
    intro heq
    obtain ⟨g, hg⟩ := Ty.exists_mem_grains m
    have hjoined := (mem_unionParts_rejoined_iff (T := T) ht hs.aliasFree hun).mpr ⟨m, hm, hg⟩
    rw [heq] at hjoined
    cases hjoined
  rw [isSubtype_iff_exists_unionParts (by decide) (ht.isUnionMember hun hm)
    (hs.of_mem_unionParts hm) hshallow hne, exists_rejoined_iff ht hs.aliasFree hun hm]

/-- The classes of the boolean literals, below the root. -/
def truths : Table where
  modules := [
    (.falseClass,
      { name := .falseClass, kind := .classDecl, superclass := some (.ofClass .object) }),
    (.object, { name := .object, kind := .classDecl }),
    (.trueClass,
      { name := .trueClass, kind := .classDecl, superclass := some (.ofClass .object) })]

/-- A boolean or `nil` is not below what is joined from its sides; together with the root it is. -/
theorem rejoined_truths :
    truths.isSubtype (.union [.bool, .nil]) (truths.rejoined (.union [.bool, .nil])) = false ∧
      truths.isSubtype (.union [.bool, .ofClass .object])
        (truths.rejoined (.union [.bool, .ofClass .object])) = true := by
  constructor
  · rw [Bool.eq_false_iff, Ne, isSubtype_rejoined_iff truths (by decide) (by decide)]
    intro h
    obtain ⟨k, hk, hnot, hbelow⟩ := h .bool (by simp [Ty.unionParts]) (Or.inl rfl)
    rcases List.mem_pair.mp hk with rfl | rfl
    · exact hnot (Or.inl rfl)
    · exact absurd hbelow (by decide)
  · rw [isSubtype_rejoined_iff truths (by decide) (by decide)]
    rintro m hm hbool
    refine ⟨.ofClass .object, by simp [Ty.unionParts], by simp [Ty.Boolean, Ty.ofClass], ?_⟩
    rcases List.mem_pair.mp hm with rfl | rfl
    · decide
    · decide

end Table
end TypeShape
