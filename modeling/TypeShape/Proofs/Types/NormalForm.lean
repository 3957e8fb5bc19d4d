import TypeShape.Proofs.Types.Lattice

/-!
# Types in normal form

A union or intersection in normal form has two or more members, which are distinct and flat.  The
constructions keep such members as they are, and whatever they build from types in normal form is
in normal form.  The second fact is proved for any test of nodes that the constructions keep.

Main results:

- Theorems `Ty.unionOf_eq_self` and `Ty.interOf_eq_self`: members in normal form are kept.
- Theorems `Ty.Stable.unionOf` and `Ty.Stable.interOf`: a stable test passes everywhere in a union
  or intersection of types where it passes everywhere.
- Theorems `Ty.stable_distinctHere` and `Ty.stable_normalHere`: distinct members and normal forms
  are such tests.
-/

namespace TypeShape
namespace Ty

/-! ## Normal form -/

/-- The type can stand directly in a union in normal form. -/
def isUnionMember : Ty → Bool
  | union _ => false
  | bot => false
  | untyped => false
  | _ => true

/-- The type can stand directly in an intersection in normal form. -/
def isInterMember : Ty → Bool
  | inter _ => false
  | top => false
  | _ => true

/-- A union or intersection has two or more members, which are distinct and flat. -/
def normalHere : Ty → Bool
  | union ms => decide (2 ≤ ms.length) && distinctTypes ms && ms.all isUnionMember
  | inter ms => decide (2 ≤ ms.length) && distinctTypes ms && ms.all isInterMember
  | _ => true

/-- Every union and intersection in a type is in normal form. -/
def Normal (t : Ty) : Prop :=
  t.all normalHere = true

instance (t : Ty) : Decidable t.Normal :=
  inferInstanceAs (Decidable (_ = true))

/-- Parts of a type in normal form are in normal form. -/
theorem Normal.part {t u : Ty} (h : t.Normal) (hu : u ∈ t.parts) : u.Normal :=
  all_part h hu

/-- Types in normal form are well formed. -/
theorem Normal.wellFormed {t : Ty} (h : t.Normal) : t.WellFormed := by
  refine all_mono ?_ h
  intro t ht
  cases t <;> simp_all [normalHere, distinctHere]

/-- A union is in normal form at its head if it has two distinct members that are no unions. -/
theorem normalHere_union {ms : List Ty} :
    normalHere (union ms) = true ↔
      2 ≤ ms.length ∧ (ms.Pairwise fun a b => (a == b) = false) ∧
        ∀ m ∈ ms, isUnionMember m = true := by
  simp [normalHere, distinctTypes, and_assoc]

/-- An intersection is in normal form at its head if it has two distinct members that are none. -/
theorem normalHere_inter {ms : List Ty} :
    normalHere (inter ms) = true ↔
      2 ≤ ms.length ∧ (ms.Pairwise fun a b => (a == b) = false) ∧
        ∀ m ∈ ms, isInterMember m = true := by
  simp [normalHere, distinctTypes, and_assoc]

/-- A member of a union is its only part there. -/
theorem unionParts_of_isUnionMember {t : Ty} (h : t.isUnionMember = true) : t.unionParts = [t] := by
  cases t <;> simp_all [isUnionMember, unionParts]

/-- A member of an intersection is its only part there. -/
theorem interParts_of_isInterMember {t : Ty} (h : t.isInterMember = true) : t.interParts = [t] := by
  cases t <;> simp_all [isInterMember, interParts]

/-- Taking parts leaves types that are their only parts. -/
theorem flatMap_eq_self {f : Ty → List Ty} {ts : List Ty} (h : ∀ t ∈ ts, f t = [t]) :
    ts.flatMap f = ts := by
  induction ts with
  | nil => rfl
  | cons t ts ih =>
    rw [List.flatMap_cons, h t List.mem_cons_self, ih fun u hu => h u (List.mem_cons_of_mem t hu)]
    rfl

/-- Members in normal form are kept as they are. -/
theorem unionOf_eq_self {ms : List Ty} (h : normalHere (union ms) = true) :
    unionOf ms = union ms := by
  obtain ⟨hlen, hdist, hmem⟩ := normalHere_union.mp h
  have hflat : ms.flatMap unionParts = ms :=
    flatMap_eq_self fun m hm => unionParts_of_isUnionMember (hmem m hm)
  have hun : ¬ ms.any isUntyped = true := by
    intro hany
    obtain ⟨m, hm, hun⟩ := List.any_eq_true.mp hany
    have hmem' := hmem m hm
    rw [isUntyped_iff.mp hun] at hmem'
    simp [isUnionMember] at hmem'
  rw [unionOf_eq, hflat, distinct_eq_self hdist, if_neg hun]
  rcases collapseUnion_cases ms with ⟨rfl, -⟩ | ⟨m, rfl, -⟩ | ⟨-, hc⟩
  · simp at hlen
  · simp at hlen
  · exact hc

/-- Members in normal form are kept as they are. -/
theorem interOf_eq_self {ms : List Ty} (h : normalHere (inter ms) = true) :
    interOf ms = inter ms := by
  obtain ⟨hlen, hdist, hmem⟩ := normalHere_inter.mp h
  have hflat : ms.flatMap interParts = ms :=
    flatMap_eq_self fun m hm => interParts_of_isInterMember (hmem m hm)
  rw [interOf_eq, hflat, distinct_eq_self hdist]
  rcases collapseInter_cases ms with ⟨rfl, -⟩ | ⟨m, rfl, -⟩ | ⟨-, hc⟩
  · simp at hlen
  · simp at hlen
  · exact hc

/-! ## Properties that the constructions keep -/

/-- A test of nodes that the constructions keep: it passes at the types they collapse to, and at a
set of distinct members each of which is no such set, or comes from a set that passes. -/
structure Stable (test : Ty → Bool) : Prop where
  untyped : test untyped = true
  bot : test bot = true
  top : test top = true
  union : ∀ ms : List Ty, 2 ≤ ms.length → (ms.Pairwise fun a b => (a == b) = false) →
    (∀ m ∈ ms, m ≠ .untyped) →
    (∀ m ∈ ms, (m ≠ .bot ∧ ∀ inner, m ≠ .union inner) ∨
      ∃ inner, m ∈ inner ∧ test (.union inner) = true) → test (.union ms) = true
  inter : ∀ ms : List Ty, 2 ≤ ms.length → (ms.Pairwise fun a b => (a == b) = false) →
    (∀ m ∈ ms, (m ≠ .top ∧ ∀ inner, m ≠ .inter inner) ∨
      ∃ inner, m ∈ inner ∧ test (.inter inner) = true) → test (.inter ms) = true

/-- A type without parts passes throughout if it passes. -/
theorem all_of_parts_eq_nil {test : Ty → Bool} {t : Ty} (hp : t.parts = []) (h : test t = true) :
    t.all test = true := by
  rw [all_iff, hp]
  simpa using h

/-- Distinct parts pass if the types do. -/
theorem all_of_mem_distinct {test : Ty → Bool} {f : Ty → List Ty} {ts : List Ty}
    (hf : ∀ t u : Ty, u ∈ f t → t.all test = true → u.all test = true)
    (h : ∀ t ∈ ts, t.all test = true) {m : Ty} (hm : m ∈ distinct (ts.flatMap f)) :
    m.all test = true := by
  obtain ⟨t, ht, hmt⟩ := List.mem_flatMap.mp (mem_of_mem_distinct hm)
  exact hf t m hmt (h t ht)

/-- Parts in a union pass if the type does. -/
theorem all_of_mem_unionParts {test : Ty → Bool} {t u : Ty} (hu : u ∈ t.unionParts)
    (h : t.all test = true) : u.all test = true := by
  rcases mem_unionParts hu with ⟨rfl, -⟩ | ⟨ms, rfl, hu⟩
  · exact h
  · exact all_part h hu

/-- Parts in an intersection pass if the type does. -/
theorem all_of_mem_interParts {test : Ty → Bool} {t u : Ty} (hu : u ∈ t.interParts)
    (h : t.all test = true) : u.all test = true := by
  rcases mem_interParts hu with ⟨rfl, -⟩ | ⟨ms, rfl, hu⟩
  · exact h
  · exact all_part h hu

namespace Stable

variable {test : Ty → Bool} {ts : List Ty}

/-- A union of types that pass a stable test everywhere passes it everywhere. -/
theorem unionOf (hs : Stable test) (h : ∀ t ∈ ts, t.all test = true) :
    (unionOf ts).all test = true := by
  have hmem : ∀ m ∈ distinct (ts.flatMap unionParts), m.all test = true :=
    fun m hm => all_of_mem_distinct (fun _ _ => all_of_mem_unionParts) h hm
  rw [unionOf_eq]
  split
  · exact all_of_parts_eq_nil rfl hs.untyped
  · rename_i hun
    rcases collapseUnion_cases (distinct (ts.flatMap unionParts)) with
      ⟨-, hc⟩ | ⟨m, hm, hc⟩ | ⟨hlen, hc⟩
    · rw [hc]
      exact all_of_parts_eq_nil rfl hs.bot
    · rw [hc]
      exact hmem m (by simp [hm])
    · rw [hc, all_iff]
      refine ⟨hs.union _ hlen (pairwise_distinct _) ?_ ?_, hmem⟩
      · rintro m hm rfl
        exact hun (List.any_eq_true.mpr ⟨_, hm, rfl⟩)
      · intro m hm
        obtain ⟨t, ht, hmt⟩ := List.mem_flatMap.mp (mem_of_mem_distinct hm)
        rcases mem_unionParts hmt with ⟨rfl, hne⟩ | ⟨inner, rfl, hm'⟩
        · refine Or.inl ⟨?_, hne⟩
          rintro rfl
          simp [unionParts] at hmt
        · exact Or.inr ⟨inner, hm', all_here (h _ ht)⟩

/-- An intersection of types that pass a stable test everywhere passes it everywhere. -/
theorem interOf (hs : Stable test) (h : ∀ t ∈ ts, t.all test = true) :
    (interOf ts).all test = true := by
  have hmem : ∀ m ∈ distinct (ts.flatMap interParts), m.all test = true :=
    fun m hm => all_of_mem_distinct (fun _ _ => all_of_mem_interParts) h hm
  rw [interOf_eq]
  rcases collapseInter_cases (distinct (ts.flatMap interParts)) with
    ⟨-, hc⟩ | ⟨m, hm, hc⟩ | ⟨hlen, hc⟩
  · rw [hc]
    exact all_of_parts_eq_nil rfl hs.top
  · rw [hc]
    exact hmem m (by simp [hm])
  · rw [hc, all_iff]
    refine ⟨hs.inter _ hlen (pairwise_distinct _) ?_, hmem⟩
    intro m hm
    obtain ⟨t, ht, hmt⟩ := List.mem_flatMap.mp (mem_of_mem_distinct hm)
    rcases mem_interParts hmt with ⟨rfl, hne⟩ | ⟨inner, rfl, hm'⟩
    · refine Or.inl ⟨?_, hne⟩
      rintro rfl
      simp [interParts] at hmt
    · exact Or.inr ⟨inner, hm', all_here (h _ ht)⟩

/-- A test that asks nothing of unions and intersections is stable. -/
theorem of_sets (hun : test .untyped = true) (hbot : test .bot = true) (htop : test .top = true)
    (hunion : ∀ ms, test (.union ms) = true) (hinter : ∀ ms, test (.inter ms) = true) :
    Stable test :=
  ⟨hun, hbot, htop, fun ms _ _ _ _ => hunion ms, fun ms _ _ _ => hinter ms⟩

end Stable

/-- The test for distinct members is kept by unions and intersections. -/
theorem stable_distinctHere : Stable distinctHere where
  untyped := rfl
  bot := rfl
  top := rfl
  union ms _ hd _ _ := by simpa [distinctHere, distinctTypes] using hd
  inter ms _ hd _ := by simpa [distinctHere, distinctTypes] using hd

/-- A member of a union is neither untyped nor the bottom nor a union. -/
theorem isUnionMember_iff {t : Ty} :
    t.isUnionMember = true ↔ t ≠ untyped ∧ t ≠ bot ∧ ∀ ms, t ≠ union ms := by
  cases t <;> simp [isUnionMember]

/-- A member of an intersection is neither the top nor an intersection. -/
theorem isInterMember_iff {t : Ty} :
    t.isInterMember = true ↔ t ≠ top ∧ ∀ ms, t ≠ inter ms := by
  cases t <;> simp [isInterMember]

/-- The test for normal form is kept by unions and intersections. -/
theorem stable_normalHere : Stable normalHere where
  untyped := rfl
  bot := rfl
  top := rfl
  union ms hlen hd hun hm := by
    refine normalHere_union.mpr ⟨hlen, hd, fun m hmem => ?_⟩
    rcases hm m hmem with ⟨hbot, hne⟩ | ⟨inner, hin, htest⟩
    · exact isUnionMember_iff.mpr ⟨hun m hmem, hbot, hne⟩
    · exact (normalHere_union.mp htest).2.2 m hin
  inter ms hlen hd hm := by
    refine normalHere_inter.mpr ⟨hlen, hd, fun m hmem => ?_⟩
    rcases hm m hmem with hne | ⟨inner, hin, htest⟩
    · exact isInterMember_iff.mpr hne
    · exact (normalHere_inter.mp htest).2.2 m hin

/-- A union of types in normal form is in normal form. -/
theorem normal_unionOf {ts : List Ty} (h : ∀ t ∈ ts, t.Normal) : (unionOf ts).Normal :=
  stable_normalHere.unionOf h

/-- An intersection of types in normal form is in normal form. -/
theorem normal_interOf {ts : List Ty} (h : ∀ t ∈ ts, t.Normal) : (interOf ts).Normal :=
  stable_normalHere.interOf h

end Ty
end TypeShape
