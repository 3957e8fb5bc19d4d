import TypeShape.Proofs.Types.Equality
import TypeShape.Ty.Lattice

/-!
# Unions and intersections as sets of members

Both constructions flatten their arguments, keep the first of equal members, and collapse.  What
they contain, up to equality, depends only on what the arguments contain.

Main results:

- Theorems `Ty.unionOf_eq` and `Ty.interOf_eq`: the constructions as one pass over the members.
- Theorems `Ty.beq_unionOf` and `Ty.beq_interOf`: arguments with equal members have equal unions
  and intersections.
- Theorems `Ty.mem_occurrences_unionOf` and `Ty.mem_occurrences_interOf`: what they mention.
-/

namespace TypeShape
namespace Ty

/-! ## Keeping the first of equal types -/

/-- A type that is there already is not added. -/
theorem pushNew_of_any {ms : List Ty} {t : Ty} (h : ms.any (· == t) = true) :
    pushNew ms t = ms := by
  rw [pushNew, if_pos h]

/-- A type that is not there yet is added at the end. -/
theorem pushNew_of_not_any {ms : List Ty} {t : Ty} (h : ms.any (· == t) = false) :
    pushNew ms t = ms ++ [t] := by
  rw [pushNew, if_neg (by simp [h])]

/-- What is there after adding was there before or is added. -/
theorem mem_pushNew {ms : List Ty} {t u : Ty} (h : u ∈ pushNew ms t) : u ∈ ms ∨ u = t := by
  unfold pushNew at h
  split at h
  · exact Or.inl h
  · simpa using h

/-- So it is after adding several types. -/
theorem mem_foldl_pushNew {ms ts : List Ty} {u : Ty} (h : u ∈ ts.foldl pushNew ms) :
    u ∈ ms ∨ u ∈ ts := by
  induction ts generalizing ms with
  | nil => exact Or.inl h
  | cons t ts ih =>
    rcases ih h with h | h
    · rcases mem_pushNew h with h | rfl
      · exact Or.inl h
      · exact Or.inr List.mem_cons_self
    · exact Or.inr (List.mem_cons_of_mem t h)

/-- Nothing is lost by adding. -/
theorem mem_foldl_pushNew_of_mem {ms ts : List Ty} {u : Ty} (h : u ∈ ms) :
    u ∈ ts.foldl pushNew ms := by
  induction ts generalizing ms with
  | nil => exact h
  | cons t ts ih =>
    apply ih
    unfold pushNew
    split
    · exact h
    · exact List.mem_append_left _ h

/-- Every type of the list is equal to one that was kept. -/
theorem exists_mem_foldl_pushNew {ms ts : List Ty} {t : Ty} (h : t ∈ ts) :
    ∃ u ∈ ts.foldl pushNew ms, (u == t) = true := by
  induction ts generalizing ms with
  | nil => simp at h
  | cons t' ts ih =>
    rcases List.mem_cons.mp h with rfl | h
    · cases hany : ms.any (· == t) with
      | true =>
        obtain ⟨u, hu, hut⟩ := List.any_eq_true.mp hany
        rw [List.foldl_cons, pushNew_of_any hany]
        exact ⟨u, mem_foldl_pushNew_of_mem hu, hut⟩
      | false =>
        rw [List.foldl_cons, pushNew_of_not_any hany]
        exact ⟨t, mem_foldl_pushNew_of_mem (by simp), beq_refl t⟩
    · exact ih h

/-- Distinct types stay distinct as others are added. -/
theorem pairwise_foldl_pushNew {ms ts : List Ty}
    (h : ms.Pairwise fun a b => (a == b) = false) :
    (ts.foldl pushNew ms).Pairwise fun a b => (a == b) = false := by
  induction ts generalizing ms with
  | nil => exact h
  | cons t ts ih =>
    rw [List.foldl_cons]
    cases hany : ms.any (· == t) with
    | true =>
      rw [pushNew_of_any hany]
      exact ih h
    | false =>
      rw [pushNew_of_not_any hany]
      apply ih
      rw [List.pairwise_append]
      refine ⟨h, List.pairwise_singleton _ _, ?_⟩
      intro a ha b hb
      rw [List.mem_singleton.mp hb]
      simpa using List.any_eq_false.mp hany a ha

/-- Types that are distinct already are all kept, in order. -/
theorem foldl_pushNew_of_pairwise {ms ts : List Ty}
    (h : (ms ++ ts).Pairwise fun a b => (a == b) = false) : ts.foldl pushNew ms = ms ++ ts := by
  induction ts generalizing ms with
  | nil => simp
  | cons t ts ih =>
    have hany : ms.any (· == t) = false := by
      rw [List.any_eq_false]
      intro a ha
      rw [List.pairwise_append] at h
      simp [h.2.2 a ha t List.mem_cons_self]
    rw [List.foldl_cons, pushNew_of_not_any hany, ih (by simpa using h)]
    simp

/-! ## Members -/

/-- What a type contributes to a union. -/
def unionParts : Ty → List Ty
  | union ms => ms
  | bot => []
  | t => [t]

/-- What a type contributes to an intersection. -/
def interParts : Ty → List Ty
  | inter ms => ms
  | top => []
  | t => [t]

/-- Unions take in the parts of each type. -/
theorem foldl_addToUnion (ms ts : List Ty) :
    ts.foldl addToUnion ms = (ts.flatMap unionParts).foldl pushNew ms := by
  induction ts generalizing ms with
  | nil => rfl
  | cons t ts ih =>
    rw [List.foldl_cons, ih, List.flatMap_cons, List.foldl_append]
    cases t <;> rfl

/-- Intersections take in the parts of each type. -/
theorem foldl_addToInter (ms ts : List Ty) :
    ts.foldl addToInter ms = (ts.flatMap interParts).foldl pushNew ms := by
  induction ts generalizing ms with
  | nil => rfl
  | cons t ts ih =>
    rw [List.foldl_cons, ih, List.flatMap_cons, List.foldl_append]
    cases t <;> rfl

/-- A union is its distinct members, collapsed, unless one of them is `untyped`. -/
theorem unionOf_eq (ts : List Ty) :
    unionOf ts =
      if (distinct (ts.flatMap unionParts)).any isUntyped then untyped
      else collapseUnion (distinct (ts.flatMap unionParts)) := by
  rw [distinct, ← foldl_addToUnion]
  rfl

/-- An intersection is its distinct members, collapsed. -/
theorem interOf_eq (ts : List Ty) :
    interOf ts = collapseInter (distinct (ts.flatMap interParts)) := by
  rw [distinct, ← foldl_addToInter]
  rfl

/-- The distinct types are among those given. -/
theorem mem_of_mem_distinct {ts : List Ty} {t : Ty} (h : t ∈ distinct ts) : t ∈ ts := by
  rcases mem_foldl_pushNew h with h | h
  · simp at h
  · exact h

/-- Every type is equal to one of the distinct ones. -/
theorem exists_mem_distinct {ts : List Ty} {t : Ty} (h : t ∈ ts) :
    ∃ u ∈ distinct ts, (u == t) = true :=
  exists_mem_foldl_pushNew h

/-- The distinct types are distinct. -/
theorem pairwise_distinct (ts : List Ty) : (distinct ts).Pairwise fun a b => (a == b) = false :=
  pairwise_foldl_pushNew List.Pairwise.nil

/-- Types that are distinct already are left as they are. -/
theorem distinct_eq_self {ts : List Ty} (h : ts.Pairwise fun a b => (a == b) = false) :
    distinct ts = ts :=
  foldl_pushNew_of_pairwise h

/-- What is no union and not the bottom is its only part in a union. -/
theorem unionParts_eq_of_ne {t : Ty} (hu : ∀ ms, t ≠ union ms) (hb : t ≠ bot) :
    t.unionParts = [t] := by
  cases t <;> simp_all [unionParts]

/-- What is no intersection and not the top is its only part in an intersection. -/
theorem interParts_eq_of_ne {t : Ty} (hi : ∀ ms, t ≠ inter ms) (ht : t ≠ top) :
    t.interParts = [t] := by
  cases t <;> simp_all [interParts]

/-- A contribution to a union is the type itself or one of its parts. -/
theorem mem_unionParts {t u : Ty} (h : u ∈ t.unionParts) :
    (u = t ∧ ∀ ms, t ≠ union ms) ∨ ∃ ms, t = union ms ∧ u ∈ ms := by
  cases t <;> simp_all [unionParts]

/-- A contribution to an intersection is the type itself or one of its parts. -/
theorem mem_interParts {t u : Ty} (h : u ∈ t.interParts) :
    (u = t ∧ ∀ ms, t ≠ inter ms) ∨ ∃ ms, t = inter ms ∧ u ∈ ms := by
  cases t <;> simp_all [interParts]

/-- A union collapses to the bottom type, to its only member, or stays one of two or more. -/
theorem collapseUnion_cases (ms : List Ty) :
    (ms = [] ∧ collapseUnion ms = bot) ∨ (∃ t, ms = [t] ∧ collapseUnion ms = t) ∨
      (2 ≤ ms.length ∧ collapseUnion ms = union ms) := by
  rcases ms with _ | ⟨a, _ | ⟨b, ms⟩⟩ <;> simp [collapseUnion]

/-- An intersection collapses to the top type, to its only member, or stays one of two or more. -/
theorem collapseInter_cases (ms : List Ty) :
    (ms = [] ∧ collapseInter ms = top) ∨ (∃ t, ms = [t] ∧ collapseInter ms = t) ∨
      (2 ≤ ms.length ∧ collapseInter ms = inter ms) := by
  rcases ms with _ | ⟨a, _ | ⟨b, ms⟩⟩ <;> simp [collapseInter]

/-! ## Members up to equality -/

/-- Every type of the first list is equal to one of the second. -/
def Covered (ts us : List Ty) : Prop :=
  ∀ t ∈ ts, ∃ u ∈ us, (t == u) = true

/-- Only the untyped type is untyped. -/
theorem isUntyped_iff {t : Ty} : t.isUntyped = true ↔ t = untyped := by
  cases t <;> simp [isUntyped]

/-- What equal types contribute to a union is equal. -/
theorem covered_unionParts {t u : Ty} (h : (t == u) = true) :
    Covered t.unionParts u.unionParts := by
  intro a ha
  have hhead := head_eq_of_beq h
  rcases mem_unionParts ha with ⟨rfl, hne⟩ | ⟨ms, rfl, ha⟩
  · have hu : u.unionParts = [u] := by
      apply unionParts_eq_of_ne
      · rintro ms rfl
        obtain ⟨ms', rfl⟩ := eq_union_of_head hhead
        exact hne ms' rfl
      · rintro rfl
        rw [eq_bot_of_head hhead] at ha
        simp [unionParts] at ha
    exact ⟨u, by simp [hu], h⟩
  · obtain ⟨ms', rfl⟩ := eq_union_of_head hhead.symm
    exact exists_part_of_beq h ha

/-- What equal types contribute to an intersection is equal. -/
theorem covered_interParts {t u : Ty} (h : (t == u) = true) :
    Covered t.interParts u.interParts := by
  intro a ha
  have hhead := head_eq_of_beq h
  rcases mem_interParts ha with ⟨rfl, hne⟩ | ⟨ms, rfl, ha⟩
  · have hu : u.interParts = [u] := by
      apply interParts_eq_of_ne
      · rintro ms rfl
        obtain ⟨ms', rfl⟩ := eq_inter_of_head hhead
        exact hne ms' rfl
      · rintro rfl
        rw [eq_top_of_head hhead] at ha
        simp [interParts] at ha
    exact ⟨u, by simp [hu], h⟩
  · obtain ⟨ms', rfl⟩ := eq_inter_of_head hhead.symm
    exact exists_part_of_beq h ha

/-- Taking parts keeps types covered, if equal types have equal parts. -/
theorem Covered.flatMap {f : Ty → List Ty} {ts us : List Ty} (h : Covered ts us)
    (hf : ∀ t u : Ty, (t == u) = true → Covered (f t) (f u)) :
    Covered (ts.flatMap f) (us.flatMap f) := by
  intro a ha
  obtain ⟨t, ht, hat⟩ := List.mem_flatMap.mp ha
  obtain ⟨u, hu, htu⟩ := h t ht
  obtain ⟨b, hb, hab⟩ := hf t u htu a hat
  exact ⟨b, List.mem_flatMap.mpr ⟨u, hu, hb⟩, hab⟩

/-- The parts in a union are well formed if the type is. -/
theorem WellFormed.unionParts {t u : Ty} (h : t.WellFormed) (hu : u ∈ t.unionParts) :
    u.WellFormed := by
  rcases mem_unionParts hu with ⟨rfl, -⟩ | ⟨ms, rfl, hu⟩
  · exact h
  · exact h.part hu

/-- So are those in an intersection. -/
theorem WellFormed.interParts {t u : Ty} (h : t.WellFormed) (hu : u ∈ t.interParts) :
    u.WellFormed := by
  rcases mem_interParts hu with ⟨rfl, -⟩ | ⟨ms, rfl, hu⟩
  · exact h
  · exact h.part hu

section Distinct

variable {ts us : List Ty} (hts : ∀ t ∈ ts, t.WellFormed) (hus : ∀ u ∈ us, u.WellFormed)

include hts hus in
/-- Distinct types are covered if those given are. -/
theorem Covered.distinct (h : Covered ts us) : Covered (distinct ts) (distinct us) := by
  intro a ha
  have hat := mem_of_mem_distinct ha
  obtain ⟨b, hb, hab⟩ := h a hat
  obtain ⟨c, hc, hcb⟩ := exists_mem_distinct hb
  have hcu := hus c (mem_of_mem_distinct hc)
  exact ⟨c, hc, beq_trans (hts a hat) (hus b hb) hcu hab (beq_symm hcu (hus b hb) hcb)⟩

include hts hus in
/-- Distinct types are not more than the types they are equal to. -/
theorem Covered.length_le (h : Covered ts us) (hd : ts.Pairwise fun a b => (a == b) = false) :
    ts.length ≤ us.length := by
  refine length_le_of_rel h (hd.imp_of_mem ?_)
  intro a a' ha ha' hne b hb hab hab'
  have haa' := beq_trans (hts a ha) (hus b hb) (hts a' ha') hab
    (beq_symm (hts a' ha') (hus b hb) hab')
  rw [hne] at haa'
  exact Bool.false_ne_true haa'

include hts hus in
/-- Lists that cover each other have as many distinct types. -/
theorem length_distinct_eq (h : Covered ts us) (h' : Covered us ts) :
    (distinct ts).length = (distinct us).length := by
  have hts' : ∀ t ∈ distinct ts, t.WellFormed := fun t ht => hts t (mem_of_mem_distinct ht)
  have hus' : ∀ u ∈ distinct us, u.WellFormed := fun u hu => hus u (mem_of_mem_distinct hu)
  apply Nat.le_antisymm
  · exact Covered.length_le hts' hus' (h.distinct hts hus) (pairwise_distinct ts)
  · exact Covered.length_le hus' hts' (h'.distinct hus hts) (pairwise_distinct us)

end Distinct

/-- What covers the untyped type has it. -/
theorem any_isUntyped_of_covered {ts us : List Ty} (h : Covered ts us)
    (ht : ts.any isUntyped = true) : us.any isUntyped = true := by
  obtain ⟨a, ha, hun⟩ := List.any_eq_true.mp ht
  obtain ⟨b, hb, hab⟩ := h a ha
  rw [isUntyped_iff] at hun
  have hb' : b = untyped := eq_untyped_of_head (hun ▸ (head_eq_of_beq hab).symm)
  exact List.any_eq_true.mpr ⟨b, hb, isUntyped_iff.mpr hb'⟩

/-- Lists of equal length that are equal type by type, in any order, collapse to equal unions. -/
theorem beq_collapseUnion {ts us : List Ty} (hlen : ts.length = us.length) (h : Covered ts us) :
    (collapseUnion ts == collapseUnion us) = true := by
  rcases collapseUnion_cases ts with ⟨rfl, ht⟩ | ⟨t, rfl, ht⟩ | ⟨hge, ht⟩
  · rw [List.length_eq_zero_iff.mp hlen.symm]
    exact beq_refl _
  · obtain ⟨u, rfl⟩ := List.length_eq_one_iff.mp hlen.symm
    simpa [Covered, collapseUnion] using h
  · have hu : collapseUnion us = union us := by
      rcases collapseUnion_cases us with ⟨rfl, -⟩ | ⟨u, rfl, -⟩ | ⟨-, hu⟩
      · rw [List.length_nil] at hlen
        omega
      · rw [List.length_singleton] at hlen
        omega
      · exact hu
    rw [ht, hu, beq_iff_of_isSet rfl]
    exact ⟨rfl, hlen, h⟩

/-- Lists of equal length that are equal type by type, in any order, collapse to equal
intersections. -/
theorem beq_collapseInter {ts us : List Ty} (hlen : ts.length = us.length) (h : Covered ts us) :
    (collapseInter ts == collapseInter us) = true := by
  rcases collapseInter_cases ts with ⟨rfl, ht⟩ | ⟨t, rfl, ht⟩ | ⟨hge, ht⟩
  · rw [List.length_eq_zero_iff.mp hlen.symm]
    exact beq_refl _
  · obtain ⟨u, rfl⟩ := List.length_eq_one_iff.mp hlen.symm
    simpa [Covered, collapseInter] using h
  · have hu : collapseInter us = inter us := by
      rcases collapseInter_cases us with ⟨rfl, -⟩ | ⟨u, rfl, -⟩ | ⟨-, hu⟩
      · rw [List.length_nil] at hlen
        omega
      · rw [List.length_singleton] at hlen
        omega
      · exact hu
    rw [ht, hu, beq_iff_of_isSet rfl]
    exact ⟨rfl, hlen, h⟩

section Congruence

variable {ts us : List Ty}

/-- Parts of well-formed types are well formed, if those of each are. -/
theorem WellFormed.of_mem_flatMap {f : Ty → List Ty}
    (hf : ∀ t u : Ty, t.WellFormed → u ∈ f t → u.WellFormed)
    (hts : ∀ t ∈ ts, t.WellFormed) : ∀ u ∈ ts.flatMap f, u.WellFormed := by
  intro u hu
  obtain ⟨t, ht, hut⟩ := List.mem_flatMap.mp hu
  exact hf t u (hts t ht) hut

variable (hts : ∀ t ∈ ts, t.WellFormed) (hus : ∀ u ∈ us, u.WellFormed)

include hts hus

/-- Lists that contribute equal members have equal unions. -/
theorem beq_unionOf_of_covered (h : Covered (ts.flatMap unionParts) (us.flatMap unionParts))
    (h' : Covered (us.flatMap unionParts) (ts.flatMap unionParts)) :
    (unionOf ts == unionOf us) = true := by
  have hts' := WellFormed.of_mem_flatMap (fun _ _ => WellFormed.unionParts) hts
  have hus' := WellFormed.of_mem_flatMap (fun _ _ => WellFormed.unionParts) hus
  have hcov := h.distinct hts' hus'
  have hcov' := h'.distinct hus' hts'
  rw [unionOf_eq, unionOf_eq]
  by_cases hun : (distinct (ts.flatMap unionParts)).any isUntyped = true
  · rw [if_pos hun, if_pos (any_isUntyped_of_covered hcov hun)]
    exact beq_refl _
  · rw [if_neg hun, if_neg fun hun' => hun (any_isUntyped_of_covered hcov' hun')]
    exact beq_collapseUnion (length_distinct_eq hts' hus' h h') hcov

/-- Lists that contribute equal members have equal intersections. -/
theorem beq_interOf_of_covered (h : Covered (ts.flatMap interParts) (us.flatMap interParts))
    (h' : Covered (us.flatMap interParts) (ts.flatMap interParts)) :
    (interOf ts == interOf us) = true := by
  have hts' := WellFormed.of_mem_flatMap (fun _ _ => WellFormed.interParts) hts
  have hus' := WellFormed.of_mem_flatMap (fun _ _ => WellFormed.interParts) hus
  rw [interOf_eq, interOf_eq]
  exact beq_collapseInter (length_distinct_eq hts' hus' h h') (h.distinct hts' hus')

variable (h : Covered ts us) (h' : Covered us ts)

include h h'

/-- Lists with equal members have equal unions. -/
theorem beq_unionOf : (unionOf ts == unionOf us) = true :=
  beq_unionOf_of_covered hts hus (h.flatMap fun _ _ => covered_unionParts)
    (h'.flatMap fun _ _ => covered_unionParts)

/-- Lists with equal members have equal intersections. -/
theorem beq_interOf : (interOf ts == interOf us) = true :=
  beq_interOf_of_covered hts hus (h.flatMap fun _ _ => covered_interParts)
    (h'.flatMap fun _ _ => covered_interParts)

end Congruence

/-! ## What unions and intersections mention -/

/-- A type mentions what its parts in a union mention. -/
theorem mem_occurrences_unionParts {t : Ty} {x : FreeVar} :
    x ∈ t.occurrences ↔ ∃ u ∈ t.unionParts, x ∈ u.occurrences := by
  cases t <;> simp [unionParts, occurrences, occurrencesList_eq_flatMap]

/-- It also mentions what its parts in an intersection mention. -/
theorem mem_occurrences_interParts {t : Ty} {x : FreeVar} :
    x ∈ t.occurrences ↔ ∃ u ∈ t.interParts, x ∈ u.occurrences := by
  cases t <;> simp [interParts, occurrences, occurrencesList_eq_flatMap]

/-- A union mentions what its members mention. -/
theorem mem_occurrences_collapseUnion {ms : List Ty} {x : FreeVar} :
    x ∈ (collapseUnion ms).occurrences ↔ ∃ m ∈ ms, x ∈ m.occurrences := by
  rcases collapseUnion_cases ms with ⟨rfl, hc⟩ | ⟨m, rfl, hc⟩ | ⟨-, hc⟩
  · simp [hc, occurrences]
  · simp [hc]
  · simp [hc, occurrences, occurrencesList_eq_flatMap]

/-- So does an intersection. -/
theorem mem_occurrences_collapseInter {ms : List Ty} {x : FreeVar} :
    x ∈ (collapseInter ms).occurrences ↔ ∃ m ∈ ms, x ∈ m.occurrences := by
  rcases collapseInter_cases ms with ⟨rfl, hc⟩ | ⟨m, rfl, hc⟩ | ⟨-, hc⟩
  · simp [hc, occurrences]
  · simp [hc]
  · simp [hc, occurrences, occurrencesList_eq_flatMap]

/-- Parts of types mention what the types mention, if those of each do. -/
theorem exists_mem_flatMap {f : Ty → List Ty} {ts : List Ty} {x : FreeVar}
    (hf : ∀ t : Ty, x ∈ t.occurrences ↔ ∃ u ∈ f t, x ∈ u.occurrences) :
    (∃ u ∈ ts.flatMap f, x ∈ u.occurrences) ↔ ∃ t ∈ ts, x ∈ t.occurrences := by
  constructor
  · rintro ⟨u, hu, hx⟩
    obtain ⟨t, ht, hut⟩ := List.mem_flatMap.mp hu
    exact ⟨t, ht, (hf t).mpr ⟨u, hut, hx⟩⟩
  · rintro ⟨t, ht, hx⟩
    obtain ⟨u, hut, hx⟩ := (hf t).mp hx
    exact ⟨u, List.mem_flatMap.mpr ⟨t, ht, hut⟩, hx⟩

/-- A union mentions nothing that its types do not mention. -/
theorem mem_occurrences_of_unionOf {ts : List Ty} {x : FreeVar}
    (h : x ∈ (unionOf ts).occurrences) : ∃ t ∈ ts, x ∈ t.occurrences := by
  rw [unionOf_eq] at h
  split at h
  · simp [occurrences] at h
  · obtain ⟨m, hm, hx⟩ := mem_occurrences_collapseUnion.mp h
    rw [← exists_mem_flatMap fun _ => mem_occurrences_unionParts]
    exact ⟨m, mem_of_mem_distinct hm, hx⟩

/-- An intersection mentions nothing that its types do not mention. -/
theorem mem_occurrences_of_interOf {ts : List Ty} {x : FreeVar}
    (h : x ∈ (interOf ts).occurrences) : ∃ t ∈ ts, x ∈ t.occurrences := by
  rw [interOf_eq] at h
  obtain ⟨m, hm, hx⟩ := mem_occurrences_collapseInter.mp h
  rw [← exists_mem_flatMap fun _ => mem_occurrences_interParts]
  exact ⟨m, mem_of_mem_distinct hm, hx⟩

/-- Among well-formed types the ones that are dropped mention what those that are kept mention. -/
theorem exists_mem_distinct_occurrences {ts : List Ty} {x : FreeVar}
    (hts : ∀ t ∈ ts, t.WellFormed) (h : ∃ t ∈ ts, x ∈ t.occurrences) :
    ∃ m ∈ distinct ts, x ∈ m.occurrences := by
  obtain ⟨t, ht, hx⟩ := h
  obtain ⟨m, hm, hmt⟩ := exists_mem_distinct ht
  have htm := beq_symm (hts m (mem_of_mem_distinct hm)) (hts t ht) hmt
  exact ⟨m, hm, mem_occurrences_of_beq htm hx⟩

/-- A union of well-formed types mentions what they mention, unless `untyped` absorbs it. -/
theorem mem_occurrences_unionOf {ts : List Ty} {x : FreeVar} (hts : ∀ t ∈ ts, t.WellFormed)
    (hun : ∀ t ∈ ts, untyped ∉ t.unionParts) :
    x ∈ (unionOf ts).occurrences ↔ ∃ t ∈ ts, x ∈ t.occurrences := by
  refine ⟨mem_occurrences_of_unionOf, fun h => ?_⟩
  have hwf := WellFormed.of_mem_flatMap (fun _ _ => WellFormed.unionParts) hts
  have hnot : ¬ (distinct (ts.flatMap unionParts)).any isUntyped = true := by
    intro hany
    obtain ⟨m, hm, hmu⟩ := List.any_eq_true.mp hany
    obtain ⟨t, ht, hmt⟩ := List.mem_flatMap.mp (mem_of_mem_distinct hm)
    exact hun t ht (isUntyped_iff.mp hmu ▸ hmt)
  rw [unionOf_eq, if_neg hnot, mem_occurrences_collapseUnion]
  exact exists_mem_distinct_occurrences hwf
    ((exists_mem_flatMap fun _ => mem_occurrences_unionParts).mpr h)

/-- An intersection of well-formed types mentions what they mention. -/
theorem mem_occurrences_interOf {ts : List Ty} {x : FreeVar} (hts : ∀ t ∈ ts, t.WellFormed) :
    x ∈ (interOf ts).occurrences ↔ ∃ t ∈ ts, x ∈ t.occurrences := by
  refine ⟨mem_occurrences_of_interOf, fun h => ?_⟩
  have hwf := WellFormed.of_mem_flatMap (fun _ _ => WellFormed.interParts) hts
  rw [interOf_eq, mem_occurrences_collapseInter]
  exact exists_mem_distinct_occurrences hwf
    ((exists_mem_flatMap fun _ => mem_occurrences_interParts).mpr h)

end Ty
end TypeShape
