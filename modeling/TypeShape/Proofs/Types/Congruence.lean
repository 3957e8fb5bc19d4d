import TypeShape.Proofs.Types.Flattening
import TypeShape.Proofs.Types.Signatures

/-!
# Equal types under a substitution

Substitution respects the equality of types, and it commutes with the construction of unions and
intersections: replacing in what they are made of and joining the results gives, up to equality, the
replaced union or intersection.

Main results:

- Theorems `Subst.beq_replace_of_beq` and `Subst.beq_apply_of_beq`: equal types stay equal.
- Theorems `Subst.beq_replace_unionOf` and `Subst.beq_replace_interOf`: replacement and joining
  commute.
-/

namespace TypeShape

namespace Ty

/-- Equal types mention the same placeholders and variables. -/
theorem mem_occurrences_iff_of_beq {t u : Ty} (ht : t.WellFormed) (hu : u.WellFormed)
    (h : (t == u) = true) (x : FreeVar) : x ∈ t.occurrences ↔ x ∈ u.occurrences :=
  ⟨mem_occurrences_of_beq h, mem_occurrences_of_beq (beq_symm ht hu h)⟩

/-- The head of a variable or placeholder determines it. -/
theorem eq_toTy_of_head {t : Ty} {x : FreeVar} (h : t.head = x.toTy.head) : t = x.toTy := by
  cases x <;> cases t <;> simp_all [head, FreeVar.toTy]

/-- The head tells whether a type is rigid. -/
theorem isRigid_eq_of_head_eq {t u : Ty} (h : t.head = u.head) : t.isRigid = u.isRigid := by
  cases t <;> cases u <;> simp_all [isRigid, head]

/-- A function that respects equality respects covering. -/
theorem Covered.map {f : Ty → Ty} {ts us : List Ty} (h : Covered ts us)
    (hf : ∀ t ∈ ts, ∀ u ∈ us, (t == u) = true → (f t == f u) = true) :
    Covered (ts.map f) (us.map f) := by
  intro a ha
  obtain ⟨t, ht, rfl⟩ := List.mem_map.mp ha
  obtain ⟨u, hu, htu⟩ := h t ht
  exact ⟨f u, List.mem_map_of_mem hu, hf t ht u hu htu⟩

end Ty

namespace Subst

variable {s : Subst}

/-! ## Equal types -/

/-- Replacing in equal types gives equal types. -/
theorem beq_replace_of_beq {t u : Ty} (ht : t.WellFormed) (hu : u.WellFormed)
    (himage : ∀ x ∈ t.occurrences, (s.imageOf x).WellFormed) (h : (t == u) = true) :
    (s.replace t == s.replace u) = true := by
  induction t using Ty.inductionOnParts generalizing u with
  | step t ih =>
    have hhead := Ty.head_eq_of_beq h
    have himage' : ∀ x ∈ u.occurrences, (s.imageOf x).WellFormed :=
      fun x hx => himage x ((Ty.mem_occurrences_iff_of_beq ht hu h x).mpr hx)
    have hpart : ∀ a ∈ t.parts, ∀ b ∈ u.parts, (a == b) = true →
        (s.replace a == s.replace b) = true := fun a ha b hb hab =>
      ih a ha (ht.part ha) (hu.part hb)
        (fun x hx => himage x (Ty.mem_occurrences_of_part ha hx)) hab
    have hleft : ∀ v ∈ t.parts.map s.replace, v.WellFormed := by
      intro v hv
      obtain ⟨a, ha, rfl⟩ := List.mem_map.mp hv
      exact wellFormed_replace (ht.part ha) fun x hx => himage x (Ty.mem_occurrences_of_part ha hx)
    have hright : ∀ v ∈ u.parts.map s.replace, v.WellFormed := by
      intro v hv
      obtain ⟨b, hb, rfl⟩ := List.mem_map.mp hv
      exact wellFormed_replace (hu.part hb) fun x hx => himage' x (Ty.mem_occurrences_of_part hb hx)
    have hcov : Ty.Covered (t.parts.map s.replace) (u.parts.map s.replace) :=
      Ty.Covered.map (fun _ => Ty.exists_part_of_beq h) hpart
    have hcov' : Ty.Covered (u.parts.map s.replace) (t.parts.map s.replace) := by
      refine Ty.Covered.map (fun _ => Ty.exists_part_of_beq (Ty.beq_symm ht hu h)) ?_
      intro b hb a ha hba
      have hab := hpart a ha b hb (Ty.beq_symm (hu.part hb) (ht.part ha) hba)
      exact Ty.beq_symm (hleft _ (List.mem_map_of_mem ha)) (hright _ (List.mem_map_of_mem hb)) hab
    rcases t.form_cases with ⟨x, rfl⟩ | ⟨ms, rfl⟩ | ⟨ms, rfl⟩ | hr
    · rw [Ty.eq_toTy_of_head hhead.symm]
      exact Ty.beq_refl _
    · obtain ⟨ms', rfl⟩ := Ty.eq_union_of_head hhead.symm
      rw [replace_union, replace_union]
      exact Ty.beq_unionOf hleft hright hcov hcov'
    · obtain ⟨ms', rfl⟩ := Ty.eq_inter_of_head hhead.symm
      rw [replace_inter, replace_inter]
      exact Ty.beq_interOf hleft hright hcov hcov'
    · have hr' : u.isRigid = true := (Ty.isRigid_eq_of_head_eq hhead).symm.trans hr
      obtain ⟨-, hforall⟩ := (Ty.beq_iff_of_not_isSet (Ty.isSet_eq_false_of_isRigid hr)).mp h
      rw [Ty.beq_iff_of_not_isSet (Ty.isSet_eq_false_of_isRigid (isRigid_replace hr)),
        head_replace hr, head_replace hr', parts_replace hr, parts_replace hr']
      refine ⟨hhead, ?_⟩
      rw [List.forall₂_map_left_iff, List.forall₂_map_right_iff]
      rw [List.forall₂_iff_get] at hforall ⊢
      exact ⟨hforall.1, fun i hi hi' =>
        hpart _ (List.get_mem _ ⟨i, hi⟩) _ (List.get_mem _ ⟨i, hi'⟩) (hforall.2 i hi hi')⟩

/-- Equal types have equal images. -/
theorem beq_apply_of_beq {t u : Ty} (ht : t.WellFormed) (hu : u.WellFormed)
    (himage : ∀ x ∈ t.occurrences, (s.imageOf x).WellFormed) (h : (t == u) = true) :
    (s.apply t == s.apply u) = true := by
  unfold apply
  split
  · exact h
  · exact beq_replace_of_beq ht hu himage h

/-! ## Joining and replacing

Replacement is carried out on a union that was built, or on the types that it was built from.  The
second may flatten and drop more, but in both cases the same members are left. -/

section Joining

variable (himage : ∀ x, (s.imageOf x).Normal)

include himage

/-- Replacement in types in normal form gives types in normal form. -/
theorem normal_map_replace {ts : List Ty} (hts : ∀ t ∈ ts, t.Normal) :
    ∀ u ∈ ts.map s.replace, u.Normal := by
  intro u hu
  obtain ⟨t, ht, rfl⟩ := List.mem_map.mp hu
  exact normal_replace (hts t ht) fun x _ => himage x

/-- Replacement respects covering. -/
theorem covered_map_replace {ts us : List Ty} (hts : ∀ t ∈ ts, t.Normal) (hus : ∀ u ∈ us, u.Normal)
    (h : Ty.Covered ts us) : Ty.Covered (ts.map s.replace) (us.map s.replace) :=
  h.map fun t ht u hu => beq_replace_of_beq (hts t ht).wellFormed (hus u hu).wellFormed
    fun x _ => (himage x).wellFormed

/-- Replacement and the collapse of a union commute. -/
theorem replace_collapseUnion {ms : List Ty} (hms : ∀ m ∈ ms, m.Normal) :
    s.replace (Ty.collapseUnion ms) = Ty.unionOf (ms.map s.replace) := by
  rcases Ty.collapseUnion_cases ms with ⟨rfl, hc⟩ | ⟨m, rfl, hc⟩ | ⟨-, hc⟩
  · rw [hc]
    rfl
  · rw [hc, List.map_singleton, Ty.unionOf_singleton]
    exact normal_replace (hms m List.mem_cons_self) fun x _ => himage x
  · rw [hc, replace_union]

/-- A type becomes the union of what its contributions become. -/
theorem replace_eq_unionOf {t : Ty} (ht : t.Normal) :
    s.replace t = Ty.unionOf (t.unionParts.map s.replace) := by
  have hnormal : (s.replace t).Normal := normal_replace ht fun x _ => himage x
  cases t with
  | union ms => exact replace_union s ms
  | bot => rfl
  | _ => exact (Ty.unionOf_singleton hnormal).symm

/-- A replaced union is equal to the union of the replaced types. -/
theorem beq_replace_unionOf {ts : List Ty} (hts : ∀ t ∈ ts, t.Normal) :
    (s.replace (Ty.unionOf ts) == Ty.unionOf (ts.map s.replace)) = true := by
  by_cases hun : Ty.untyped ∈ ts
  · have hmap : Ty.untyped ∈ ts.map s.replace := List.mem_map.mpr ⟨.untyped, hun, rfl⟩
    rw [Ty.unionOf_of_mem_untyped hun, Ty.unionOf_of_mem_untyped hmap]
    exact Ty.beq_refl .untyped
  · have hparts : ∀ u ∈ ts.flatMap Ty.unionParts, u.Normal := by
      intro u hu
      obtain ⟨t, ht, hut⟩ := List.mem_flatMap.mp hu
      exact Ty.all_of_mem_unionParts hut (hts t ht)
    have hdistinct : ∀ u ∈ Ty.distinct (ts.flatMap Ty.unionParts), u.Normal :=
      fun u hu => hparts u (Ty.mem_of_mem_distinct hu)
    have hleft := normal_map_replace himage hdistinct
    have hmiddle := normal_map_replace himage hparts
    -- Dropping equal contributions before or after the replacement makes no difference.
    have hdrop : (Ty.unionOf ((Ty.distinct (ts.flatMap Ty.unionParts)).map s.replace) ==
        Ty.unionOf ((ts.flatMap Ty.unionParts).map s.replace)) = true :=
      Ty.beq_unionOf (fun u hu => (hleft u hu).wellFormed) (fun u hu => (hmiddle u hu).wellFormed)
        (covered_map_replace himage hdistinct hparts (Ty.covered_distinct _))
        (covered_map_replace himage hparts hdistinct
          (Ty.covered_of_distinct fun u hu => (hparts u hu).wellFormed))
    have hflatten := Ty.beq_unionOf_flatMap (f := fun t => t.unionParts.map s.replace)
      fun t ht => normal_map_replace himage fun u hu => Ty.all_of_mem_unionParts hu (hts t ht)
    rw [← List.map_congr_left fun t ht => replace_eq_unionOf himage (hts t ht),
      ← List.map_flatMap] at hflatten
    rw [Ty.unionOf_eq_collapseUnion hts hun, replace_collapseUnion himage hdistinct]
    have hright := normal_map_replace himage hts
    have hwf := fun {ts : List Ty} (h : ∀ t ∈ ts, t.Normal) =>
      (Ty.normal_unionOf h).wellFormed
    exact Ty.beq_trans (hwf hleft) (hwf hmiddle) (hwf hright) hdrop
      (Ty.beq_symm (hwf hright) (hwf hmiddle) hflatten)

/-- Replacement and the collapse of an intersection commute. -/
theorem replace_collapseInter {ms : List Ty} (hms : ∀ m ∈ ms, m.Normal) :
    s.replace (Ty.collapseInter ms) = Ty.interOf (ms.map s.replace) := by
  rcases Ty.collapseInter_cases ms with ⟨rfl, hc⟩ | ⟨m, rfl, hc⟩ | ⟨-, hc⟩
  · rw [hc]
    rfl
  · rw [hc, List.map_singleton, Ty.interOf_singleton]
    exact normal_replace (hms m List.mem_cons_self) fun x _ => himage x
  · rw [hc, replace_inter]

/-- A type becomes the intersection of what its contributions become. -/
theorem replace_eq_interOf {t : Ty} (ht : t.Normal) :
    s.replace t = Ty.interOf (t.interParts.map s.replace) := by
  have hnormal : (s.replace t).Normal := normal_replace ht fun x _ => himage x
  cases t with
  | inter ms => exact replace_inter s ms
  | top => rfl
  | _ => exact (Ty.interOf_singleton hnormal).symm

/-- A replaced intersection is equal to the intersection of the replaced types. -/
theorem beq_replace_interOf {ts : List Ty} (hts : ∀ t ∈ ts, t.Normal) :
    (s.replace (Ty.interOf ts) == Ty.interOf (ts.map s.replace)) = true := by
  have hparts : ∀ u ∈ ts.flatMap Ty.interParts, u.Normal := by
    intro u hu
    obtain ⟨t, ht, hut⟩ := List.mem_flatMap.mp hu
    exact Ty.all_of_mem_interParts hut (hts t ht)
  have hdistinct : ∀ u ∈ Ty.distinct (ts.flatMap Ty.interParts), u.Normal :=
    fun u hu => hparts u (Ty.mem_of_mem_distinct hu)
  have hleft := normal_map_replace himage hdistinct
  have hmiddle := normal_map_replace himage hparts
  have hdrop : (Ty.interOf ((Ty.distinct (ts.flatMap Ty.interParts)).map s.replace) ==
      Ty.interOf ((ts.flatMap Ty.interParts).map s.replace)) = true :=
    Ty.beq_interOf (fun u hu => (hleft u hu).wellFormed) (fun u hu => (hmiddle u hu).wellFormed)
      (covered_map_replace himage hdistinct hparts (Ty.covered_distinct _))
      (covered_map_replace himage hparts hdistinct
        (Ty.covered_of_distinct fun u hu => (hparts u hu).wellFormed))
  have hflatten := Ty.beq_interOf_flatMap (f := fun t => t.interParts.map s.replace)
    fun t ht => normal_map_replace himage fun u hu => Ty.all_of_mem_interParts hu (hts t ht)
  rw [← List.map_congr_left fun t ht => replace_eq_interOf himage (hts t ht),
    ← List.map_flatMap] at hflatten
  rw [Ty.interOf_eq, replace_collapseInter himage hdistinct]
  have hright := normal_map_replace himage hts
  have hwf := fun {ts : List Ty} (h : ∀ t ∈ ts, t.Normal) =>
    (Ty.normal_interOf h).wellFormed
  exact Ty.beq_trans (hwf hleft) (hwf hmiddle) (hwf hright) hdrop
    (Ty.beq_symm (hwf hright) (hwf hmiddle) hflatten)

end Joining

end Subst
end TypeShape
