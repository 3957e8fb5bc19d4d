import TypeShape.Overload.Merge
import TypeShape.Proofs.Types.Overloads

/-!
# Open placeholders

Which placeholders a type in normal form still mentions.  A substitution closes those that it
replaces by closed types; merging overloads opens none.

Main results:

- Theorem `Ty.OnlyOpen.apply`: what is open after a substitution.
- Theorem `Ty.Closed.apply_eq_self`: anchors do not change a closed type.
- Theorem `Overload.Holds.merge?`: a merged overload has only types that are made of those of its
  parts, so that it mentions what they mention.
-/

namespace TypeShape

variable {allowed allowed' : Slot → Prop}

/-! ## Types -/

/-- The type is in normal form and mentions allowed placeholders only. -/
structure Ty.OnlyOpen (allowed : Slot → Prop) (t : Ty) : Prop where
  normal : t.Normal
  slots : ∀ p, FreeVar.slot p ∈ t.occurrences → allowed p

/-- The type is in normal form and mentions no placeholder. -/
abbrev Ty.Closed (t : Ty) : Prop :=
  t.OnlyOpen fun _ => False

namespace Ty

/-- A closed type is one in normal form without placeholders. -/
theorem closed_iff {t : Ty} : t.Closed ↔ t.Normal ∧ t.mentionsSlot = false := by
  rw [mentionsSlot_eq_false_iff]
  exact ⟨fun h => ⟨h.normal, h.slots⟩, fun h => ⟨h.1, h.2⟩⟩

instance (t : Ty) : Decidable t.Closed :=
  decidable_of_iff _ closed_iff.symm

namespace OnlyOpen

/-- More placeholders may be allowed. -/
theorem mono {t : Ty} (h : t.OnlyOpen allowed) (hall : ∀ p, allowed p → allowed' p) :
    t.OnlyOpen allowed' :=
  ⟨h.normal, fun p hp => hall p (h.slots p hp)⟩

/-- The parts of a type have open placeholders that the type has. -/
theorem part {t u : Ty} (h : t.OnlyOpen allowed) (hu : u ∈ t.parts) : u.OnlyOpen allowed :=
  ⟨h.normal.part hu, fun p hp => h.slots p (mem_occurrences_of_part hu hp)⟩

/-- A rigid type mentions what its parts mention. -/
theorem of_parts {t : Ty} (ht : t.isRigid = true) (h : ∀ u ∈ t.parts, u.OnlyOpen allowed) :
    t.OnlyOpen allowed where
  normal := by
    have hhere : t.normalHere = true := by cases t <;> simp_all [isRigid, normalHere]
    exact all_iff.mpr ⟨hhere, fun u hu => (h u hu).normal⟩
  slots p hp := by
    obtain ⟨u, hu, hpu⟩ := (mem_occurrences_of_isRigid ht).mp hp
    exact (h u hu).slots p hpu

/-- A variable has no open placeholder. -/
theorem var (x : String) : (Ty.var x).OnlyOpen allowed :=
  ⟨rfl, by simp [occurrences]⟩

/-- A literal has none either. -/
theorem literal (value : Literal) : (Ty.literal value).OnlyOpen allowed :=
  .of_parts rfl (by simp [parts])

/-- A placeholder that is allowed may stand alone. -/
theorem slot {p : Slot} (hp : allowed p) : (Ty.slot p).OnlyOpen allowed :=
  ⟨rfl, by simpa [occurrences] using hp⟩

/-- A union has the open placeholders of its members. -/
theorem unionOf {ts : List Ty} (h : ∀ t ∈ ts, t.OnlyOpen allowed) :
    (unionOf ts).OnlyOpen allowed where
  normal := normal_unionOf fun t ht => (h t ht).normal
  slots p hp := by
    obtain ⟨t, ht, hpt⟩ := mem_occurrences_of_unionOf hp
    exact (h t ht).slots p hpt

/-- So has an intersection. -/
theorem interOf {ts : List Ty} (h : ∀ t ∈ ts, t.OnlyOpen allowed) :
    (interOf ts).OnlyOpen allowed where
  normal := normal_interOf fun t ht => (h t ht).normal
  slots p hp := by
    obtain ⟨t, ht, hpt⟩ := mem_occurrences_of_interOf hp
    exact (h t ht).slots p hpt

/-- After a substitution only those placeholders are open that it brings in or leaves. -/
theorem apply {s : Subst} {t : Ty} (h : t.OnlyOpen allowed)
    (hslot : ∀ p, allowed p → (s.imageOf (.slot p)).OnlyOpen allowed')
    (hvar : ∀ x, (s.imageOf (.var x)).OnlyOpen allowed') : (s.apply t).OnlyOpen allowed' := by
  have himage : ∀ x ∈ t.occurrences, (s.imageOf x).OnlyOpen allowed' := by
    intro x hx
    cases x with
    | slot p => exact hslot p (h.slots p hx)
    | var x => exact hvar x
  refine ⟨Subst.normal_apply h.normal fun x hx => (himage x hx).normal, fun p hp => ?_⟩
  obtain ⟨x, hx, hpx⟩ := Subst.mem_occurrences_of_apply hp
  exact (himage x hx).slots p hpx

end OnlyOpen

/-- Anchors do not change a closed type. -/
theorem Closed.apply_eq_self {s : Subst} {t : Ty} (h : t.Closed) (hs : ∀ x, s.get? x = none) :
    s.apply t = t := by
  refine Subst.apply_eq_self h.normal fun x hx => ?_
  cases x with
  | slot p => exact (h.slots p hx).elim
  | var x => simp [Subst.imageOf, Subst.image?, hs, FreeVar.toTy]

end Ty

/-! ## Properties that joining keeps -/

/-- A property of variables that passes from parts to rigid types, and from types to their unions
and intersections. -/
structure Ty.Closes (P : Ty → Prop) : Prop where
  var : ∀ x, P (.var x)
  rigid : ∀ {t : Ty}, t.isRigid = true → (∀ u ∈ t.parts, P u) → P t
  unionOf : ∀ {ts : List Ty}, (∀ t ∈ ts, P t) → P (Ty.unionOf ts)
  interOf : ∀ {ts : List Ty}, (∀ t ∈ ts, P t) → P (Ty.interOf ts)

/-- A literal has every such property. -/
theorem Ty.Closes.literal {P : Ty → Prop} (hP : Ty.Closes P) (value : Literal) :
    P (.literal value) :=
  hP.rigid rfl (by simp [Ty.parts])

/-- Mentioning allowed placeholders only is such a property. -/
theorem Ty.closes_onlyOpen : Ty.Closes (Ty.OnlyOpen allowed) :=
  ⟨.var, .of_parts, .unionOf, .interOf⟩

/-! ## Overloads -/

/-- All types of an overload have a property. -/
def Overload.Holds (P : Ty → Prop) (o : Overload) : Prop :=
  ∀ t ∈ o.types, P t

/-- The types of an overload mention allowed placeholders only. -/
abbrev Overload.OnlyOpen (allowed : Slot → Prop) (o : Overload) : Prop :=
  o.Holds (Ty.OnlyOpen allowed)

/-- An overload is in normal form if nothing is asked of its placeholders. -/
theorem Overload.normal_iff {o : Overload} : o.Normal ↔ o.OnlyOpen fun _ => True :=
  forall₂_congr fun _ _ => ⟨fun h => ⟨h, fun _ _ => trivial⟩, fun h => h.normal⟩

namespace Params

variable {α β γ : Type} {f : α → β → γ} {c : γ}

/-- What comes from zipping two lists comes from an element of each. -/
theorem exists_of_mem_zipWith {as : List α} {bs : List β} (h : c ∈ List.zipWith f as bs) :
    ∃ a ∈ as, ∃ b ∈ bs, c = f a b := by
  rw [← List.map_uncurry_zip_eq_zipWith] at h
  obtain ⟨⟨a, b⟩, hab, rfl⟩ := List.mem_map.mp h
  obtain ⟨ha, hb⟩ := List.of_mem_zip hab
  exact ⟨a, ha, b, hb, rfl⟩

/-- The same for optional values. -/
theorem exists_of_mem_zipOption {a? : Option α} {b? : Option β}
    (h : c ∈ (zipOption f a? b?).toList) : ∃ a ∈ a?.toList, ∃ b ∈ b?.toList, c = f a b := by
  cases a? with
  | none => simp [zipOption] at h
  | some a =>
    cases b? with
    | none => simp [zipOption] at h
    | some b => exact ⟨a, by simp, b, by simp, by simpa [zipOption] using h⟩

/-- The same for keywords. -/
theorem exists_of_mem_zipKeywords {as : List (String × α)} {bs : List (String × β)}
    (h : c ∈ (zipKeywords f as bs).map (·.2)) :
    ∃ a ∈ as.map (·.2), ∃ b ∈ bs.map (·.2), c = f a b := by
  obtain ⟨e, he, rfl⟩ := List.mem_map.mp h
  obtain ⟨a, ha, b, hb, rfl⟩ := exists_of_mem_zipWith he
  exact ⟨a.2, List.mem_map_of_mem ha, b.2, List.mem_map_of_mem hb, rfl⟩

/-- The types of paired parameter lists are paired types. -/
theorem exists_of_mem_toList_zipWith {p : Params α} {q : Params β}
    (h : c ∈ (p.zipWith f q).toList) : ∃ a ∈ p.toList, ∃ b ∈ q.toList, c = f a b := by
  simp only [toList, zipWith, List.mem_append] at h ⊢
  rcases h with ((((h | h) | h) | h) | h) | h
  · obtain ⟨a, ha, b, hb, hc⟩ := exists_of_mem_zipWith h
    exact ⟨a, by simp [ha], b, by simp [hb], hc⟩
  · obtain ⟨a, ha, b, hb, hc⟩ := exists_of_mem_zipWith h
    exact ⟨a, by simp [ha], b, by simp [hb], hc⟩
  · obtain ⟨a, ha, b, hb, hc⟩ := exists_of_mem_zipOption h
    exact ⟨a, by simp [ha], b, by simp [hb], hc⟩
  · obtain ⟨a, ha, b, hb, hc⟩ := exists_of_mem_zipKeywords h
    exact ⟨a, by simp only [ha, true_or, or_true], b, by simp only [hb, true_or, or_true], hc⟩
  · obtain ⟨a, ha, b, hb, hc⟩ := exists_of_mem_zipKeywords h
    exact ⟨a, by simp only [ha, true_or, or_true], b, by simp only [hb, true_or, or_true], hc⟩
  · obtain ⟨a, ha, b, hb, hc⟩ := exists_of_mem_zipOption h
    exact ⟨a, by simp [ha], b, by simp [hb], hc⟩

end Params

namespace Overload

/-- What an overload takes is among its types. -/
theorem mem_types_of_params {o : Overload} {t : Ty} (h : t ∈ o.params.toList) : t ∈ o.types :=
  List.mem_append_left _ (List.mem_append_left _ (List.mem_append_left _ h))

/-- So is what it returns. -/
theorem result_mem_types (o : Overload) : o.result ∈ o.types :=
  List.mem_append_left _ (List.mem_append_left _
    (List.mem_append_right _ (List.mem_singleton.mpr rfl)))

end Overload

namespace Overload.Holds

variable {P : Ty → Prop}

/-- Another result that has the property keeps it. -/
theorem withResult {o : Overload} {result : Ty} (h : o.Holds P) (hr : P result) :
    (o.withResult result).Holds P := by
  intro t ht
  have hcases : t = result ∨ t ∈ o.types := by
    simp only [types, Overload.withResult, Callable.withResult, Callable.toList, Arrow.toList,
      List.mem_append, List.mem_singleton] at ht ⊢
    tauto
  rcases hcases with rfl | ht
  · exact hr
  · exact h t ht

/-- A substitution maps every type of an overload. -/
theorem applyOverload {Q : Ty → Prop} {s : Subst} {o : Overload} (h : o.Holds P)
    (happly : ∀ t, P t → Q ((s.under o).apply t)) : (s.applyOverload o).Holds Q := by
  intro t ht
  rw [Subst.types_applyOverload] at ht
  obtain ⟨u, hu, rfl⟩ := List.mem_map.mp ht
  exact happly u (h u hu)

/-- A merged parameter is one of both or their intersection. -/
theorem mergeParam (hP : Ty.Closes P) {a b : Ty} (ha : P a) (hb : P b) :
    P (Overload.mergeParam a b) := by
  unfold Overload.mergeParam
  split
  · exact ha
  · exact hP.interOf (by simp [ha, hb])

/-- The types of a merged overload are made of those of its parts. -/
theorem merge? (hP : Ty.Closes P) {a b o : Overload} (ha : a.Holds P) (hb : b.Holds P)
    (h : a.merge? b = some o) : o.Holds P := by
  unfold Overload.merge? at h
  split at h
  · obtain rfl := Option.some.inj h
    exact ha
  · split at h
    · obtain rfl := Option.some.inj h
      intro t ht
      have hcases : t ∈ (a.params.zipWith Overload.mergeParam b.params).toList ∨
          t = Ty.unionOf [a.result, b.result] ∨ t ∈ a.types := by
        simp only [types, Callable.toList, Arrow.toList, block, List.mem_append,
          List.mem_singleton] at ht ⊢
        tauto
      rcases hcases with ht | rfl | ht
      · obtain ⟨u, hu, v, hv, rfl⟩ := Params.exists_of_mem_toList_zipWith ht
        exact mergeParam hP (ha u (mem_types_of_params hu)) (hb v (mem_types_of_params hv))
      · refine hP.unionOf ?_
        simp [ha _ a.result_mem_types, hb _ b.result_mem_types]
      · exact ha t ht
    · cases h

end Overload.Holds

/-- After a substitution in an overload only those placeholders are open that it brings in or
leaves. -/
theorem Ty.OnlyOpen.apply_under {s : Subst} {t : Ty} (h : t.OnlyOpen allowed)
    (hslot : ∀ p, allowed p → (s.imageOf (.slot p)).OnlyOpen allowed')
    (hvar : ∀ x, (s.imageOf (.var x)).OnlyOpen allowed') (o : Overload) :
    ((s.under o).apply t).OnlyOpen allowed' := by
  refine h.apply hslot fun x => ?_
  rcases s.imageOf_under o (.var x) with hx | hx
  · rw [hx]
    exact hvar x
  · rw [hx]
    exact .var x

/-- Overloads in normal form merge into one in normal form. -/
theorem Overload.normal_merge? {a b o : Overload} (ha : a.Normal) (hb : b.Normal)
    (h : a.merge? b = some o) : o.Normal :=
  normal_iff.mpr (Holds.merge? Ty.closes_onlyOpen (normal_iff.mp ha) (normal_iff.mp hb) h)

/-- Anchors do not change a closed overload. -/
theorem Overload.applyOverload_eq_self {s : Subst} {o : Overload}
    (h : o.OnlyOpen fun _ => False) (hs : ∀ x, s.get? x = none) : s.applyOverload o = o := by
  have hunder : ∀ x, (s.under o).get? x = none := by
    intro x
    rw [Subst.under, Subst.get?_without, hs x]
    split <;> rfl
  exact Overload.mapTypes_eq_self fun t ht => Ty.Closed.apply_eq_self (h t ht) hunder

end TypeShape
