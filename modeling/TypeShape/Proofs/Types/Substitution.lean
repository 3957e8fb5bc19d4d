import TypeShape.Proofs.Keyed
import TypeShape.Proofs.Types.NormalForm
import TypeShape.Subst

/-!
# Replacing placeholders and variables

A substitution changes a type only where a placeholder or variable stands and where a union or
intersection is rebuilt.  All other forms are rigid: they keep their head, and their parts are
replaced one by one.

Main results:

- Theorem `Subst.replace_eq_self`: a type in normal form stays as it is where the substitution maps
  what occurs in it to itself.
- Theorem `Subst.all_replace`: a stable test that passes everywhere in a type and in the images of
  what occurs in it passes everywhere in the result.
- Theorem `Subst.mem_occurrences_of_replace`: the result mentions only what the images mention.
- Theorem `Subst.beq_replace`: equal substitutions give equal types.
-/

namespace TypeShape

/-- A placeholder or variable as a type. -/
def FreeVar.toTy : FreeVar → Ty
  | slot s => .slot s
  | var x => .var x

/-- A variable as a type mentions itself. -/
@[simp]
theorem FreeVar.occurrences_toTy (x : FreeVar) : x.toTy.occurrences = [x] := by
  cases x <;> rfl

/-- A variable as a type passes a test if it does so itself. -/
theorem FreeVar.all_toTy {test : Ty → Bool} (x : FreeVar) : x.toTy.all test = test x.toTy := by
  cases x <;> rfl

namespace Ty

/-- The type is no placeholder or variable and no set of members. -/
def isRigid : Ty → Bool
  | slot _ => false
  | var _ => false
  | union _ => false
  | inter _ => false
  | _ => true

/-- A type is a placeholder or variable, a union, an intersection, or rigid. -/
theorem form_cases (t : Ty) :
    (∃ x : FreeVar, t = x.toTy) ∨ (∃ ms, t = union ms) ∨ (∃ ms, t = inter ms) ∨
      t.isRigid = true := by
  cases t with
  | slot s => exact Or.inl ⟨.slot s, rfl⟩
  | var x => exact Or.inl ⟨.var x, rfl⟩
  | union ms => exact Or.inr (Or.inl ⟨ms, rfl⟩)
  | inter ms => exact Or.inr (Or.inr (Or.inl ⟨ms, rfl⟩))
  | _ => exact Or.inr (Or.inr (Or.inr rfl))

/-- A type with a fixed head is no set. -/
theorem isSet_eq_false_of_isRigid {t : Ty} (h : t.isRigid = true) : t.isSet = false := by
  cases t <;> simp_all [isRigid, isSet]

/-- What occurs in a rigid type occurs in a part. -/
theorem mem_occurrences_of_isRigid {t : Ty} (h : t.isRigid = true) {x : FreeVar} :
    x ∈ t.occurrences ↔ ∃ u ∈ t.parts, x ∈ u.occurrences := by
  cases t <;> simp_all [isRigid, occurrences, parts, occurrencesList_eq_flatMap,
    occurrencesFields_eq_flatMap, occurrencesCallable_eq_flatMap]

/-- What a part mentions is mentioned by the type. -/
theorem mem_occurrences_of_part {t u : Ty} {x : FreeVar} (hu : u ∈ t.parts)
    (hx : x ∈ u.occurrences) : x ∈ t.occurrences :=
  mem_occurrences.mpr (Or.inr (Or.inr ⟨u, hu, hx⟩))

end Ty

namespace Subst

/-- What a placeholder or variable becomes. -/
def imageOf (s : Subst) (x : FreeVar) : Ty :=
  (s.image? x).getD x.toTy

/-! ## Replacement by forms -/

/-- A variable is replaced by its image. -/
@[simp]
theorem replace_toTy (s : Subst) (x : FreeVar) : s.replace x.toTy = s.imageOf x := by
  cases x <;> rfl

/-- A union is replaced by the union of what its members become. -/
theorem replace_union (s : Subst) (ms : List Ty) :
    s.replace (.union ms) = Ty.unionOf (ms.map s.replace) := by
  rw [replace, replaceList_eq_map]

/-- An intersection is replaced by that of what its members become. -/
theorem replace_inter (s : Subst) (ms : List Ty) :
    s.replace (.inter ms) = Ty.interOf (ms.map s.replace) := by
  rw [replace, replaceList_eq_map]

/-- Replacement keeps the head of a rigid type. -/
theorem head_replace {s : Subst} {t : Ty} (h : t.isRigid = true) :
    (s.replace t).head = t.head := by
  cases t <;> simp_all [Ty.isRigid, replace, Ty.head, replaceFields_eq_map, replaceCallable_eq_map,
    Function.comp_def]

/-- Replacement in a rigid type is replacement in its parts. -/
theorem parts_replace {s : Subst} {t : Ty} (h : t.isRigid = true) :
    (s.replace t).parts = t.parts.map s.replace := by
  cases t <;> simp_all [Ty.isRigid, replace, Ty.parts, replaceList_eq_map, replaceFields_eq_map,
    replaceCallable_eq_map, Function.comp_def]

/-- A fixed head stays. -/
theorem isRigid_replace {s : Subst} {t : Ty} (h : t.isRigid = true) :
    (s.replace t).isRigid = true := by
  cases t <;> simp_all [Ty.isRigid, replace]

/-- A type with a fixed head stays if its parts do. -/
theorem replace_rigid_eq_self {s : Subst} {t : Ty} (h : t.isRigid = true)
    (hparts : ∀ u ∈ t.parts, s.replace u = u) : s.replace t = t := by
  have hlist : ∀ us : List Ty, (∀ u ∈ us, s.replace u = u) → us.map s.replace = us :=
    fun us hus => (List.map_congr_left hus).trans (List.map_id' us)
  cases t with
  | named kind name args => rw [replace, replaceList_eq_map, hlist args hparts]
  | tuple items => rw [replace, replaceList_eq_map, hlist items hparts]
  | record fields =>
    rw [replace, replaceFields_eq_map]
    congr 1
    refine (List.map_congr_left fun f hf => ?_).trans (List.map_id' fields)
    rw [hparts f.2 (List.mem_map.mpr ⟨f, hf, rfl⟩)]
  | proc c => rw [replace, replaceCallable_eq_map, Callable.map_eq_self hparts]
  | slot s => simp [Ty.isRigid] at h
  | var x => simp [Ty.isRigid] at h
  | union ms => simp [Ty.isRigid] at h
  | inter ms => simp [Ty.isRigid] at h
  | _ => rfl

/-! ## Nothing to replace -/

/-- A type in normal form stays as it is where what occurs in it is mapped to itself. -/
theorem replace_eq_self {s : Subst} {t : Ty} (ht : t.Normal)
    (h : ∀ x ∈ t.occurrences, s.imageOf x = x.toTy) : s.replace t = t := by
  induction t using Ty.inductionOnParts with
  | step t ih =>
    have hparts : ∀ u ∈ t.parts, s.replace u = u := fun u hu =>
      ih u hu (ht.part hu) fun x hx => h x (Ty.mem_occurrences_of_part hu hx)
    have hmap : t.parts.map s.replace = t.parts :=
      (List.map_congr_left hparts).trans (List.map_id' t.parts)
    rcases t.form_cases with ⟨x, rfl⟩ | ⟨ms, rfl⟩ | ⟨ms, rfl⟩ | hr
    · rw [replace_toTy]
      exact h x (by simp)
    · rw [replace_union, show ms.map s.replace = ms from hmap]
      exact Ty.unionOf_eq_self (Ty.all_here ht)
    · rw [replace_inter, show ms.map s.replace = ms from hmap]
      exact Ty.interOf_eq_self (Ty.all_here ht)
    · exact replace_rigid_eq_self hr hparts

/-! ## Properties of every node -/

/-- A stable test passes everywhere in the result if it passes everywhere in the type and in what
is put in. -/
theorem all_replace {s : Subst} {test : Ty → Bool} (hstable : Ty.Stable test)
    (hrigid : ∀ t : Ty, t.isRigid = true → test t = true → test (s.replace t) = true) {t : Ty}
    (ht : t.all test = true) (himage : ∀ x ∈ t.occurrences, (s.imageOf x).all test = true) :
    (s.replace t).all test = true := by
  induction t using Ty.inductionOnParts with
  | step t ih =>
    have hparts : ∀ v ∈ t.parts.map s.replace, v.all test = true := by
      intro v hv
      obtain ⟨u, hu, rfl⟩ := List.mem_map.mp hv
      exact ih u hu (Ty.all_part ht hu) fun x hx => himage x (Ty.mem_occurrences_of_part hu hx)
    rcases t.form_cases with ⟨x, rfl⟩ | ⟨ms, rfl⟩ | ⟨ms, rfl⟩ | hr
    · rw [replace_toTy]
      exact himage x (by simp)
    · rw [replace_union]
      exact hstable.unionOf hparts
    · rw [replace_inter]
      exact hstable.interOf hparts
    · rw [Ty.all_iff, parts_replace hr]
      exact ⟨hrigid t hr (Ty.all_here ht), hparts⟩

/-- Replacing variables by well-formed types keeps types well formed. -/
theorem wellFormed_replace {s : Subst} {t : Ty} (ht : t.WellFormed)
    (himage : ∀ x ∈ t.occurrences, (s.imageOf x).WellFormed) : (s.replace t).WellFormed := by
  refine all_replace Ty.stable_distinctHere ?_ ht himage
  intro t hr _
  have hr' := isRigid_replace (s := s) hr
  revert hr'
  cases s.replace t <;> simp [Ty.isRigid, Ty.distinctHere]

/-- Replacing variables by types in normal form keeps the normal form. -/
theorem normal_replace {s : Subst} {t : Ty} (ht : t.Normal)
    (himage : ∀ x ∈ t.occurrences, (s.imageOf x).Normal) : (s.replace t).Normal := by
  refine all_replace Ty.stable_normalHere ?_ ht himage
  intro t hr _
  have hr' := isRigid_replace (s := s) hr
  revert hr'
  cases s.replace t <;> simp [Ty.isRigid, Ty.normalHere]

/-! ## What the result mentions -/

/-- The result mentions nothing but what the images of the replaced mention. -/
theorem mem_occurrences_of_replace {s : Subst} {t : Ty} {x : FreeVar}
    (h : x ∈ (s.replace t).occurrences) :
    ∃ y ∈ t.occurrences, x ∈ (s.imageOf y).occurrences := by
  induction t using Ty.inductionOnParts with
  | step t ih =>
    have hpart : ∀ v ∈ t.parts.map s.replace, x ∈ v.occurrences →
        ∃ y ∈ t.occurrences, x ∈ (s.imageOf y).occurrences := by
      intro v hv hx
      obtain ⟨u, hu, rfl⟩ := List.mem_map.mp hv
      obtain ⟨y, hy, hxy⟩ := ih u hu hx
      exact ⟨y, Ty.mem_occurrences_of_part hu hy, hxy⟩
    rcases t.form_cases with ⟨y, rfl⟩ | ⟨ms, rfl⟩ | ⟨ms, rfl⟩ | hr
    · rw [replace_toTy] at h
      exact ⟨y, by simp, h⟩
    · rw [replace_union] at h
      obtain ⟨v, hv, hx⟩ := Ty.mem_occurrences_of_unionOf h
      exact hpart v hv hx
    · rw [replace_inter] at h
      obtain ⟨v, hv, hx⟩ := Ty.mem_occurrences_of_interOf h
      exact hpart v hv hx
    · rw [Ty.mem_occurrences_of_isRigid (isRigid_replace hr), parts_replace hr] at h
      obtain ⟨v, hv, hx⟩ := h
      exact hpart v hv hx

/-! ## Equal substitutions -/

/-- Replacing by equal types gives equal types. -/
theorem beq_replace {s s' : Subst} {t : Ty} (ht : t.WellFormed)
    (hwf : ∀ x ∈ t.occurrences, (s.imageOf x).WellFormed)
    (hwf' : ∀ x ∈ t.occurrences, (s'.imageOf x).WellFormed)
    (h : ∀ x ∈ t.occurrences, (s.imageOf x == s'.imageOf x) = true) :
    (s.replace t == s'.replace t) = true := by
  induction t using Ty.inductionOnParts with
  | step t ih =>
    have hin : ∀ u ∈ t.parts, ∀ x ∈ u.occurrences, x ∈ t.occurrences :=
      fun u hu x hx => Ty.mem_occurrences_of_part hu hx
    have hbeq : ∀ u ∈ t.parts, (s.replace u == s'.replace u) = true := fun u hu =>
      ih u hu (ht.part hu) (fun x hx => hwf x (hin u hu x hx)) (fun x hx => hwf' x (hin u hu x hx))
        fun x hx => h x (hin u hu x hx)
    have hleft : ∀ u ∈ t.parts, (s.replace u).WellFormed := fun u hu =>
      wellFormed_replace (ht.part hu) fun x hx => hwf x (hin u hu x hx)
    have hright : ∀ u ∈ t.parts, (s'.replace u).WellFormed := fun u hu =>
      wellFormed_replace (ht.part hu) fun x hx => hwf' x (hin u hu x hx)
    have hleft' : ∀ v ∈ t.parts.map s.replace, v.WellFormed := by simpa using hleft
    have hright' : ∀ v ∈ t.parts.map s'.replace, v.WellFormed := by simpa using hright
    have hcov : Ty.Covered (t.parts.map s.replace) (t.parts.map s'.replace) := by
      intro v hv
      obtain ⟨u, hu, rfl⟩ := List.mem_map.mp hv
      exact ⟨s'.replace u, List.mem_map_of_mem hu, hbeq u hu⟩
    have hcov' : Ty.Covered (t.parts.map s'.replace) (t.parts.map s.replace) := by
      intro v hv
      obtain ⟨u, hu, rfl⟩ := List.mem_map.mp hv
      exact ⟨s.replace u, List.mem_map_of_mem hu,
        Ty.beq_symm (hleft u hu) (hright u hu) (hbeq u hu)⟩
    rcases t.form_cases with ⟨x, rfl⟩ | ⟨ms, rfl⟩ | ⟨ms, rfl⟩ | hr
    · rw [replace_toTy, replace_toTy]
      exact h x (by simp)
    · rw [replace_union, replace_union]
      exact Ty.beq_unionOf hleft' hright' hcov hcov'
    · rw [replace_inter, replace_inter]
      exact Ty.beq_interOf hleft' hright' hcov hcov'
    · rw [Ty.beq_iff_of_not_isSet (Ty.isSet_eq_false_of_isRigid (isRigid_replace hr)),
        head_replace hr, head_replace hr, parts_replace hr, parts_replace hr]
      refine ⟨rfl, ?_⟩
      rw [List.forall₂_map_left_iff, List.forall₂_map_right_iff, List.forall₂_same]
      exact hbeq

/-! ## Applying

An empty substitution is not carried out at all, so it keeps even types that are not in normal
form. -/

/-- An empty substitution maps every variable to itself. -/
theorem imageOf_of_isEmpty {s : Subst} (h : s.isEmpty = true) (x : FreeVar) :
    s.imageOf x = x.toTy := by
  obtain ⟨vars, anchors⟩ := s
  obtain ⟨self, cls, inst⟩ := anchors
  simp only [isEmpty, Anchors.isEmpty, Bool.and_eq_true, List.isEmpty_iff,
    Option.isNone_iff_eq_none] at h
  obtain ⟨rfl, ⟨rfl, rfl⟩, rfl⟩ := h
  rcases x with slot | name
  · cases slot <;> rfl
  · rfl

/-- A substitution leaves a type in normal form if it leaves its variables. -/
theorem apply_eq_self {s : Subst} {t : Ty} (ht : t.Normal)
    (h : ∀ x ∈ t.occurrences, s.imageOf x = x.toTy) : s.apply t = t := by
  unfold apply
  split
  · rfl
  · exact replace_eq_self ht h

/-- A substitution replaces the variables of a type in normal form. -/
theorem apply_eq_replace {s : Subst} {t : Ty} (ht : t.Normal) : s.apply t = s.replace t := by
  unfold apply
  split
  · rename_i he
    exact (replace_eq_self ht fun x _ => imageOf_of_isEmpty he x).symm
  · rfl

/-- Applied to a variable, a substitution gives its image. -/
theorem apply_toTy (s : Subst) (x : FreeVar) : s.apply x.toTy = s.imageOf x := by
  have hx : x.toTy.Normal := by cases x <;> rfl
  rw [apply_eq_replace hx, replace_toTy]

/-- What every image passes, the result of a substitution passes. -/
theorem all_apply {s : Subst} {test : Ty → Bool} (hstable : Ty.Stable test)
    (hrigid : ∀ t : Ty, t.isRigid = true → test t = true → test (s.replace t) = true) {t : Ty}
    (ht : t.all test = true) (himage : ∀ x ∈ t.occurrences, (s.imageOf x).all test = true) :
    (s.apply t).all test = true := by
  unfold apply
  split
  · exact ht
  · exact all_replace hstable hrigid ht himage

/-- Applying a substitution of well-formed types keeps types well formed. -/
theorem wellFormed_apply {s : Subst} {t : Ty} (ht : t.WellFormed)
    (himage : ∀ x ∈ t.occurrences, (s.imageOf x).WellFormed) : (s.apply t).WellFormed := by
  unfold apply
  split
  · exact ht
  · exact wellFormed_replace ht himage

/-- Applying a substitution of types in normal form keeps the normal form. -/
theorem normal_apply {s : Subst} {t : Ty} (ht : t.Normal)
    (himage : ∀ x ∈ t.occurrences, (s.imageOf x).Normal) : (s.apply t).Normal := by
  rw [apply_eq_replace ht]
  exact normal_replace ht himage

/-- The result mentions what images of mentioned variables mention. -/
theorem mem_occurrences_of_apply {s : Subst} {t : Ty} {x : FreeVar}
    (h : x ∈ (s.apply t).occurrences) :
    ∃ y ∈ t.occurrences, x ∈ (s.imageOf y).occurrences := by
  unfold apply at h
  split at h
  · rename_i he
    exact ⟨x, h, by simp [imageOf_of_isEmpty he]⟩
  · exact mem_occurrences_of_replace h

/-! ## Sparing variables -/

/-- Erasing names leaves entries that were there. -/
theorem mem_foldl_erase {names : List String} {vars : List (String × Ty)} {e : String × Ty}
    (h : e ∈ names.foldl (fun vars x => Keyed.erase x vars) vars) : e ∈ vars := by
  induction names generalizing vars with
  | nil => exact h
  | cons name names ih => exact (List.mem_filter.mp (ih h)).1

/-- A substitution without names has the other images. -/
theorem get?_without {s : Subst} {names : List String} {x : String} :
    (s.without names).get? x = if x ∈ names then none else s.get? x := by
  obtain ⟨vars, anchors⟩ := s
  unfold without get?
  induction names generalizing vars with
  | nil => simp
  | cons name names ih =>
    rw [List.foldl_cons, ih, Keyed.get?_erase]
    grind

end Subst
end TypeShape
