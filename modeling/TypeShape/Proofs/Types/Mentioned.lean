import TypeShape.Proofs.Types.Composition
import TypeShape.Proofs.Types.Nesting

/-!
# What a substitution brings in

After a substitution nothing is mentioned that is not mentioned by the image of something that was
there.  Less may be mentioned, because a union is absorbed by `untyped`; that is the only loss, so
where nothing is `untyped` the images account for everything.  In an overload its own type
parameters stay out of it, on both sides.

Main results:

- Theorem `Ty.mentionsSlot_eq_false_iff_all`: a type mentions no placeholder exactly if none stands
  at any of its nodes.
- Theorem `Subst.mem_occurrences_apply_iff`: what is mentioned after a substitution without
  `untyped`.
- Theorem `Subst.mem_freeVars_applyOverload_iff`: the same for overloads.
- Theorem `Subst.brings_in_only_images`: what is mentioned after any substitution.
-/

namespace TypeShape

/-! ## Types without `untyped` -/

namespace Ty

/-- The type is a placeholder. -/
def isSlot : Ty → Bool
  | slot _ => true
  | _ => false

/-- A type mentions no placeholder exactly if none stands at any of its nodes. -/
theorem mentionsSlot_eq_false_iff_all {t : Ty} :
    t.mentionsSlot = false ↔ t.all (fun u => !u.isSlot) = true := by
  rw [mentionsSlot_eq_false_iff]
  induction t using inductionOnParts with
  | step t ih =>
    rw [all_iff]
    constructor
    · intro h
      constructor
      · cases t with
        | slot p => exact absurd List.mem_cons_self (h p)
        | _ => rfl
      · exact fun u hu => (ih u hu).mp fun p hp => h p (mem_occurrences_of_part hu hp)
    · rintro ⟨hhere, hparts⟩ p hp
      rcases mem_occurrences.mp hp with ⟨q, rfl, -⟩ | ⟨x, rfl, hx⟩ | ⟨u, hu, hpu⟩
      · cases hhere
      · cases hx
      · exact (ih u hu).mpr (hparts u hu) p hpu

/-- The type has distinct members everywhere and is nowhere `untyped`. -/
structure Definite (t : Ty) : Prop where
  wellFormed : t.WellFormed
  typed : t.all (fun u => !u.isUntyped) = true

instance (t : Ty) : Decidable t.Definite :=
  decidable_of_iff (t.WellFormed ∧ t.all (fun u => !u.isUntyped) = true)
    ⟨fun h => ⟨h.1, h.2⟩, fun h => ⟨h.wellFormed, h.typed⟩⟩

namespace Definite

variable {t : Ty} {ts : List Ty}

/-- The parts of a definite type are definite. -/
theorem part {u : Ty} (h : t.Definite) (hu : u ∈ t.parts) : u.Definite :=
  ⟨h.wellFormed.part hu, all_part h.typed hu⟩

/-- A variable or placeholder is definite. -/
theorem toTy (x : FreeVar) : x.toTy.Definite := by
  cases x <;> exact ⟨rfl, rfl⟩

/-- A rigid type with definite parts is definite. -/
theorem of_parts (hr : t.isRigid = true) (hun : t.isUntyped = false)
    (h : ∀ u ∈ t.parts, u.Definite) : t.Definite where
  wellFormed := by
    have hhere : t.distinctHere = true := by cases t <;> simp_all [isRigid, distinctHere]
    exact all_iff.mpr ⟨hhere, fun u hu => (h u hu).wellFormed⟩
  typed := all_iff.mpr ⟨by simp [hun], fun u hu => (h u hu).typed⟩

/-- A definite type has no untyped part. -/
theorem untyped_notMem_unionParts (h : t.Definite) : untyped ∉ t.unionParts := by
  intro hmem
  cases all_here (all_of_mem_unionParts hmem h.typed)

/-- Nor have several of them. -/
theorem untyped_notMem_flatMap (h : ∀ t ∈ ts, t.Definite) : untyped ∉ ts.flatMap unionParts := by
  intro hmem
  obtain ⟨t, ht, hut⟩ := List.mem_flatMap.mp hmem
  exact (h t ht).untyped_notMem_unionParts hut

/-- Without `untyped` among its types a union is not absorbed. -/
theorem unionOf (h : ∀ t ∈ ts, t.Definite) : (unionOf ts).Definite where
  wellFormed := stable_distinctHere.unionOf fun t ht => (h t ht).wellFormed
  typed := by
    have hmem : ∀ m ∈ distinct (ts.flatMap unionParts), m.all (fun u => !u.isUntyped) = true :=
      fun m hm => all_of_mem_distinct (fun _ _ => all_of_mem_unionParts)
        (fun t ht => (h t ht).typed) hm
    rw [unionOf_eq_collapse (untyped_notMem_flatMap h)]
    rcases collapseUnion_cases (distinct (ts.flatMap unionParts)) with
      ⟨-, hc⟩ | ⟨m, hm, hc⟩ | ⟨-, hc⟩
    · rw [hc]
      rfl
    · rw [hc]
      exact hmem m (by simp [hm])
    · rw [hc, all_iff]
      exact ⟨rfl, hmem⟩

/-- An intersection of definite types is definite. -/
theorem interOf (h : ∀ t ∈ ts, t.Definite) : (interOf ts).Definite where
  wellFormed := stable_distinctHere.interOf fun t ht => (h t ht).wellFormed
  typed := by
    have hmem : ∀ m ∈ distinct (ts.flatMap interParts), m.all (fun u => !u.isUntyped) = true :=
      fun m hm => all_of_mem_distinct (fun _ _ => all_of_mem_interParts)
        (fun t ht => (h t ht).typed) hm
    rw [interOf_eq]
    rcases collapseInter_cases (distinct (ts.flatMap interParts)) with
      ⟨-, hc⟩ | ⟨m, hm, hc⟩ | ⟨-, hc⟩
    · rw [hc]
      rfl
    · rw [hc]
      exact hmem m (by simp [hm])
    · rw [hc, all_iff]
      exact ⟨rfl, hmem⟩

end Definite
end Ty

namespace Subst

variable {s : Subst}

/-! ## Types -/

/-- Replacing by types without `untyped` brings none in. -/
theorem definite_replace {t : Ty} (ht : t.Definite)
    (himage : ∀ y ∈ t.occurrences, (s.imageOf y).Definite) : (s.replace t).Definite := by
  induction t using Ty.inductionOnParts with
  | step t ih =>
    have hparts : ∀ v ∈ t.parts.map s.replace, v.Definite := by
      intro v hv
      obtain ⟨u, hu, rfl⟩ := List.mem_map.mp hv
      exact ih u hu (ht.part hu) fun y hy => himage y (Ty.mem_occurrences_of_part hu hy)
    rcases t.form_cases with ⟨x, rfl⟩ | ⟨ms, rfl⟩ | ⟨ms, rfl⟩ | hr
    · rw [replace_toTy]
      exact himage x (by simp)
    · rw [replace_union]
      exact Ty.Definite.unionOf hparts
    · rw [replace_inter]
      exact Ty.Definite.interOf hparts
    · have hun : t.isUntyped = false := by simpa using Ty.all_here ht.typed
      have hun' : (s.replace t).isUntyped = false := by
        cases t <;> simp_all [Ty.isUntyped, replace, Ty.isRigid]
      exact .of_parts (isRigid_replace hr) hun' (parts_replace hr ▸ hparts)

/-- Without `untyped` the images account for everything that is mentioned. -/
theorem mem_occurrences_replace_iff {t : Ty} {x : FreeVar} (ht : t.Definite)
    (himage : ∀ y ∈ t.occurrences, (s.imageOf y).Definite) :
    x ∈ (s.replace t).occurrences ↔ ∃ y ∈ t.occurrences, x ∈ (s.imageOf y).occurrences := by
  refine ⟨mem_occurrences_of_replace, ?_⟩
  rintro ⟨y, hy, hxy⟩
  induction t using Ty.inductionOnParts with
  | step t ih =>
    have himage' : ∀ u ∈ t.parts, ∀ y ∈ u.occurrences, (s.imageOf y).Definite := fun u hu y hy =>
      himage y (Ty.mem_occurrences_of_part hu hy)
    have hparts : ∀ v ∈ t.parts.map s.replace, v.Definite := by
      intro v hv
      obtain ⟨u, hu, rfl⟩ := List.mem_map.mp hv
      exact definite_replace (ht.part hu) (himage' u hu)
    have hwf : ∀ v ∈ t.parts.map s.replace, v.WellFormed := fun v hv => (hparts v hv).wellFormed
    have hpart : (∀ z : FreeVar, t ≠ z.toTy) → ∃ v ∈ t.parts.map s.replace, x ∈ v.occurrences := by
      intro hform
      rcases Ty.mem_occurrences.mp hy with ⟨p, rfl, -⟩ | ⟨z, rfl, -⟩ | ⟨u, hu, hyu⟩
      · exact absurd rfl (hform (.slot p))
      · exact absurd rfl (hform (.var z))
      · exact ⟨s.replace u, List.mem_map_of_mem hu, ih u hu (ht.part hu) (himage' u hu) hyu⟩
    rcases t.form_cases with ⟨z, rfl⟩ | ⟨ms, rfl⟩ | ⟨ms, rfl⟩ | hr
    · obtain rfl : y = z := by simpa using hy
      rwa [replace_toTy]
    · rw [replace_union]
      exact (Ty.mem_occurrences_unionOf hwf fun v hv =>
        (hparts v hv).untyped_notMem_unionParts).mpr (hpart (by rintro (_ | _) ⟨⟩))
    · rw [replace_inter]
      exact (Ty.mem_occurrences_interOf hwf).mpr (hpart (by rintro (_ | _) ⟨⟩))
    · rw [Ty.mem_occurrences_of_isRigid (isRigid_replace hr), parts_replace hr]
      exact hpart (by rintro (_ | _) rfl <;> cases hr)

/-- What the image of a definite type mentions is what the images of its variables mention. -/
theorem mem_occurrences_apply_iff {t : Ty} {x : FreeVar} (ht : t.Definite)
    (himage : ∀ y ∈ t.occurrences, (s.imageOf y).Definite) :
    x ∈ (s.apply t).occurrences ↔ ∃ y ∈ t.occurrences, x ∈ (s.imageOf y).occurrences := by
  refine ⟨mem_occurrences_of_apply, fun h => ?_⟩
  unfold apply
  split
  · rename_i he
    obtain ⟨y, hy, hxy⟩ := h
    rw [imageOf_of_isEmpty he, FreeVar.occurrences_toTy, List.mem_singleton] at hxy
    exact hxy ▸ hy
  · exact (mem_occurrences_replace_iff ht himage).mpr h

/-! ## Overloads -/

section Overloads

variable {o : Overload} {x : FreeVar}

/-- What is not a type parameter of the overload comes from the image of something that is not. -/
theorem mem_imageOf_under_iff (hx : ∀ name ∈ o.paramNames, x ≠ .var name) {y : FreeVar} :
    x ∈ ((s.under o).imageOf y).occurrences ↔
      (∀ name ∈ o.paramNames, y ≠ .var name) ∧ x ∈ (s.imageOf y).occurrences := by
  rw [under, imageOf_without]
  split
  · rename_i hown
    obtain ⟨name, hname, rfl⟩ := hown
    refine iff_of_false (fun hmem => ?_) fun h => h.1 name hname rfl
    rw [FreeVar.occurrences_toTy, List.mem_singleton] at hmem
    exact hx name hname hmem
  · rename_i hfree
    exact ⟨fun hmem => ⟨fun name hname hy => hfree ⟨name, hname, hy⟩, hmem⟩, fun h => h.2⟩

/-- The free variables of an overload after a substitution are in the images of those before. -/
theorem mem_freeVars_of_applyOverload (h : x ∈ (s.applyOverload o).freeVars) :
    (∃ y ∈ o.freeVars, x ∈ (s.imageOf y).occurrences) ∧ ∀ name ∈ o.paramNames, x ≠ .var name := by
  rw [Overload.mem_freeVars, paramNames_applyOverload, Overload.mem_occurrences,
    types_applyOverload] at h
  obtain ⟨⟨v, hv, hxv⟩, hx⟩ := h
  obtain ⟨t, ht, rfl⟩ := List.mem_map.mp hv
  obtain ⟨y, hy, hxy⟩ := mem_occurrences_of_apply hxv
  obtain ⟨hfree, hxy⟩ := (mem_imageOf_under_iff hx).mp hxy
  exact ⟨⟨y, Overload.mem_freeVars.mpr ⟨Overload.mem_occurrences.mpr ⟨t, ht, hy⟩, hfree⟩, hxy⟩, hx⟩

/-- Without `untyped` they are all that is in the images, less the overload's own type
parameters. -/
theorem mem_freeVars_applyOverload_iff (ho : ∀ t ∈ o.types, t.Definite)
    (himage : ∀ y ∈ o.freeVars, (s.imageOf y).Definite) :
    x ∈ (s.applyOverload o).freeVars ↔
      (∃ y ∈ o.freeVars, x ∈ (s.imageOf y).occurrences) ∧ ∀ name ∈ o.paramNames, x ≠ .var name := by
  refine ⟨mem_freeVars_of_applyOverload, ?_⟩
  rintro ⟨⟨y, hy, hxy⟩, hx⟩
  obtain ⟨hocc, hfree⟩ := Overload.mem_freeVars.mp hy
  obtain ⟨t, ht, hyt⟩ := Overload.mem_occurrences.mp hocc
  have hunder : ∀ z ∈ t.occurrences, ((s.under o).imageOf z).Definite := by
    intro z hz
    rw [under, imageOf_without]
    split
    · exact Ty.Definite.toTy z
    · rename_i hown
      refine himage z (Overload.mem_freeVars.mpr ⟨Overload.mem_occurrences.mpr ⟨t, ht, hz⟩, ?_⟩)
      exact fun name hname hzn => hown ⟨name, hname, hzn⟩
  rw [Overload.mem_freeVars, paramNames_applyOverload, Overload.mem_occurrences,
    types_applyOverload]
  refine ⟨⟨(s.under o).apply t, List.mem_map_of_mem ht, ?_⟩, hx⟩
  exact (mem_occurrences_apply_iff (ho t ht) hunder).mpr
    ⟨y, hyt, (mem_imageOf_under_iff hx).mpr ⟨hfree, hxy⟩⟩

end Overloads

/-! ## Closing placeholders -/

/-- Every placeholder is replaced, and nothing that is put in mentions one. -/
structure Closing (s : Subst) : Prop where
  anchors : ∀ p, ∃ t, s.anchors.get? p = some t ∧ t.mentionsSlot = false
  values : ∀ e ∈ s.vars, e.2.mentionsSlot = false

namespace Closing

/-- What a closing substitution puts in for a variable mentions no placeholder. -/
theorem mentionsSlot_imageOf (hs : s.Closing) (y : FreeVar) :
    (s.imageOf y).mentionsSlot = false := by
  cases y with
  | slot p =>
    obtain ⟨t, ht, hclosed⟩ := hs.anchors p
    rwa [imageOf, image?, ht]
  | var x =>
    cases hx : s.get? x with
    | none => rw [imageOf, image?, hx]; rfl
    | some t => rw [imageOf, image?, hx]; exact hs.values _ (Keyed.mem_of_get? hx)

/-- It stays closing under the parameters of an overload. -/
theorem under (hs : s.Closing) (o : Overload) : (s.under o).Closing where
  anchors := hs.anchors
  values e he := hs.values e (mem_foldl_erase he)

/-- The result mentions no placeholder. -/
theorem mentionsSlot_apply (hs : s.Closing) (t : Ty) : (s.apply t).mentionsSlot = false := by
  rw [Ty.mentionsSlot_eq_false_iff]
  intro p hp
  obtain ⟨y, -, hpy⟩ := mem_occurrences_of_apply hp
  exact Ty.mentionsSlot_eq_false_iff.mp (hs.mentionsSlot_imageOf y) p hpy

/-- The image of an overload under it mentions no placeholder. -/
theorem mentionsSlot_applyOverload (hs : s.Closing) {o : Overload} {t : Ty}
    (ht : t ∈ (s.applyOverload o).types) : t.mentionsSlot = false := by
  rw [types_applyOverload] at ht
  obtain ⟨u, -, rfl⟩ := List.mem_map.mp ht
  exact (hs.under o).mentionsSlot_apply u

end Closing

/-! ## What is brought in -/

/-- After a substitution a type or overload mentions nothing but what the images of its free
variables mention, in an overload less its own type parameters, and all of that where nothing is
`untyped`.  If all three placeholders are replaced, and nothing that is put in mentions one, none is
left at any node: not in parameters, results, blocks, their receivers or bounds. -/
theorem brings_in_only_images (s : Subst) :
    (∀ t x, x ∈ (s.apply t).freeVars → ∃ y ∈ t.freeVars, x ∈ (s.imageOf y).freeVars) ∧
    (∀ o x, x ∈ (s.applyOverload o).freeVars →
      (∃ y ∈ o.freeVars, x ∈ (s.imageOf y).freeVars) ∧ ∀ p ∈ o.typeParams, x ≠ .var p.name) ∧
    (∀ t : Ty, t.Definite → (∀ y ∈ t.freeVars, (s.imageOf y).Definite) →
      ∀ x, x ∈ (s.apply t).freeVars ↔ ∃ y ∈ t.freeVars, x ∈ (s.imageOf y).freeVars) ∧
    (∀ o : Overload, (∀ t ∈ o.types, t.Definite) → (∀ y ∈ o.freeVars, (s.imageOf y).Definite) →
      ∀ x, x ∈ (s.applyOverload o).freeVars ↔
        (∃ y ∈ o.freeVars, x ∈ (s.imageOf y).freeVars) ∧ ∀ p ∈ o.typeParams, x ≠ .var p.name) ∧
    (s.Closing →
      (∀ t, (s.apply t).mentionsSlot = false ∧ (s.apply t).all (fun u => !u.isSlot) = true) ∧
      ∀ o, ∀ t ∈ (s.applyOverload o).types,
        t.mentionsSlot = false ∧ t.all (fun u => !u.isSlot) = true) := by
  have hown : ∀ (o : Overload) (x : FreeVar),
      (∀ name ∈ o.paramNames, x ≠ .var name) ↔ ∀ p ∈ o.typeParams, x ≠ .var p.name := by
    simp [Overload.paramNames]
  have hnodes : ∀ t : Ty, t.mentionsSlot = false →
      t.mentionsSlot = false ∧ t.all (fun u => !u.isSlot) = true := fun t ht =>
    ⟨ht, Ty.mentionsSlot_eq_false_iff_all.mp ht⟩
  simp only [Ty.mem_freeVars, ← hown]
  refine ⟨fun t x => mem_occurrences_of_apply, fun o x => mem_freeVars_of_applyOverload,
    fun t ht himage x => mem_occurrences_apply_iff ht himage,
    fun o ho himage x => mem_freeVars_applyOverload_iff ho himage, fun hs => ⟨fun t => ?_, ?_⟩⟩
  · exact hnodes _ (hs.mentionsSlot_apply t)
  · exact fun o t ht => hnodes t (hs.mentionsSlot_applyOverload ht)

/-- The overload `[T < self] (instance | U) { (T) [self: class] -> instance } -> U`. -/
def builderOverload : Overload where
  typeParams := [{ name := "T", bound := some (.slot .selfType) }]
  callable :=
    { arrow :=
        { params := { required := [.union [.slot .instanceType, .var "U"]] }
          result := .var "U" }
      block := some
        { arrow := { params := { required := [.var "T"] }, result := .slot .instanceType }
          optional := false
          receiver := some (.slot .classType) } }

/-- An array of `V` for the receiver and its instances, and a pair of `T` and `W` for `U`: the type
parameter `T` is spared in the overload, and captures the `T` that is put in. -/
theorem builderOverload_brings_in :
    let s : Subst :=
      { vars := [("T", .nil), ("U", .tuple [.var "T", .var "W"])]
        anchors :=
          { selfType := some (.named .instanceOf .array [.var "V"])
            classType := some (.singleton .array)
            instanceType := some (.named .instanceOf .array [.var "V"]) } }
    s.Closing ∧ (∀ t ∈ (s.applyOverload builderOverload).types, t.mentionsSlot = false) ∧
      .var "V" ∈ (s.applyOverload builderOverload).freeVars ∧
      .var "W" ∈ (s.applyOverload builderOverload).freeVars ∧
      .var "T" ∉ (s.applyOverload builderOverload).freeVars := by
  intro s
  have hs : s.Closing := ⟨by rintro (_ | _ | _) <;> exact ⟨_, rfl, by decide⟩, by decide⟩
  obtain ⟨-, hincluded, -, hexact, hclosed⟩ := brings_in_only_images s
  have hiff := hexact builderOverload (by decide) (by decide)
  refine ⟨hs, fun t ht => ((hclosed hs).2 _ t ht).1, (hiff _).mpr (by decide),
    (hiff _).mpr (by decide), fun hmem => ?_⟩
  exact absurd (hincluded builderOverload _ hmem).2 (by decide)

end Subst
end TypeShape
