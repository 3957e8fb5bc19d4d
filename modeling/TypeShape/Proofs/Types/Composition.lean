import TypeShape.Proofs.Declaration.Ancestors
import TypeShape.Proofs.Types.Congruence

/-!
# One substitution after another

The composite of two substitutions maps what the first maps to what the second makes of it, and
everything else as the second does.  There is one unless both map a variable, and to different
types.  It acts as the first and then the second: on every type in normal form, if the second leaves
the anchors of the first alone, and on every overload whose type parameters the first does not bring
in.

Main results:

- Theorem `Subst.beq_replace_replace`: replacing twice is replacing once, by the replaced images.
- Theorem `Subst.andThen_cases`: when there is a composite, and what it maps.
- Theorem `Subst.andThen_sequential`: the composite is the first substitution and then the second.
-/

namespace TypeShape

namespace Keyed

variable {κ ν μ : Type} [DecidableEq κ]

/-- Looking up a mapped value is mapping what is looked up. -/
theorem get?_map (f : ν → μ) (es : List (κ × ν)) (k : κ) :
    get? k (es.map fun e => (e.1, f e.2)) = (get? k es).map f := by
  induction es with
  | nil => rfl
  | cons e es ih =>
    rw [List.map_cons, get?_cons, get?_cons, ih]
    split <;> rfl

/-- An entry is found under its key where no key is stored twice. -/
theorem get?_of_mem {es : List (κ × ν)} (h : es.Pairwise fun a b => a.1 ≠ b.1) {e : κ × ν}
    (he : e ∈ es) : get? e.1 es = some e.2 := by
  induction es with
  | nil => cases he
  | cons f es ih =>
    obtain ⟨hf, hes⟩ := List.pairwise_cons.mp h
    rw [get?_cons]
    rcases List.mem_cons.mp he with rfl | he
    · rw [if_pos rfl]
    · rw [if_neg (hf e he), ih hes he]

omit [DecidableEq κ] in
/-- Keys that are sorted are distinct. -/
theorem Sorted.pairwise_ne [Ord κ] [Std.OrientedOrd κ] {es : List (κ × ν)} (h : Sorted es) :
    es.Pairwise fun a b => a.1 ≠ b.1 := by
  refine List.Pairwise.imp (fun {a b} hlt heq => ?_) h
  rw [heq, Std.ReflOrd.compare_self] at hlt
  cases hlt

end Keyed

/-- The first anchors are looked up before the others. -/
theorem Anchors.get?_orElse (a b : Anchors) (p : Slot) :
    (a.orElse b).get? p = (a.get? p).or (b.get? p) := by
  cases p <;> rfl

namespace Subst

/-- The variables are in order, and values and anchors are in normal form. -/
structure Normal (s : Subst) : Prop where
  sorted : Keyed.Sorted s.vars
  values : ∀ e ∈ s.vars, e.2.Normal
  anchors : ∀ p t, s.anchors.get? p = some t → t.Normal

variable {s o m : Subst}

/-- Images of variables are in normal form. -/
theorem Normal.get? (h : s.Normal) {x : String} {t : Ty} (hx : s.get? x = some t) : t.Normal :=
  h.values _ (Keyed.mem_of_get? hx)

/-- So are images of all that is free, mapped or not. -/
theorem Normal.imageOf (h : s.Normal) (x : FreeVar) : (s.imageOf x).Normal :=
  Ty.setTest_normalHere.imageOf h.values h.anchors x

/-- A variable that is mapped has its image. -/
theorem imageOf_of_image? {x : FreeVar} {t : Ty} (h : s.image? x = some t) : s.imageOf x = t := by
  rw [imageOf, h, Option.getD_some]

/-- A variable that is not mapped is its own image. -/
theorem imageOf_of_image?_none {x : FreeVar} (h : s.image? x = none) : s.imageOf x = x.toTy := by
  rw [imageOf, h, Option.getD_none]

/-! ## Replacing twice -/

/-- Replacing by one substitution and then by another is replacing by a third one that maps, up to
equality, as both do. -/
theorem beq_replace_replace {t : Ty} (ht : t.Normal) (hs : ∀ x, (s.imageOf x).Normal)
    (ho : ∀ x, (o.imageOf x).Normal) (hm : ∀ x, (m.imageOf x).Normal)
    (h : ∀ x ∈ t.occurrences, (m.imageOf x == o.replace (s.imageOf x)) = true) :
    (m.replace t == o.replace (s.replace t)) = true := by
  induction t using Ty.inductionOnParts with
  | step t ih =>
    have hpart : ∀ u ∈ t.parts, (m.replace u == o.replace (s.replace u)) = true := fun u hu =>
      ih u hu (ht.part hu) fun x hx => h x (Ty.mem_occurrences_of_part hu hx)
    have hparts : ∀ u ∈ t.parts, u.Normal := fun u hu => ht.part hu
    have hinner := normal_map_replace hs hparts
    have hleft := normal_map_replace hm hparts
    have hright := normal_map_replace ho hinner
    have hcov : Ty.Covered (t.parts.map m.replace) ((t.parts.map s.replace).map o.replace) := by
      intro a ha
      obtain ⟨u, hu, rfl⟩ := List.mem_map.mp ha
      exact ⟨_, List.mem_map_of_mem (List.mem_map_of_mem hu), hpart u hu⟩
    have hcov' : Ty.Covered ((t.parts.map s.replace).map o.replace) (t.parts.map m.replace) := by
      intro a ha
      obtain ⟨b, hb, rfl⟩ := List.mem_map.mp ha
      obtain ⟨u, hu, rfl⟩ := List.mem_map.mp hb
      exact ⟨_, List.mem_map_of_mem hu, Ty.beq_symm (hleft _ (List.mem_map_of_mem hu)).wellFormed
        (hright _ (List.mem_map_of_mem hb)).wellFormed (hpart u hu)⟩
    have hwf := fun (v : Ty) hv => (hleft v hv).wellFormed
    have hwf' := fun (v : Ty) hv => (hright v hv).wellFormed
    rcases t.form_cases with ⟨x, rfl⟩ | ⟨ms, rfl⟩ | ⟨ms, rfl⟩ | hr
    · rw [replace_toTy, replace_toTy]
      exact h x (by simp)
    · rw [replace_union, replace_union]
      have hdone := (normal_replace (Ty.normal_unionOf hinner) fun x _ => ho x).wellFormed
      have hmiddle := (Ty.normal_unionOf hright).wellFormed
      have hcommute := Ty.beq_symm hdone hmiddle (beq_replace_unionOf ho hinner)
      exact Ty.beq_trans (Ty.normal_unionOf hleft).wellFormed hmiddle hdone
        (Ty.beq_unionOf hwf hwf' hcov hcov') hcommute
    · rw [replace_inter, replace_inter]
      have hdone := (normal_replace (Ty.normal_interOf hinner) fun x _ => ho x).wellFormed
      have hmiddle := (Ty.normal_interOf hright).wellFormed
      have hcommute := Ty.beq_symm hdone hmiddle (beq_replace_interOf ho hinner)
      exact Ty.beq_trans (Ty.normal_interOf hleft).wellFormed hmiddle hdone
        (Ty.beq_interOf hwf hwf' hcov hcov') hcommute
    · have hr' := isRigid_replace (s := s) hr
      rw [Ty.beq_iff_of_not_isSet (Ty.isSet_eq_false_of_isRigid (isRigid_replace hr)),
        head_replace hr, head_replace hr', head_replace hr, parts_replace hr, parts_replace hr',
        parts_replace hr, List.map_map]
      refine ⟨rfl, ?_⟩
      rw [List.forall₂_map_left_iff, List.forall₂_map_right_iff, List.forall₂_same]
      exact hpart

/-- A substitution whose images are those of two after each other does what both do. -/
theorem beq_apply_apply {t : Ty} (ht : t.Normal) (hs : ∀ x, (s.imageOf x).Normal)
    (ho : ∀ x, (o.imageOf x).Normal) (hm : ∀ x, (m.imageOf x).Normal)
    (h : ∀ x, (m.imageOf x == o.replace (s.imageOf x)) = true) :
    (m.apply t == o.apply (s.apply t)) = true := by
  rw [apply_eq_replace ht, apply_eq_replace ht,
    apply_eq_replace (normal_replace ht fun x _ => hs x)]
  exact beq_replace_replace ht hs ho hm fun x _ => h x

/-! ## Composites -/

/-- Variables are added one by one: a variable that is there already must have an equal value. -/
theorem foldlM_addVar_cases {vars : List (String × Ty)} (acc : List (String × Ty))
    (hkeys : vars.Pairwise fun a b => a.1 ≠ b.1) :
    (∃ r, vars.foldlM addVar acc = .ok r ∧
        (∀ x, Keyed.get? x r = (Keyed.get? x acc).or (Keyed.get? x vars)) ∧
        ∀ e ∈ vars, ∀ t, Keyed.get? e.1 acc = some t → (t == e.2) = true) ∨
      ∃ e ∈ vars, ∃ t, Keyed.get? e.1 acc = some t ∧ (t == e.2) = false ∧
        vars.foldlM addVar acc = .error (.clash e.1 t e.2) := by
  induction vars generalizing acc with
  | nil => exact Or.inl ⟨acc, rfl, fun x => by simp, by simp⟩
  | cons e vars ih =>
    obtain ⟨hne, hkeys⟩ := List.pairwise_cons.mp hkeys
    rw [List.foldlM_cons]
    cases hget : Keyed.get? e.1 acc with
    | none =>
      have hadd : addVar acc e = .ok (Keyed.insert e.1 e.2 acc) := by rw [addVar, hget]
      -- The keys to come are others, so what is stored under them is not affected.
      have hlater : ∀ f ∈ vars, Keyed.get? f.1 (Keyed.insert e.1 e.2 acc) = Keyed.get? f.1 acc :=
        fun f hf => by rw [Keyed.get?_insert, if_neg (hne f hf)]
      rw [hadd]
      rcases ih (Keyed.insert e.1 e.2 acc) hkeys with
        ⟨r, hr, hvalues, hequal⟩ | ⟨f, hf, t, ht, hclash⟩
      · refine Or.inl ⟨r, hr, fun x => ?_, ?_⟩
        · rw [hvalues, Keyed.get?_insert, Keyed.get?_cons]
          by_cases hx : e.1 = x
          · rw [if_pos hx, if_pos hx, ← hx, hget]
            rfl
          · rw [if_neg hx, if_neg hx]
        · refine List.forall_mem_cons.mpr ⟨fun t ht => ?_, fun f hf t ht => ?_⟩
          · rw [hget] at ht
            cases ht
          · exact hequal f hf t ((hlater f hf).trans ht)
      · exact Or.inr ⟨f, List.mem_cons_of_mem e hf, t, (hlater f hf).symm.trans ht, hclash⟩
    | some existing =>
      cases hbeq : existing == e.2 with
      | true =>
        have hadd : addVar acc e = .ok acc := by simp only [addVar, hget, hbeq, if_true]
        rw [hadd]
        rcases ih acc hkeys with ⟨r, hr, hvalues, hequal⟩ | ⟨f, hf, t, ht, hclash⟩
        · refine Or.inl ⟨r, hr, fun x => ?_, List.forall_mem_cons.mpr ⟨fun t ht => ?_, hequal⟩⟩
          · rw [hvalues, Keyed.get?_cons]
            by_cases hx : e.1 = x
            · rw [← hx, hget]
              rfl
            · rw [if_neg hx]
          · obtain rfl := Option.some.inj (hget.symm.trans ht)
            exact hbeq
        · exact Or.inr ⟨f, List.mem_cons_of_mem e hf, t, ht, hclash⟩
      | false =>
        have hadd : addVar acc e = .error (.clash e.1 existing e.2) := by
          simp only [addVar, hget, hbeq, Bool.false_eq_true, if_false]
        rw [hadd]
        exact Or.inr ⟨e, List.mem_cons_self, existing, hget, hbeq, rfl⟩

/-- A variable of both substitutions for which they disagree. -/
def Clash (s o : Subst) (x : String) (t u : Ty) : Prop :=
  s.get? x = some t ∧ o.get? x = some u ∧ (o.apply t == u) = false

/-- There is a composite exactly if no variable clashes.  It maps the variables of the first to what
the second makes of their values, and other variables as the second does. -/
theorem andThen_cases (ho : Keyed.Sorted o.vars) :
    (∃ m, s.andThen o = .ok m ∧ m.anchors = s.anchors.orElse o.anchors ∧
        (∀ x, m.get? x = ((s.get? x).map o.apply).or (o.get? x)) ∧ ∀ x t u, ¬ Clash s o x t u) ∨
      ∃ x t u, Clash s o x t u ∧ s.andThen o = .error (.clash x (o.apply t) u) := by
  have hmap := Keyed.get?_map o.apply s.vars
  unfold andThen
  rcases foldlM_addVar_cases (s.vars.map fun e => (e.1, o.apply e.2)) ho.pairwise_ne with
    ⟨r, hr, hvalues, hequal⟩ | ⟨e, he, t, ht, hne, herror⟩
  · refine Or.inl ⟨⟨r, _⟩, by rw [hr]; rfl, rfl, fun x => ?_, ?_⟩
    · have hx := hvalues x
      rw [hmap x] at hx
      exact hx
    · rintro x t u ⟨hs, hu, hne⟩
      have hold : Keyed.get? x (s.vars.map fun e => (e.1, o.apply e.2)) = some (o.apply t) := by
        rw [hmap x]
        exact congrArg (Option.map o.apply) hs
      rw [hequal (x, u) (Keyed.mem_of_get? hu) _ hold] at hne
      cases hne
  · rw [hmap e.1] at ht
    obtain ⟨t, hs, rfl⟩ := Option.map_eq_some_iff.mp ht
    refine Or.inr ⟨e.1, t, e.2, ⟨hs, Keyed.get?_of_mem ho.pairwise_ne he, hne⟩, ?_⟩
    rw [herror]
    rfl

section Composite

variable (hs : s.Normal) (ho : o.Normal) (hm : s.andThen o = .ok m)

include ho hm

/-- Variables are mapped by the first substitution and then the second, or by the second. -/
theorem get?_andThen (x : String) : m.get? x = ((s.get? x).map o.apply).or (o.get? x) := by
  rcases andThen_cases (s := s) ho.sorted with ⟨m', hm', -, hget, -⟩ | ⟨x, t, u, -, herror⟩
  · obtain rfl := Except.ok.inj (hm.symm.trans hm')
    exact hget x
  · cases hm.symm.trans herror

/-- The anchors of the first come before those of the second. -/
theorem anchors_andThen : m.anchors = s.anchors.orElse o.anchors := by
  rcases andThen_cases (s := s) ho.sorted with ⟨m', hm', hanchors, -⟩ | ⟨x, t, u, -, herror⟩
  · obtain rfl := Except.ok.inj (hm.symm.trans hm')
    exact hanchors
  · cases hm.symm.trans herror

include hs

/-- Images of the composition are in normal form. -/
theorem normal_imageOf_andThen (x : FreeVar) : (m.imageOf x).Normal := by
  cases hx : m.image? x with
  | none =>
    rw [imageOf_of_image?_none hx]
    cases x <;> rfl
  | some t =>
    rw [imageOf_of_image? hx]
    cases x with
    | slot p =>
      simp only [image?, anchors_andThen ho hm, Anchors.get?_orElse] at hx
      rcases Option.or_eq_some_iff.mp hx with h | ⟨-, h⟩
      · exact hs.anchors p t h
      · exact ho.anchors p t h
    | var x =>
      simp only [image?, get?_andThen ho hm] at hx
      rcases Option.or_eq_some_iff.mp hx with h | ⟨-, h⟩
      · obtain ⟨u, hu, rfl⟩ := Option.map_eq_some_iff.mp h
        exact normal_apply (hs.get? hu) fun y _ => ho.imageOf y
      · exact ho.get? h

/-- The composite maps as both substitutions do, one after the other. -/
theorem beq_imageOf_andThen
    (hanchors : ∀ p a, s.anchors.get? p = some a → (o.apply a == a) = true) (x : FreeVar) :
    (m.imageOf x == o.replace (s.imageOf x)) = true := by
  cases hx : s.image? x with
  | none =>
    -- What the first leaves alone is mapped by the second.
    have hsame : m.image? x = o.image? x := by
      cases x with
      | slot p =>
        have hnone : s.anchors.get? p = none := hx
        simp only [image?, anchors_andThen ho hm, Anchors.get?_orElse, hnone, Option.none_or]
      | var x =>
        have hnone : s.get? x = none := hx
        simp only [image?, get?_andThen ho hm, hnone, Option.map_none, Option.none_or]
    rw [imageOf_of_image?_none hx, replace_toTy, imageOf, imageOf, hsame]
    exact Ty.beq_refl _
  | some t =>
    rw [imageOf_of_image? hx]
    cases x with
    | slot p =>
      have hself : s.anchors.get? p = some t := hx
      have himage : m.image? (.slot p) = some t := by
        simp only [image?, anchors_andThen ho hm, Anchors.get?_orElse, hself, Option.some_or]
      have ht := hs.anchors p t hself
      have hsame := hanchors p t hself
      rw [apply_eq_replace ht] at hsame
      rw [imageOf_of_image? himage]
      exact Ty.beq_symm (normal_replace ht fun y _ => ho.imageOf y).wellFormed ht.wellFormed hsame
    | var x =>
      have hget : s.get? x = some t := hx
      have himage : m.image? (.var x) = some (o.apply t) := by
        simp only [image?, get?_andThen ho hm, hget, Option.map_some, Option.some_or]
      rw [imageOf_of_image? himage, apply_eq_replace (hs.get? hget)]
      exact Ty.beq_refl _

end Composite

/-! ## Under the type parameters of an overload -/

/-- Names that are left out are not mapped. -/
theorem image?_without {names : List String} {x : FreeVar} :
    (s.without names).image? x = if (∃ name ∈ names, x = .var name) then none else s.image? x := by
  cases x with
  | slot p => rw [if_neg (by simp)]; rfl
  | var x => simp only [image?, get?_without, FreeVar.var.injEq, exists_eq_right']

/-- The type parameters of an overload are spared, and nothing else. -/
theorem image?_under_eq_none {s : Subst} {o : Overload} {x : FreeVar} :
    (s.under o).image? x = none ↔
      ((∀ name ∈ o.paramNames, x ≠ .var name) → s.image? x = none) := by
  rw [under, image?_without]
  split
  · rename_i hown
    obtain ⟨name, hname, hx⟩ := hown
    exact iff_of_true rfl fun hfree => absurd hx (hfree name hname)
  · rename_i hfree
    push Not at hfree
    exact ⟨fun hx _ => hx, fun hx => hx hfree⟩

/-- Names that are left out are their own images. -/
theorem imageOf_without {names : List String} {x : FreeVar} :
    (s.without names).imageOf x =
      if (∃ name ∈ names, x = .var name) then x.toTy else s.imageOf x := by
  rw [imageOf, image?_without]
  split <;> rfl

/-- Leaving out names keeps images in normal form. -/
theorem normal_imageOf_without (h : ∀ x, (s.imageOf x).Normal) (names : List String) (x : FreeVar) :
    ((s.without names).imageOf x).Normal := by
  rw [imageOf_without]
  split
  · cases x <;> rfl
  · exact h x

/-- A substitution keeps the frame of an overload. -/
theorem frame_applyOverload (s : Subst) (d : Overload) : (s.applyOverload d).frame = d.frame := by
  unfold Overload.frame applyOverload applyCallable
  rw [Callable.frame_map, List.map_map]
  refine congrArg (Prod.mk d.callable.frame) (List.map_congr_left fun p _ => ?_)
  simp [TypeParam.frame]

/-- A substitution keeps the type parameters of an overload, which others spare. -/
theorem under_applyOverload (s o : Subst) (d : Overload) :
    o.under (s.applyOverload d) = o.under d := by
  rw [under, under, paramNames_applyOverload]

/-- No type parameter of the overload occurs in a value or anchor of the substitution. -/
def Avoids (s : Subst) (d : Overload) : Prop :=
  ∀ name ∈ d.paramNames, (∀ e ∈ s.vars, .var name ∉ e.2.freeVars) ∧
    ∀ p a, s.anchors.get? p = some a → .var name ∉ a.freeVars

/-- What stands for a variable other than the type parameters mentions none of these. -/
theorem Avoids.not_mem {d : Overload} (h : s.Avoids d) {x y : FreeVar}
    (hx : ¬ ∃ name ∈ d.paramNames, x = .var name) (hy : y ∈ (s.imageOf x).occurrences) :
    ¬ ∃ name ∈ d.paramNames, y = .var name := by
  cases himage : s.image? x with
  | none =>
    rw [imageOf_of_image?_none himage, FreeVar.occurrences_toTy] at hy
    rw [List.mem_singleton.mp hy]
    exact hx
  | some t =>
    rw [imageOf_of_image? himage] at hy
    rintro ⟨name, hname, rfl⟩
    have hfree := Ty.mem_freeVars.mpr hy
    cases x with
    | slot p => exact (h name hname).2 p t himage hfree
    | var x => exact (h name hname).1 (x, t) (Keyed.mem_of_get? himage) hfree

/-- Under the type parameters of an overload that the first substitution avoids, the composite still
maps as both substitutions do. -/
theorem beq_imageOf_under (hs : s.Normal) (ho : o.Normal) {d : Overload} (havoid : s.Avoids d)
    (h : ∀ x, (m.imageOf x).Normal)
    (hm : ∀ x, (m.imageOf x == o.replace (s.imageOf x)) = true) (x : FreeVar) :
    ((m.under d).imageOf x == (o.under d).replace ((s.under d).imageOf x)) = true := by
  unfold under
  by_cases hx : ∃ name ∈ d.paramNames, x = .var name
  · rw [imageOf_without, imageOf_without, if_pos hx, if_pos hx, replace_toTy,
      imageOf_without, if_pos hx]
    exact Ty.beq_refl _
  · rw [imageOf_without, imageOf_without, if_neg hx, if_neg hx]
    have himage := (hs.imageOf x).wellFormed
    have hinner : (o.replace (s.imageOf x) ==
        (o.without d.paramNames).replace (s.imageOf x)) = true := by
      refine beq_replace himage (fun y _ => (ho.imageOf y).wellFormed)
        (fun y _ => (normal_imageOf_without ho.imageOf _ y).wellFormed) fun y hy => ?_
      rw [imageOf_without, if_neg (havoid.not_mem hx hy)]
      exact Ty.beq_refl _
    have hleft := wellFormed_replace himage fun y _ => (ho.imageOf y).wellFormed
    have hright := wellFormed_replace himage fun y _ =>
      (normal_imageOf_without ho.imageOf d.paramNames y).wellFormed
    exact Ty.beq_trans (h x).wellFormed hleft hright (hm x) hinner

/-! ## The composite acts as both -/

/-- The composite of two substitutions.  It fails, with a clash, exactly if they map a variable to
types of which the second does not make one.  If the second leaves the anchors of the first alone,
the composite acts as the first and then the second. -/
theorem andThen_sequential (hs : s.Normal) (ho : o.Normal) :
    (∀ e, s.andThen o = .error e → ∃ x t u, Clash s o x t u ∧ e = .clash x (o.apply t) u) ∧
    ((∃ x t u, Clash s o x t u) → ∃ e, s.andThen o = .error e) ∧
    ∀ m, s.andThen o = .ok m → (∀ p a, s.anchors.get? p = some a → (o.apply a == a) = true) →
      (∀ t : Ty, t.Normal → (m.apply t == o.apply (s.apply t)) = true) ∧
      ∀ d : Overload, d.Normal → s.Avoids d →
        (m.applyOverload d == o.applyOverload (s.applyOverload d)) = true := by
  refine ⟨fun e he => ?_, ?_, fun m hm hanchors => ?_⟩
  · rcases andThen_cases (s := s) ho.sorted with ⟨m, hm, -⟩ | ⟨x, t, u, hclash, herror⟩
    · cases he.symm.trans hm
    · exact ⟨x, t, u, hclash, Except.error.inj (he.symm.trans herror)⟩
  · rintro ⟨x, t, u, hclash⟩
    rcases andThen_cases (s := s) ho.sorted with ⟨m, -, -, -, hnone⟩ | ⟨y, v, w, -, herror⟩
    · exact absurd hclash (hnone x t u)
    · exact ⟨_, herror⟩
  · have hnormal := normal_imageOf_andThen hs ho hm
    have himages := beq_imageOf_andThen hs ho hm hanchors
    refine ⟨fun t ht => beq_apply_apply ht hs.imageOf ho.imageOf hnormal himages,
      fun d hd havoid => ?_⟩
    rw [Overload.beq_iff]
    refine ⟨by rw [frame_applyOverload, frame_applyOverload, frame_applyOverload], ?_⟩
    rw [types_applyOverload, types_applyOverload, types_applyOverload, under_applyOverload,
      List.map_map]
    unfold Ty.AllEqual
    rw [List.forall₂_map_left_iff, List.forall₂_map_right_iff, List.forall₂_same]
    intro t ht
    exact beq_apply_apply (hd t ht) (normal_imageOf_without hs.imageOf _)
      (normal_imageOf_without ho.imageOf _) (normal_imageOf_without hnormal _)
      (beq_imageOf_under hs ho havoid hnormal himages)

/-- A substitution for a variable and the receiver. -/
def toOptional : Subst where
  vars := [("T", .union [.var "U", .nil])]
  anchors := { selfType := some .bool }

/-- A substitution that agrees with it on the common variable, up to the order of the members. -/
def toNilOrTop : Subst where
  vars := [("T", .union [.nil, .top]), ("U", .top)]

/-- A composition that puts in an optional type. -/
theorem toOptional_andThen_toNilOrTop :
    let d : Overload :=
      { typeParams := [{ name := "V" }]
        callable := ⟨⟨{ required := [.var "V"] }, .var "T"⟩, none⟩ }
    (∃ m, toOptional.andThen toNilOrTop = .ok m ∧
      (m.apply (.tuple [.var "T", .slot .selfType]) ==
        toNilOrTop.apply (toOptional.apply (.tuple [.var "T", .slot .selfType]))) = true ∧
      (m.applyOverload d == toNilOrTop.applyOverload (toOptional.applyOverload d)) = true) ∧
    ∃ e, toOptional.andThen { vars := [("T", .nil)] } = .error e := by
  intro d
  have hfirst : toOptional.Normal := ⟨by decide, by decide, by rintro (_ | _ | _) t ⟨⟩; rfl⟩
  have hsecond : toNilOrTop.Normal := ⟨by decide, by decide, by rintro (_ | _ | _) t ⟨⟩⟩
  have hclash : Normal { vars := [("T", .nil)] } :=
    ⟨by decide, by decide, by rintro (_ | _ | _) t ⟨⟩⟩
  have havoid : toOptional.Avoids d := by
    intro name hname
    obtain rfl := List.mem_singleton.mp hname
    exact ⟨by decide, by rintro (_ | _ | _) t ⟨⟩; decide⟩
  refine ⟨⟨_, rfl, ?_⟩, (andThen_sequential hfirst hclash).2.1 ⟨"T", _, _, rfl, rfl, by decide⟩⟩
  obtain ⟨htypes, hoverloads⟩ := (andThen_sequential hfirst hsecond).2.2 _ rfl
    (by rintro (_ | _ | _) t ⟨⟩; rfl)
  exact ⟨htypes _ (by decide), hoverloads d (by decide) havoid⟩

end Subst
end TypeShape
