import TypeShape.Proofs.Search.Receiver

/-!
# Generic names without arguments

Where ancestors and subtypes are concerned, a missing type argument is `untyped`.  The shape of a
generic name without arguments keeps the type parameters instead, as free variables.  It becomes the
shape of the application to `untyped` when these are replaced, and so the two have the same methods
only if no method mentions a type parameter.

Main results:

- Theorem `Subst.applyOverload_anchored`: variables can be replaced after the anchors.
- Theorem `Subst.Erases.beq_applyOverload_iff`: when an overload stays the same.
- Theorem `Search.Query.bare_name_keeps_params`: the shapes of a generic name without arguments and
  of its application to `untyped`.
-/

namespace TypeShape

/-! ## Variables after anchors -/

/-- Anchors in normal form that mention nothing that could be replaced. -/
def Anchors.Ground (anchors : Anchors) : Prop :=
  ∀ p t, anchors.get? p = some t → t.Normal ∧ ∀ x, x ∉ t.occurrences

namespace Subst

/-- A substitution with anchors is not empty under the parameters of an overload either. -/
theorem isEmpty_under {s : Subst} (h : s.anchors.isEmpty = false) (d : Overload) :
    (s.under d).isEmpty = false := by
  rw [isEmpty, Bool.and_eq_false_iff]
  exact Or.inr h

/-- A substitution that is not empty replaces. -/
theorem apply_of_isEmpty_eq_false {s : Subst} (h : s.isEmpty = false) (t : Ty) :
    s.apply t = s.replace t := by
  rw [apply, h]
  rfl

/-- Ground anchors can be put in before the variables. -/
theorem imageOf_anchored {vars : List (String × Ty)} {anchors : Anchors} (hground : anchors.Ground)
    (d : Overload) (x : FreeVar) :
    ((Subst.mk vars anchors).under d).imageOf x =
      ((Subst.mk vars {}).under d).replace ((ofAnchors anchors).imageOf x) := by
  cases x with
  | var x => rfl
  | slot p =>
    rw [imageOf, imageOf]
    change (anchors.get? p).getD (.slot p) = replace _ ((anchors.get? p).getD (.slot p))
    cases ha : anchors.get? p with
    | none => cases p <;> rfl
    | some a =>
      obtain ⟨ha, hnone⟩ := hground p a ha
      exact (replace_eq_self ha fun x hx => absurd hx (hnone x)).symm

/-- Variables can be replaced together with the anchors or after them, if no anchor mentions any. -/
theorem applyOverload_anchored {s : Subst} (hs : s.anchors = {})
    (hnormal : ∀ x, (s.imageOf x).Normal) {anchors : Anchors} (hground : anchors.Ground)
    (d : Overload) :
    (Subst.mk s.vars anchors).applyOverload d =
      s.applyOverload ((Subst.ofAnchors anchors).applyOverload d) := by
  obtain ⟨vars, _⟩ := s
  subst hs
  refine applyOverload_applyOverload fun t ht => ?_
  have hinner : (ofAnchors anchors).under d = ofAnchors anchors := without_ofAnchors _ _
  -- Without anchors the first substitution is empty, and such a one does not even bring a type into
  -- normal form.
  cases hempty : anchors.isEmpty with
  | true =>
    obtain rfl : anchors = {} := by
      obtain ⟨_ | _, _ | _, _ | _⟩ := anchors <;> first | rfl | cases hempty
    rw [hinner]
    rfl
  | false =>
    have hanchored : ∀ x, ((ofAnchors anchors).imageOf x).Normal :=
      Search.normal_imageOf_anchors (by rintro x t ⟨⟩) fun p t hp => (hground p t hp).1
    calc ((Subst.mk vars anchors).under d).apply t
        = ((Subst.mk vars anchors).under d).replace t :=
          apply_of_isEmpty_eq_false (isEmpty_under hempty d) t
      _ = ((Subst.mk vars {}).under d).replace ((ofAnchors anchors).replace t) :=
          replace_replace hanchored (normal_imageOf_without hnormal _)
            fun x _ => imageOf_anchored hground d x
      _ = ((Subst.mk vars {}).under d).apply ((ofAnchors anchors).replace t) :=
          (apply_eq_replace (normal_replace_of_images fun x _ => hanchored x)).symm
      _ = ((Subst.mk vars {}).under d).apply (((ofAnchors anchors).under d).apply t) := by
          rw [apply_of_isEmpty_eq_false (isEmpty_under (s := ofAnchors anchors) hempty d), hinner]

end Subst

/-! ## Erasing variables -/

namespace Subst

/-- Everything that is replaced becomes `untyped`. -/
def Erases (s : Subst) : Prop :=
  ∀ x t, s.image? x = some t → t = .untyped

namespace Erases

variable {s : Subst} (h : s.Erases)

include h

/-- What erases does so under the parameters of an overload. -/
theorem under (d : Overload) : (s.under d).Erases := by
  intro x t ht
  rw [Subst.under, image?_without] at ht
  split at ht
  · cases ht
  · exact h x t ht

/-- A type stays the same only if nothing in it is replaced. -/
theorem beq_apply_iff {t : Ty} (ht : t.Normal) :
    (t == s.apply t) = true ↔ ∀ x ∈ t.occurrences, s.image? x = none := by
  constructor
  · intro hbeq x hx
    obtain ⟨y, -, hy⟩ := mem_occurrences_of_apply (Ty.mem_occurrences_of_beq hbeq hx)
    cases himage : s.image? y with
    | none =>
      rw [imageOf_of_image?_none himage, FreeVar.occurrences_toTy, List.mem_singleton] at hy
      rwa [hy]
    | some u =>
      obtain rfl := h y u himage
      rw [imageOf_of_image? himage] at hy
      cases hy
  · intro hnone
    rw [apply_eq_self ht fun x hx => imageOf_of_image?_none (hnone x hx)]
    exact Ty.beq_refl t

/-- An overload stays the same only if none of its free variables is replaced. -/
theorem beq_applyOverload_iff {o : Overload} (ho : o.Normal) :
    (o == s.applyOverload o) = true ↔ ∀ x ∈ o.freeVars, s.image? x = none := by
  have htypes : (o == s.applyOverload o) = true ↔
      ∀ t ∈ o.types, (t == (s.under o).apply t) = true := by
    rw [Overload.beq_iff, frame_applyOverload, types_applyOverload, Ty.AllEqual,
      List.forall₂_map_right_iff, List.forall₂_same]
    exact and_iff_right rfl
  rw [htypes]
  constructor
  · intro hall x hx
    obtain ⟨hocc, hfree⟩ := Overload.mem_freeVars.mp hx
    obtain ⟨t, ht, hocc⟩ := Overload.mem_occurrences.mp hocc
    have hnone := ((h.under o).beq_apply_iff (ho t ht)).mp (hall t ht) x hocc
    exact image?_under_eq_none.mp hnone hfree
  · intro hnone t ht
    refine ((h.under o).beq_apply_iff (ho t ht)).mpr fun x hx =>
      image?_under_eq_none.mpr fun hfree => ?_
    exact hnone x (Overload.mem_freeVars.mpr ⟨Overload.mem_occurrences.mpr ⟨t, ht, hx⟩, hfree⟩)

end Erases

end Subst

namespace Table

/-- Without arguments every parameter is bound to `untyped`. -/
theorem vars_bindParams_nil (params : List TypeParam) :
    (bindParams params []).vars = Keyed.ofList (params.map fun p => (p.name, .untyped)) := by
  rw [bindParams_eq, argsOrUntyped, List.isEmpty_nil, if_pos rfl, if_pos (by simp), List.zip_map']

/-- Every type parameter is `untyped`, and nothing else is replaced. -/
theorem image?_bindParams_nil {params : List TypeParam} {x : FreeVar} {t : Ty} :
    (bindParams params []).image? x = some t ↔ (∃ p ∈ params, x = .var p.name) ∧ t = .untyped := by
  have hmem : ∀ u, (bindParams params []).image? x = some u →
      (∃ p ∈ params, x = .var p.name) ∧ u = .untyped := by
    intro u hu
    cases x with
    | slot p =>
      rw [Subst.image?, anchors_bindParams] at hu
      cases p <;> cases hu
    | var x =>
      rw [Subst.image?, Subst.get?, vars_bindParams_nil] at hu
      have hentry := Keyed.mem_of_mem_ofList (Keyed.mem_of_get? hu)
      obtain ⟨p, hp, heq⟩ := List.mem_map.mp hentry
      obtain ⟨rfl, rfl⟩ := Prod.mk.inj heq
      exact ⟨⟨p, hp, rfl⟩, rfl⟩
  refine ⟨hmem t, ?_⟩
  rintro ⟨⟨p, hp, rfl⟩, rfl⟩
  obtain ⟨u, hu⟩ : ∃ u, (bindParams params []).get? p.name = some u :=
    exists_get?_bindParams (Or.inl rfl) hp
  exact hu.trans (congrArg some (hmem u hu).2)

/-- So binding no arguments erases. -/
theorem erases_bindParams_nil (params : List TypeParam) : (bindParams params []).Erases :=
  fun _ _ ht => (image?_bindParams_nil.mp ht).2

/-- It leaves all variables alone but the parameters. -/
theorem image?_bindParams_nil_eq_none {params : List TypeParam} {x : FreeVar} :
    (bindParams params []).image? x = none ↔ ∀ p ∈ params, x ≠ .var p.name := by
  rw [Option.eq_none_iff_forall_ne_some]
  constructor
  · intro hnone p hp hx
    exact hnone .untyped (image?_bindParams_nil.mpr ⟨⟨p, hp, hx⟩, rfl⟩)
  · intro hne t ht
    obtain ⟨⟨p, hp, hx⟩, -⟩ := image?_bindParams_nil.mp ht
    exact hne p hp hx

end Table

/-! ## Methods that stay the same -/

/-- A list is equal to its image if each element is. -/
theorem beq_map_iff {α : Type} [BEq α] {f : α → α} {l : List α} :
    (l == l.map f) = true ↔ ∀ a ∈ l, (a == f a) = true := by
  induction l with
  | nil => simp
  | cons a l ih =>
    rw [List.map_cons, List.cons_beq_cons, Bool.and_eq_true, ih, List.forall_mem_cons]

/-- Methods stay the same only if none of their free variables is replaced. -/
theorem Shape.beq_methods_subst_iff {base : Shape} {s : Subst}
    (hbase : ∀ m ∈ base.methods, ∀ o ∈ m.2.overloads, o.Normal) (hs : s.Erases)
    (label : Option Ty) :
    (base.methods == (base.subst s label).methods) = true ↔
      ∀ m ∈ base.methods, ∀ o ∈ m.2.overloads, ∀ x ∈ o.freeVars, s.image? x = none := by
  rw [subst, beq_map_iff]
  refine forall₂_congr fun m hm => ?_
  change (m.1 == m.1 && (m.2.overloads == m.2.overloads.map s.applyOverload &&
    m.2.isPrivate == m.2.isPrivate)) = true ↔ _
  rw [BEq.rfl, BEq.rfl, Bool.true_and, Bool.and_true, beq_map_iff]
  exact forall₂_congr fun o ho => hs.beq_applyOverload_iff (hbase m hm o ho)

namespace Search

variable {T : Table}

/-- The arguments that are `untyped` are those that are put in for missing ones elsewhere. -/
theorem returns_argumentSubst_untyped {name : TypeName} {decl : ModuleDecl}
    (h : T.module? name = some decl) :
    Returns T (argumentSubst T name (decl.typeParams.map fun _ => .untyped))
      (.ok (Table.bindParams decl.typeParams [])) := by
  have hparams : T.paramsOf name = .ok decl.typeParams := by
    rw [Table.paramsOf, h]
  unfold argumentSubst
  split
  · rename_i hnil
    have hnone : decl.typeParams = [] := by simpa using hnil
    rw [hnone]
    exact .pure _
  · rw [hparams]
    refine (Returns.pure _).bind ?_
    have hlists : Subst.ofLists (decl.typeParams.map (·.name))
        (decl.typeParams.map fun _ => .untyped) {} = .ok (Table.bindParams decl.typeParams []) := by
      rw [Table.bindParams_eq, Subst.ofLists, Table.argsOrUntyped]
      simp
    rw [hlists]
    exact .pure _

/-- Binding no arguments is binding as many untyped ones. -/
theorem binds_bindParams_nil {name : TypeName} {decl : ModuleDecl}
    (h : T.module? name = some decl) :
    Binds (decl.typeParams.map fun _ => .untyped) (Table.bindParams decl.typeParams []) := by
  have hreturns := returns_argumentSubst_untyped h
  rcases argumentSubst_cases (T := T) name (decl.typeParams.map fun _ => .untyped) with
    ⟨e, hr, -⟩ | ⟨app, hr, -, hbinds⟩
  · cases hr.unique hreturns
  · obtain rfl := Except.ok.inj (hr.unique hreturns)
    exact hbinds

/-- Without parameters nothing is bound. -/
theorem binds_nil : Binds [] .empty :=
  ⟨List.Pairwise.nil, rfl, by rintro x t ⟨⟩⟩

/-- The anchors of a class are ground. -/
theorem ground_classAnchors (T : Table) (name : TypeName) : (classAnchors T name).Ground := by
  intro p t ht
  cases p with
  | selfType => cases ht
  | classType =>
    obtain rfl := Option.some.inj ht
    exact ⟨rfl, by simp [Ty.occurrences]⟩
  | instanceType =>
    obtain rfl := Option.some.inj ht
    refine ⟨Table.normal_untypedInstance name, fun x hx => ?_⟩
    obtain ⟨u, hu, hx⟩ := (Ty.mem_occurrences_of_isRigid rfl).mp hx
    obtain ⟨param, -, rfl⟩ := List.mem_map.mp hu
    cases hx

/-- Without arguments the parameters stay, and they are all that is left to replace. -/
theorem corresponds_bare {name : TypeName} {decl : ModuleDecl} (hdecl : T.module? name = some decl)
    {anchors : Anchors} {label label' : Option Ty} (hground : anchors.Ground) :
    Corresponds T (fun bare full =>
        full.methods = (bare.subst (Table.bindParams decl.typeParams []) none).methods ∧
        (T.Normal → ((bare.methods == full.methods) = true ↔
          ∀ m ∈ bare.methods, ∀ o ∈ m.2.overloads, ∀ p ∈ decl.typeParams,
            .var p.name ∉ o.freeVars)))
      (applied T name [] (.ofAnchors anchors) label)
      (applied T name (decl.typeParams.map fun _ => .untyped) (.ofAnchors anchors) label') := by
  refine corresponds_applied (.pure _) binds_nil (returns_argumentSubst_untyped hdecl)
    (binds_bindParams_nil hdecl) rfl rfl fun methods hm => ?_
  have himage : ∀ x, ((Table.bindParams decl.typeParams []).imageOf x).Normal :=
    Ty.setTest_normalHere.bindParams (by simp)
  let bare := (shapeOfMethods .bot methods).subst (.ofAnchors anchors) label
  let full := (shapeOfMethods .bot methods).subst
    ⟨(Table.bindParams decl.typeParams []).vars, anchors⟩ label'
  have hmethods : full.methods = (bare.subst (Table.bindParams decl.typeParams []) none).methods :=
    Shape.methods_subst_subst (fun _ _ d _ =>
      Subst.applyOverload_anchored (Table.anchors_bindParams _ _) himage hground d) _ _ _
  refine ⟨hmethods, fun hT => ?_⟩
  have hnormal : ((shapeOfMethods .bot methods).subst (.ofAnchors anchors) none).Normal :=
    (normal_instances hT hm).subst
      (normal_imageOf_anchors (by rintro x t ⟨⟩) fun p t ht => (hground p t ht).1) (by rintro t ⟨⟩)
  have hbare : ∀ m ∈ bare.methods, ∀ o ∈ m.2.overloads, o.Normal := hnormal.methods
  change (bare.methods == full.methods) = true ↔ _
  rw [hmethods, Shape.beq_methods_subst_iff hbare (Table.erases_bindParams_nil _)]
  refine forall₂_congr fun m _ => forall₂_congr fun o _ => ?_
  simp only [Table.image?_bindParams_nil_eq_none]
  constructor
  · intro h p hp hfree
    exact h _ hfree p hp rfl
  · rintro h x hfree p hp rfl
    exact h p hp hfree

namespace Query

/-- A generic name without arguments and its application to `untyped` have shapes or the same error.
The shape of the name has the type parameters where that of the application has `untyped`.  So, if
all declarations are in normal form, the methods are equal exactly if none of them mentions a type
parameter. -/
theorem bare_name_keeps_params {name : TypeName} {decl : ModuleDecl}
    (hdecl : T.module? name = some decl) {kind : Nominal} (hkind : kind ≠ .aliasOf) :
    ∃ r r', fresh T (.shapeAsSelf (.named kind name []) .empty) = some r ∧
      fresh T (.shapeAsSelf (.named kind name (decl.typeParams.map fun _ => .untyped)) .empty) =
        some r' ∧
      ExceptRel (fun bare? full? => ∃ bare full : Shape, bare? = some bare ∧ full? = some full ∧
        full.methods = (bare.subst (Table.bindParams decl.typeParams []) none).methods ∧
        (T.Normal → ((bare.methods == full.methods) = true ↔
          ∀ m ∈ bare.methods, ∀ o ∈ m.2.overloads, ∀ p ∈ decl.typeParams,
            .var p.name ∉ o.freeVars))) r r' := by
  refine fresh_of_corresponds rfl rfl ?_
  cases kind with
  | aliasOf => exact absurd rfl hkind
  | instanceOf =>
    refine (corresponds_bare hdecl (ground_classAnchors T name)).map ?_
    exact fun bare full h => ⟨bare, full, rfl, rfl, h⟩
  | interfaceOf =>
    have hground : Anchors.Ground {} := by
      rintro (_ | _ | _) t ⟨⟩
    refine (corresponds_bare hdecl hground).map ?_
    exact fun bare full h => ⟨bare, full, rfl, rfl, h⟩

/-- A generic class whose method returns the type parameter, and a generic interface whose method
has a type parameter of its own by that name. -/
def generics : Table where
  modules := [
    (⟨"::Box"⟩, { name := ⟨"::Box"⟩, kind := .classDecl, typeParams := [{ name := "T" }],
                  members := [{ name := "m", overloads := [⟨[], ⟨⟨{}, .var "T"⟩, none⟩, []⟩] }] }),
    (⟨"::_Tag"⟩, { name := ⟨"::_Tag"⟩, kind := .interfaceDecl, typeParams := [{ name := "T" }],
                   members := [{ name := "m", overloads := [
                     ⟨[{ name := "T" }], ⟨⟨{ required := [.var "T"] }, .var "T"⟩, none⟩, []⟩] }] })]

/-- The method of a name with such a signature. -/
def methodOf (name : TypeName) (typeParams : List TypeParam) (params : List Ty) (result : Ty) :
    List (String × Entry) :=
  [("m", .ofPublic [⟨typeParams, ⟨⟨{ required := params }, result⟩, none⟩,
    [⟨⟨.ofInstances, name, "m"⟩, name⟩]⟩])]

/-- A generic class and a generic interface, by their bare names and with arguments. -/
theorem bare_names_of_generics :
    let box : List Ty → Ty := .named .instanceOf ⟨"::Box"⟩
    let tag : List Ty → Ty := .named .interfaceOf ⟨"::_Tag"⟩
    generics.Normal ∧
    (∃ bare full : Shape, fresh generics (.shapeAsSelf (box []) .empty) = some (.ok (some bare)) ∧
      fresh generics (.shapeAsSelf (box [.untyped]) .empty) = some (.ok (some full)) ∧
      bare.methods = methodOf ⟨"::Box"⟩ [] [] (.var "T") ∧
      full.methods = methodOf ⟨"::Box"⟩ [] [] .untyped ∧
      (bare.methods == full.methods) = false) ∧
    ∃ bare full : Shape, fresh generics (.shapeAsSelf (tag []) .empty) = some (.ok (some bare)) ∧
      fresh generics (.shapeAsSelf (tag [.untyped]) .empty) = some (.ok (some full)) ∧
      bare.methods = methodOf ⟨"::_Tag"⟩ [{ name := "T" }] [.var "T"] (.var "T") ∧
      (bare.methods == full.methods) = true := by
  intro box tag
  have hnormal : generics.Normal := ⟨by decide, by decide, by decide⟩
  have hbox : fresh generics (.shapeAsSelf (box []) .empty) =
      some (.ok (some ⟨box [], methodOf ⟨"::Box"⟩ [] [] (.var "T")⟩)) :=
    fresh_of_within (n := 1) (r := .ok (some _)) rfl
  have htag : fresh generics (.shapeAsSelf (tag []) .empty) =
      some (.ok (some ⟨tag [], methodOf ⟨"::_Tag"⟩ [{ name := "T" }] [.var "T"] (.var "T")⟩)) :=
    fresh_of_within (n := 1) (r := .ok (some _)) rfl
  refine ⟨hnormal, ?_, ?_⟩
  · have hdecl : generics.module? ⟨"::Box"⟩ = some _ := rfl
    have hkind : Nominal.instanceOf ≠ .aliasOf := by decide
    obtain ⟨r, r', hr, hr', hends⟩ := bare_name_keeps_params hdecl hkind
    obtain rfl := Option.some.inj (hbox.symm.trans hr)
    cases hends with
    | ok h =>
      obtain ⟨bare, full, hbare, rfl, hmethods, hiff⟩ := h
      obtain rfl := Option.some.inj hbare
      refine ⟨_, full, hbox, hr', rfl, hmethods.trans rfl, Bool.eq_false_iff.mpr fun hbeq => ?_⟩
      exact (hiff hnormal).mp hbeq _ List.mem_cons_self _ List.mem_cons_self _ List.mem_cons_self
        (by decide)
  · have hdecl : generics.module? ⟨"::_Tag"⟩ = some _ := rfl
    have hkind : Nominal.interfaceOf ≠ .aliasOf := by decide
    obtain ⟨r, r', hr, hr', hends⟩ := bare_name_keeps_params hdecl hkind
    obtain rfl := Option.some.inj (htag.symm.trans hr)
    cases hends with
    | ok h =>
      obtain ⟨bare, full, hbare, rfl, -, hiff⟩ := h
      obtain rfl := Option.some.inj hbare
      exact ⟨_, full, htag, hr', rfl, (hiff hnormal).mpr (by decide)⟩

end Query
end Search
end TypeShape
