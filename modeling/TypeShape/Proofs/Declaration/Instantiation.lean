import TypeShape.Proofs.Declaration.Members
import TypeShape.Proofs.Declaration.Reachability
import TypeShape.Proofs.Types.Sequence

/-!
# Instantiating a declaration and its ancestors

The ancestors of a generic declaration are found once, in terms of its own type parameters.  To
replace these in the result afterwards is the same as to visit the ancestors of the instance: the
two visits go in step with each other, and what an ancestor is applied to in the one is what it is
applied to in the other, replaced.  The ancestors mention no type variables but the type parameters
of the declaration, so that nothing is left open then.  An alias whose body mentions nothing but its
type parameters can likewise be expanded before or after a replacement.

Main results:

- Theorem `Table.exceptRel_visit`: the visits for an instance and for the declaration itself.
- Theorem `Table.instantiation_commutes`: the same with any names visited before, and what the
  ancestors mention.
- Theorem `Table.expansion_commutes`: expanding an alias before and after a replacement.
-/

namespace TypeShape

/-! ## Substitutions of variables -/

namespace Subst

theorem apply_var (s : Subst) (x : String) : s.apply (.var x) = s.imageOf (.var x) :=
  s.apply_toTy (.var x)

/-- No placeholder is replaced, and what is put in is in normal form. -/
structure OfVars (s : Subst) : Prop where
  anchors : s.anchors = {}
  normal : ∀ x, (s.imageOf x).Normal

theorem ofVars_empty : empty.OfVars :=
  ⟨rfl, Ty.setTest_normalHere.empty⟩

theorem ofVars_bindParams {params : List TypeParam} {args : List Ty} (h : ∀ a ∈ args, a.Normal) :
    (Table.bindParams params args).OfVars :=
  ⟨Table.anchors_bindParams params args, Ty.setTest_normalHere.bindParams h⟩

theorem OfVars.imageOf_slot {s : Subst} (h : s.OfVars) (p : Slot) :
    s.imageOf (.slot p) = .slot p := by
  rw [imageOf, image?, h.anchors]
  cases p <;> rfl

/-- On some variables, the first substitution maps as the second one does, followed by `s`. -/
structure InstanceOn (s : Subst) (names : List String) (σ τ : Subst) : Prop where
  left : σ.OfVars
  right : τ.OfVars
  maps : ∀ x ∈ names, σ.imageOf (.var x) = s.replace (τ.imageOf (.var x))

theorem InstanceOn.replace_eq {s σ τ : Subst} {names : List String} (h : InstanceOn s names σ τ)
    (hs : s.OfVars) {t : Ty} (ht : ∀ x, .var x ∈ t.occurrences → x ∈ names) :
    σ.replace t = s.replace (τ.replace t) := by
  refine replace_replace h.right.normal hs.normal fun x hx => ?_
  cases x with
  | slot p =>
    rw [h.left.imageOf_slot, h.right.imageOf_slot]
    exact (hs.imageOf_slot p).symm
  | var x => exact h.maps x (ht x hx)

/-- Replaces one variable by a type without variables. -/
def grounding (y : String) : Subst where
  vars := [(y, .nil)]

theorem imageOf_grounding (y : String) (x : FreeVar) :
    (grounding y).imageOf x = if x = .var y then .nil else x.toTy := by
  cases x with
  | slot p => cases p <;> rfl
  | var x =>
    by_cases hx : y = x
    · simp [grounding, imageOf, image?, get?, Keyed.get?, hx]
    · simp [grounding, imageOf, image?, get?, Keyed.get?, hx, Ne.symm hx]

theorem ofVars_grounding (y : String) : (grounding y).OfVars where
  anchors := rfl
  normal x := by
    rw [imageOf_grounding]
    split
    · rfl
    · cases x <;> rfl

theorem not_mem_occurrences_grounding (y : String) (t : Ty) :
    .var y ∉ ((grounding y).apply t).occurrences := by
  intro hy
  obtain ⟨z, -, hz⟩ := mem_occurrences_of_apply hy
  rw [imageOf_grounding] at hz
  split at hz
  · cases hz
  · rename_i hne
    rw [FreeVar.occurrences_toTy, List.mem_singleton] at hz
    exact hne hz.symm

end Subst

/-- An ancestor in the visit for an instance, and the same one in the visit for the declaration:
what its type parameters stand for is replaced. -/
structure Ancestor.InstanceOf (s : Subst) (a b : Ancestor) : Prop where
  name : a.name = b.name
  decl : a.decl = b.decl
  args : ∀ p ∈ b.decl.typeParams,
    a.subst.apply (.var p.name) = s.apply (b.subst.apply (.var p.name))

/-- The names of its type parameters. -/
def ModuleDecl.paramNames (d : ModuleDecl) : List String :=
  d.typeParams.map (·.name)

namespace Table

/-- Every direct ancestor is the application of a class, module or interface to no arguments or to
as many as it declares, and mentions no type variables but the type parameters of its owner. -/
structure ParentsInScope (T : Table) : Prop where
  applied : ∀ e ∈ T.modules, ∀ t ∈ e.2.parents, ∃ kind name args, t = .named kind name args ∧
    kind ≠ .aliasOf ∧
    (args = [] ∨ ∀ decl, T.module? name = some decl → args.length = decl.typeParams.length)
  mentions : ∀ e ∈ T.modules, ∀ t ∈ e.2.parents, ∀ x, .var x ∈ t.freeVars → x ∈ e.2.paramNames

variable {T : Table} {s : Subst}

theorem instanceOn_bindParams {params : List TypeParam} {args args' : List Ty}
    (hlen : args' = [] ∨ args'.length = params.length) (hnormal : ∀ a ∈ args, a.Normal)
    (hnormal' : ∀ a ∈ args', a.Normal)
    (h : List.Forall₂ (fun a b => a = s.replace b) args args') :
    s.InstanceOn (params.map (·.name)) (bindParams params args) (bindParams params args') where
  left := Subst.ofVars_bindParams hnormal
  right := Subst.ofVars_bindParams hnormal'
  maps x hx := by
    obtain ⟨p, hp, rfl⟩ := List.mem_map.mp hx
    obtain ⟨u, hu⟩ := exists_get?_bindParams hlen hp
    have hbound := bindParams_rel (R := fun a b => a = s.replace b) rfl params h
    have hrel := Keyed.get?_rel hbound p.name
    rw [show Keyed.get? p.name (bindParams params args').vars = some u from hu] at hrel
    generalize ht : Keyed.get? p.name (bindParams params args).vars = t at hrel
    cases hrel with
    | some htu =>
      rw [Subst.imageOf_of_image? (x := .var p.name) ht,
        Subst.imageOf_of_image? (x := .var p.name) hu]
      exact htu

/-! ## Two visits in step -/

/-- Chains with a common beginning, after which one has instances of the ancestors of the other. -/
def InStep (s : Subst) (start c c' : List Ancestor) : Prop :=
  ∃ added added', c = start ++ added ∧ c' = start ++ added' ∧
    List.Forall₂ (Ancestor.InstanceOf s) added added'

theorem InStep.refl (s : Subst) (start : List Ancestor) : InStep s start start start :=
  ⟨[], [], by simp, by simp, .nil⟩

theorem InStep.visitedNames_eq {start c c' : List Ancestor} (h : InStep s start c c') :
    visitedNames c = visitedNames c' := by
  obtain ⟨added, added', rfl, rfl, hadded⟩ := h
  unfold visitedNames
  rw [List.map_append, List.map_append]
  congr 1
  induction hadded with
  | nil => rfl
  | cons hab _ ih => rw [List.map_cons, List.map_cons, hab.name, ih]

theorem InStep.push {start c c' : List Ancestor} (h : InStep s start c c') {a b : Ancestor}
    (hab : a.InstanceOf s b) : InStep s start (c ++ [a]) (c' ++ [b]) := by
  obtain ⟨added, added', rfl, rfl, hadded⟩ := h
  refine ⟨added ++ [a], added' ++ [b], by simp, by simp, ?_⟩
  exact List.rel_append hadded (.cons hab .nil)

theorem visitParent_named
    (visit : TypeName → Subst → List Ancestor → Except DeclError (List Ancestor))
    (chain : List Ancestor) {kind : Nominal} (hkind : kind ≠ .aliasOf) {name : TypeName}
    {args : List Ty} :
    T.visitParent visit chain (.named kind name args) =
      T.fetch name >>= fun decl => visit name (bindParams decl.typeParams args) chain := by
  cases kind with
  | aliasOf => exact absurd rfl hkind
  | instanceOf => rfl
  | interfaceOf => rfl

/-- A visit for an instance goes in step with the visit for the declaration itself. -/
theorem exceptRel_visit (hT : T.Normal) (hscope : T.ParentsInScope) (hs : s.OfVars) {depth : Nat}
    {name : TypeName} {σ τ : Subst} {start c c' : List Ancestor} (hchain : InStep s start c c')
    (hστ : ∀ decl, T.module? name = some decl → s.InstanceOn decl.paramNames σ τ) :
    ExceptRel (InStep s start) (T.visit depth name σ c) (T.visit depth name τ c') := by
  induction depth generalizing name σ τ c c' with
  | zero => exact .ok hchain
  | succ depth ih =>
    have hseen : c.any (·.name == name) = c'.any (·.name == name) := by
      rw [Bool.eq_iff_iff, ← mem_visitedNames_iff, ← mem_visitedNames_iff, hchain.visitedNames_eq]
    unfold visit
    rw [hseen]
    split
    · exact .ok hchain
    · refine .bind fun decl hfetch => ?_
      have hdecl := fetch_eq_ok.mp hfetch
      have hmem := Keyed.mem_of_get? hdecl
      have hinst := hστ decl hdecl
      have hself : Ancestor.InstanceOf s ⟨name, decl, σ⟩ ⟨name, decl, τ⟩ := by
        refine ⟨rfl, rfl, fun p hp => ?_⟩
        rw [Subst.apply_var, Subst.apply_var, Subst.apply_eq_replace (hinst.right.normal _)]
        exact hinst.maps p.name (List.mem_map_of_mem hp)
      refine .foldlM (fun t ht b b' hb => ?_) (hchain.push hself)
      obtain ⟨kind, parent, args, rfl, hkind, hargs⟩ := hscope.applied _ hmem t ht
      have hnormal := hT.parents _ hmem _ ht
      have hpart : ∀ a ∈ args, a.Normal := fun a ha => hnormal.part ha
      rw [Subst.apply_eq_replace hnormal, Subst.apply_eq_replace hnormal]
      simp only [Subst.replace, Subst.replaceList_eq_map, visitParent_named _ _ hkind]
      refine .bind fun decl' hfetch' => ih hb fun d hd => ?_
      obtain rfl := Option.some.inj (hd.symm.trans (fetch_eq_ok.mp hfetch'))
      refine instanceOn_bindParams ?_ (Subst.normal_map_replace hinst.left.normal hpart)
        (Subst.normal_map_replace hinst.right.normal hpart) ?_
      · rcases hargs with rfl | hlen
        · exact Or.inl rfl
        · exact Or.inr (by rw [List.length_map, hlen d hd])
      · rw [List.forall₂_map_left_iff, List.forall₂_map_right_iff, List.forall₂_same]
        refine fun a ha => hinst.replace_eq hs fun x hx => hscope.mentions _ hmem _ ht x ?_
        exact Ty.mem_freeVars.mpr (Ty.mem_occurrences_of_part ha hx)

/-! ## What ancestors mention -/

/-- What an ancestor is applied to mentions only the type parameters of the declaration.  Any other
variable could be replaced without a change: the visit goes in step with itself. -/
theorem mentions_lineage (hT : T.Normal) (hscope : T.ParentsInScope) {name : TypeName}
    {decl : ModuleDecl} (hdecl : T.module? name = some decl) {chain : List Ancestor}
    (h : T.lineage name = .ok chain) {a : Ancestor} (ha : a ∈ chain) {p : TypeParam}
    (hp : p ∈ a.decl.typeParams) {y : String}
    (hy : .var y ∈ (a.subst.apply (.var p.name)).occurrences) : y ∈ decl.paramNames := by
  by_contra hout
  have hself : ∀ d, T.module? name = some d →
      (Subst.grounding y).InstanceOn d.paramNames .empty .empty := by
    intro d hd
    obtain rfl := Option.some.inj (hdecl.symm.trans hd)
    refine ⟨Subst.ofVars_empty, Subst.ofVars_empty, fun x hx => ?_⟩
    have hne : FreeVar.var x ≠ .var y := fun heq => hout (FreeVar.var.inj heq ▸ hx)
    rw [Subst.imageOf_of_isEmpty rfl, Subst.replace_toTy, Subst.imageOf_grounding, if_neg hne]
  have hends : ExceptRel (InStep (Subst.grounding y) []) (T.lineage name) (T.lineage name) :=
    exceptRel_visit hT hscope (Subst.ofVars_grounding y) (InStep.refl _ []) hself
  rw [h] at hends
  cases hends with
  | ok hstep =>
    obtain ⟨added, added', hleft, hright, hrel⟩ := hstep
    obtain rfl : added = chain := hleft.symm
    obtain rfl : added' = added := hright.symm
    have hsame := (List.forall₂_same.mp hrel a ha).args p hp
    rw [hsame] at hy
    exact Subst.not_mem_occurrences_grounding y _ hy

/-! ## Instances of declarations -/

/-- Visiting the ancestors of an instance of a declaration and visiting those of the declaration
itself fail alike, or bring up the same names in the same order, whatever was visited before; and
what an ancestor is applied to for the instance is what it is applied to for the declaration, with
the substitution carried out.  The ancestors of a declaration mention no type variables but its own
type parameters. -/
theorem instantiation_commutes (hT : T.Normal) (hscope : T.ParentsInScope) (name : TypeName) :
    (∀ s : Subst, s.Normal → s.anchors = {} → ∀ (depth : Nat) (chain : List Ancestor),
      ExceptRel (InStep s chain) (T.visit depth name s chain) (T.visit depth name .empty chain)) ∧
    ∀ decl types, T.module? name = some decl → T.ancestorTypes name = .ok types →
      ∀ t ∈ types, ∀ x, .var x ∈ t.freeVars → x ∈ decl.paramNames := by
  constructor
  · intro s hnormal hanchors depth chain
    have hs : s.OfVars := ⟨hanchors, hnormal.imageOf⟩
    refine exceptRel_visit hT hscope hs (InStep.refl s chain) fun decl _ =>
      ⟨hs, Subst.ofVars_empty, fun x _ => ?_⟩
    rw [Subst.imageOf_of_isEmpty (s := .empty) rfl, Subst.replace_toTy]
  · intro decl types hdecl htypes t ht x hx
    obtain ⟨chain, hchain, rfl⟩ := ancestorTypes_eq_ok.mp htypes
    obtain ⟨a, ha, rfl⟩ := List.mem_map.mp ht
    rw [Ty.mem_freeVars, ancestorType, Ty.mem_occurrences_of_isRigid rfl] at hx
    obtain ⟨u, hu, hx⟩ := hx
    obtain ⟨p, hp, rfl⟩ := List.mem_map.mp hu
    exact mentions_lineage hT hscope hdecl hchain ha hp hx

/-- A generic class with a generic module and a generic superclass without arguments, which both
bring up one interface. -/
def pairs : Table where
  modules := [
    (⟨"::Base"⟩, { name := ⟨"::Base"⟩, kind := .classDecl, typeParams := [{ name := "K" }],
                   includes := [.named .interfaceOf ⟨"::_Named"⟩ [.var "K"]] }),
    (⟨"::Each"⟩, { name := ⟨"::Each"⟩, kind := .moduleDecl, typeParams := [{ name := "V" }],
                   includes := [.named .interfaceOf ⟨"::_Named"⟩ [.union [.var "V", .nil]]] }),
    (⟨"::Pair"⟩, { name := ⟨"::Pair"⟩, kind := .classDecl,
                   typeParams := [{ name := "K" }, { name := "V" }],
                   superclass := some (.ofClass ⟨"::Base"⟩),
                   includes := [.named .instanceOf ⟨"::Each"⟩ [.union [.var "K", .var "V"]]] }),
    (⟨"::_Named"⟩, { name := ⟨"::_Named"⟩, kind := .interfaceDecl,
                     typeParams := [{ name := "N" }] })]

/-- An instance of the class: its first parameter becomes a variable with the name of the second. -/
def toPair : Subst where
  vars := [("K", .var "V"), ("V", .union [.nil, .bool])]

theorem parentsInScope_pairs : pairs.ParentsInScope where
  applied := by
    simp [pairs, ModuleDecl.parents, Ty.ofClass, module?, Keyed.get?]
  mentions := by
    have h : ∀ e ∈ pairs.modules, ∀ t ∈ e.2.parents, ∀ y ∈ t.freeVars,
        y ∈ e.2.paramNames.map FreeVar.var := by
      decide
    intro e he t ht x hx
    simpa using h e he t ht _ hx

/-- The interface is applied to a union, which is flattened and cleared of repeated members at every
step.  Where the module was visited before, the superclass brings up the interface. -/
theorem instantiation_of_pairs :
    let visited : Ancestor := ⟨⟨"::Each"⟩, { name := ⟨"::Each"⟩, kind := .moduleDecl }, .empty⟩
    let reached : List Ty := [
      .named .instanceOf ⟨"::Pair"⟩ [.var "K", .var "V"],
      .named .instanceOf ⟨"::Each"⟩ [.union [.var "K", .var "V"]],
      .named .interfaceOf ⟨"::_Named"⟩ [.union [.var "K", .var "V", .nil]],
      .named .instanceOf ⟨"::Base"⟩ [.untyped]]
    pairs.Normal ∧ pairs.ParentsInScope ∧ toPair.Normal ∧
    (∃ c c', pairs.visit 5 ⟨"::Pair"⟩ toPair [] = .ok c ∧
      pairs.visit 5 ⟨"::Pair"⟩ .empty [] = .ok c' ∧ InStep toPair [] c c' ∧
      c'.map ancestorType = reached ∧
      c.map ancestorType = [
        .named .instanceOf ⟨"::Pair"⟩ [.var "V", .union [.nil, .bool]],
        .named .instanceOf ⟨"::Each"⟩ [.union [.var "V", .nil, .bool]],
        .named .interfaceOf ⟨"::_Named"⟩ [.union [.var "V", .nil, .bool]],
        .named .instanceOf ⟨"::Base"⟩ [.untyped]]) ∧
    (∃ c c', pairs.visit 5 ⟨"::Pair"⟩ toPair [visited] = .ok c ∧
      pairs.visit 5 ⟨"::Pair"⟩ .empty [visited] = .ok c' ∧ InStep toPair [visited] c c' ∧
      visitedNames c = [⟨"::Each"⟩, ⟨"::Pair"⟩, ⟨"::Base"⟩, ⟨"::_Named"⟩]) ∧
    ∀ t ∈ reached, ∀ x, .var x ∈ t.freeVars → x ∈ ["K", "V"] := by
  intro visited reached
  have hnormal : pairs.Normal := ⟨by decide, by decide, by decide⟩
  have hinstance : toPair.Normal := ⟨by decide, by decide, by rintro (_ | _ | _) t ⟨⟩⟩
  obtain ⟨hends, hmentions⟩ :=
    instantiation_commutes hnormal parentsInScope_pairs ⟨"::Pair"⟩
  refine ⟨hnormal, parentsInScope_pairs, hinstance, ⟨_, _, rfl, rfl, ?_, rfl, rfl⟩,
    ⟨_, _, rfl, rfl, ?_, rfl⟩, hmentions _ _ rfl rfl⟩
  · cases hends toPair hinstance rfl 5 [] with
    | ok hstep => exact hstep
  · cases hends toPair hinstance rfl 5 [visited] with
    | ok hstep => exact hstep

/-! ## Expansions of aliases -/

/-- An alias whose body mentions nothing but its type parameters can be expanded before a
substitution is applied, or after it was applied to the arguments.  The results are the same to the
order of the members in every union and intersection. -/
theorem expansion_commutes {name : TypeName} {decl : AliasDecl} (hdecl : T.alias? name = some decl)
    (hbody : decl.body.Normal)
    (hscope : ∀ x ∈ decl.body.freeVars, ∃ p ∈ decl.typeParams, x = .var p.name) {args : List Ty}
    (hargs : ∀ a ∈ args, a.Normal) (hlen : args = [] ∨ args.length = decl.typeParams.length)
    (hs : s.Normal) :
    ∃ t, T.expansion name args = .ok t ∧ T.expansion name (args.map s.apply) = .ok (s.apply t) := by
  have hexpand : ∀ args : List Ty,
      T.expansion name args = .ok ((bindParams decl.typeParams args).apply decl.body) := by
    intro args
    rw [expansion, hdecl]
  refine ⟨_, hexpand args, (hexpand _).trans (congrArg Except.ok ?_)⟩
  have happly : args.map s.apply = args.map s.replace :=
    List.map_congr_left fun a ha => Subst.apply_eq_replace (hargs a ha)
  have hinst : s.InstanceOn (decl.typeParams.map (·.name)) (bindParams decl.typeParams
      (args.map s.replace)) (bindParams decl.typeParams args) := by
    refine instanceOn_bindParams hlen (Subst.normal_map_replace hs.imageOf hargs) hargs ?_
    rw [List.forall₂_map_left_iff, List.forall₂_same]
    exact fun _ _ => rfl
  have hseq : (bindParams decl.typeParams (args.map s.replace)).replace decl.body =
      s.replace ((bindParams decl.typeParams args).replace decl.body) := by
    refine Subst.replace_replace hinst.right.normal hs.imageOf fun x hx => ?_
    obtain ⟨p, hp, rfl⟩ := hscope x (Ty.mem_freeVars.mpr hx)
    exact hinst.maps p.name (List.mem_map_of_mem hp)
  have hnormal := Subst.normal_replace hbody fun x _ => hinst.right.normal x
  rw [happly, Subst.apply_eq_replace hbody, Subst.apply_eq_replace hbody,
    Subst.apply_eq_replace hnormal, hseq]

/-- An alias with two type parameters, of which one stands twice in its body. -/
def eitherAlias : AliasDecl where
  name := ⟨"::either"⟩
  typeParams := [{ name := "A" }, { name := "B" }]
  body := .union [.var "A", .tuple [.var "B", .var "A"], .nil]

/-- An argument has the name of a type parameter, and becomes a union with a member of the body. -/
theorem expansion_of_either :
    let T : Table := { aliases := [(⟨"::either"⟩, eitherAlias)] }
    let s : Subst := { vars := [("B", .union [.nil, .bool])], anchors := { selfType := some .top } }
    let args : List Ty := [.var "B", .slot .selfType]
    let expanded : Ty := .union [.var "B", .tuple [.slot .selfType, .var "B"], .nil]
    s.Normal ∧ T.expansion ⟨"::either"⟩ args = .ok expanded ∧
      s.apply expanded = .union [.nil, .bool, .tuple [.top, .union [.nil, .bool]]] ∧
      T.expansion ⟨"::either"⟩ (args.map s.apply) = .ok (s.apply expanded) ∧
      T.expansion ⟨"::either"⟩ [] = .ok .untyped := by
  intro T s args expanded
  have hs : s.Normal := ⟨by decide, by decide, by rintro (_ | _ | _) t ⟨⟩; rfl⟩
  have hdecl : T.alias? ⟨"::either"⟩ = some eitherAlias := rfl
  have hargs : ∀ a ∈ args, a.Normal := by decide
  have hexpanded : T.expansion ⟨"::either"⟩ args = .ok expanded := rfl
  obtain ⟨t, ht, hcommutes⟩ :=
    expansion_commutes hdecl (by decide) (by decide) hargs (Or.inr rfl) hs
  obtain rfl := Except.ok.inj (hexpanded.symm.trans ht)
  exact ⟨hs, hexpanded, rfl, hcommutes, rfl⟩

end Table
end TypeShape
