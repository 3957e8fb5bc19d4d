import TypeShape.Proofs.Search.Closed
import TypeShape.Proofs.Search.NormalForm
import TypeShape.Proofs.Types.Sequence

/-!
# Putting in the receiver afterwards

The shape of a type from outside has the type itself for the placeholder of the receiver, put in
together with the other anchors and the type arguments.  The shape of the type as the receiver keeps
the placeholder.  It does not matter when the receiver is put in: the former is the latter with the
type put in for the placeholder.

Main results:

- Theorem `Subst.ClosedBeside.applyOverload_withSelf`: putting in the receiver with all else and
  putting it in afterwards.
- Theorem `Search.Query.shape_eq_subst_shapeAsSelf`: the answers to the two queries.
-/

namespace TypeShape

/-! ## Substitutions beside the receiver -/

namespace Subst

/-- Replaces the receiver and nothing else. -/
def ofSelf (t : Ty) : Subst :=
  .ofAnchors { selfType := some t }

/-- Anchors stay under parameters. -/
theorem without_ofAnchors (anchors : Anchors) (names : List String) :
    (ofAnchors anchors).without names = ofAnchors anchors := by
  have hnil : names.foldl (fun vars x => Keyed.erase x vars) ([] : List (String × Ty)) = [] := by
    induction names with
    | nil => rfl
    | cons x names ih => exact ih
  rw [without, ofAnchors, hnil]

/-- Replacing the receiver leaves everything else alone. -/
theorem imageOf_ofSelf {t : Ty} {x : FreeVar} (hx : x ≠ .slot .selfType) :
    (ofSelf t).imageOf x = x.toTy := by
  cases x with
  | slot p => cases p <;> first | rfl | exact absurd rfl hx
  | var x => rfl

/-- It puts in a type in normal form if the receiver is one. -/
theorem normal_imageOf_ofSelf {t : Ty} (ht : t.Normal) (x : FreeVar) :
    ((ofSelf t).imageOf x).Normal := by
  by_cases hx : x = .slot .selfType
  · subst hx
    exact ht
  · rw [imageOf_ofSelf hx]
    cases x <;> rfl

/-- Adding a receiver changes no other image. -/
theorem image?_withSelf {s : Subst} {x : FreeVar} (hx : x ≠ .slot .selfType) (r : Option Ty) :
    (s.withSelf r).image? x = s.image? x := by
  cases x with
  | slot p => cases p <;> first | rfl | exact absurd rfl hx
  | var x => rfl

/-- What is put in for anything but the receiver is closed. -/
def ClosedBeside (s : Subst) : Prop :=
  ∀ x t, x ≠ .slot .selfType → s.image? x = some t → t.Closed

namespace ClosedBeside

variable {s : Subst} (h : s.ClosedBeside) {t : Ty}

include h

/-- A substitution that is closed beside the receiver is so under parameters. -/
theorem under (d : Overload) : (s.under d).ClosedBeside := by
  intro x t hx ht
  rw [Subst.under, image?_without] at ht
  split at ht
  · cases ht
  · exact h x t hx ht

/-- It puts in types in normal form. -/
theorem normal_imageOf (x : FreeVar) : ((s.withSelf none).imageOf x).Normal := by
  refine Ty.setTest_normalHere.imageOf_of_image? (fun x t ht => ?_) x
  by_cases hx : x = .slot .selfType
  · subst hx
    cases ht
  · rw [image?_withSelf hx] at ht
    exact (h x t hx ht).normal

/-- What is put in for anything but the receiver has no place for the receiver. -/
theorem imageOf_withSelf (t : Ty) (x : FreeVar) :
    (s.withSelf (some t)).imageOf x = (ofSelf t).replace ((s.withSelf none).imageOf x) := by
  by_cases hx : x = .slot .selfType
  · subst hx
    rfl
  · rw [imageOf, imageOf, image?_withSelf hx, image?_withSelf hx]
    cases ha : s.image? x with
    | none => rw [Option.getD_none, replace_toTy, imageOf_ofSelf hx]
    | some a =>
      have hclosed := h x a hx ha
      rw [Option.getD_some, ← apply_eq_replace hclosed.normal, hclosed.apply_eq_self fun _ => rfl]

/-- The receiver can be put in together with all else or afterwards. -/
theorem applyOverload_withSelf (ht : t.Normal) {d : Overload} (hd : d.Normal) :
    (s.withSelf (some t)).applyOverload d =
      (ofSelf t).applyOverload ((s.withSelf none).applyOverload d) := by
  refine applyOverload_applyOverload fun u hu => ?_
  have hself : (ofSelf t).under d = ofSelf t := without_ofAnchors _ _
  have hinner := (h.under d).normal_imageOf
  have hseq : ((s.under d).withSelf (some t)).replace u =
      (ofSelf t).replace (((s.under d).withSelf none).replace u) :=
    replace_replace hinner (normal_imageOf_ofSelf ht) fun x _ => (h.under d).imageOf_withSelf t x
  calc ((s.withSelf (some t)).under d).apply u
      = ((s.under d).withSelf (some t)).replace u := apply_eq_replace (hd u hu)
    _ = (ofSelf t).replace (((s.under d).withSelf none).replace u) := hseq
    _ = (ofSelf t).apply (((s.under d).withSelf none).replace u) :=
      (apply_eq_replace (normal_replace (hd u hu) fun x _ => hinner x)).symm
    _ = ((ofSelf t).under d).apply (((s.withSelf none).under d).apply u) := by
      rw [hself, ← apply_eq_replace (hd u hu)]
      rfl

end ClosedBeside

end Subst

/-- Methods are substituted one after the other if their overloads are. -/
theorem Shape.methods_subst_subst {base : Shape} {m s o : Subst}
    (h : ∀ e ∈ base.methods, ∀ d ∈ e.2.overloads,
      m.applyOverload d = o.applyOverload (s.applyOverload d)) (label label' label'' : Option Ty) :
    (base.subst m label).methods = ((base.subst s label').subst o label'').methods := by
  unfold subst
  rw [List.map_map]
  refine List.map_congr_left fun e he => ?_
  unfold Entry.subst
  rw [Function.comp_apply, List.map_map, List.map_congr_left (h e he)]
  rfl

/-- Types with methods of their own: applications of classes and interfaces, class objects, literals
and procs. -/
def Ty.isObject : Ty → Bool
  | named kind _ _ => kind != .aliasOf
  | singleton _ => true
  | literal _ => true
  | proc _ => true
  | _ => false

namespace Search

variable {T : Table} {t : Ty}

/-! ## Searches for a receiver -/

/-- Putting in the receiver with everything else, or after it, gives the same methods. -/
theorem methods_subst_withSelf {base : Shape} {s : Subst} (hbase : base.Normal)
    (hs : s.ClosedBeside) (ht : t.Normal) (label label' : Option Ty) :
    (base.subst (s.withSelf (some t)) label).methods =
      ((base.subst (s.withSelf none) label').subst (.ofSelf t) none).methods :=
  Shape.methods_subst_subst
    (fun e he _ hd => hs.applyOverload_withSelf ht (hbase.methods e he _ hd)) _ _ _

/-- The shape with the receiver put in. -/
def putIn (t : Ty) (inner : Shape) : Shape :=
  inner.subst (.ofSelf t) (some t)

/-- So it gives the same shape. -/
theorem subst_withSelf_eq_putIn {base : Shape} {s : Subst} (hbase : base.Normal)
    (hs : s.ClosedBeside) (ht : t.Normal) :
    base.subst (s.withSelf (some t)) (some t) = putIn t (base.subst (s.withSelf none) (some t)) :=
  congrArg (Shape.mk t) (methods_subst_withSelf hbase hs ht (some t) (some t))

/-- The class and the untyped instance of a name. -/
def classAnchors (T : Table) (name : TypeName) : Anchors where
  classType := some (.singleton name)
  instanceType := some (T.untypedInstance name)

/-- The anchors of a class are closed. -/
theorem closedBeside_classAnchors (T : Table) (name : TypeName) :
    (Subst.ofAnchors (classAnchors T name)).ClosedBeside := by
  rintro (⟨_ | _ | _⟩ | x) u hx hu
  · exact absurd rfl hx
  · obtain rfl := Option.some.inj hu
    exact closed_untypedInstance T name
  · obtain rfl := Option.some.inj hu
    exact .of_parts rfl (by simp [Ty.parts])
  · cases hu

/-- An application has, for a receiver, its shape with the receiver put in. -/
theorem corresponds_applied_withSelf (hT : T.Normal) (name : TypeName) {args : List Ty}
    (hargs : ∀ a ∈ args, a.Closed) {anchors : Anchors}
    (hanchors : (Subst.ofAnchors anchors).ClosedBeside) (ht : t.Normal) :
    Corresponds T (fun s inner => s = putIn t inner)
      (applied T name args ((Subst.ofAnchors anchors).withSelf (some t)) (some t))
      (applied T name args ((Subst.ofAnchors anchors).withSelf none) (some t)) := by
  rcases argumentSubst_cases (T := T) name args with ⟨e, happ, -⟩ | ⟨app, happ, -, hbinds⟩
  · exact .error happ.bind_error happ.bind_error
  · refine corresponds_applied happ hbinds happ hbinds rfl rfl fun methods hm => ?_
    have hbeside : Subst.ClosedBeside ⟨app.vars, anchors⟩ := by
      intro x u hx hu
      cases x with
      | slot p => exact hanchors (.slot p) u hx hu
      | var x => exact hargs u (hbinds.mem x u hu)
    exact subst_withSelf_eq_putIn (normal_instances hT hm) hbeside ht

/-- So has a class object. -/
theorem corresponds_classObjectShape (hT : T.Normal) (name : TypeName) :
    Corresponds T (fun s inner => s = putIn (.singleton name) inner)
      (classObjectShape T name (some (.singleton name))) (classObjectShape T name none) := by
  cases hm : T.singletonMethods name with
  | error e =>
    have hbase := returns_classObjectBase_error hm
    exact .error hbase.bind_error hbase.bind_error
  | ok methods =>
    have hbase := returns_classObjectBase hm
    refine .ok (hbase.bind (.pure _)) (hbase.bind (.pure _)) ?_
    have hnormal : (shapeOfMethods (.singleton name) methods).Normal :=
      normal_shapeOfMethods rfl (hT.singletonMethods hm)
    exact subst_withSelf_eq_putIn (s := .ofAnchors (classAnchors T name)) hnormal
      (closedBeside_classAnchors T name) rfl

/-- Shapes of a class for two receivers of another form come from the same methods. -/
theorem corresponds_classShape {name : TypeName} {r r' label : Option Ty} {R : Shape → Shape → Prop}
    (h : ∀ methods, instanceTable T name = .ok methods →
      let base := shapeOfMethods .bot methods
      let anchors := nominalAnchors T (.ofClass name)
      R (base.subst (anchors.withSelf r) label) (base.subst (anchors.withSelf r') label)) :
    Corresponds T R (classShape T name r label) (classShape T name r' label) := by
  cases hm : instanceTable T name with
  | error e =>
    have hbase := returns_instanceShape_error hm
    exact .error hbase.bind_error hbase.bind_error
  | ok methods =>
    have hbase := returns_instanceShape hm
    exact .ok (hbase.bind (.pure _)) (hbase.bind (.pure _)) (h methods hm)

/-- The signature of a closed proc has no place for the receiver. -/
theorem ofProc_eq_putIn {c : Callable Ty} {s inner : Shape} (hc : (Ty.proc c).Closed)
    (h : s.methods = (inner.subst (.ofSelf (.proc c)) none).methods) :
    Shape.ofProc (.proc c) c s = putIn (.proc c) (Shape.ofProc (.proc c) c inner) := by
  let call := Entry.ofPublic [{ typeParams := [], callable := c }]
  have hcall : call.subst (.ofSelf (.proc c)) = call := by
    have hoverload : (Subst.ofSelf (.proc c)).applyOverload { typeParams := [], callable := c } =
        { typeParams := [], callable := c } := by
      refine Overload.applyOverload_eq_self (fun u hu => ?_) fun _ => rfl
      exact hc.part (by simpa [Overload.types, Ty.parts] using hu)
    exact congrArg (fun o => Entry.ofPublic [o]) hoverload
  refine congrArg (Shape.mk (.proc c)) ?_
  calc Keyed.insert "call" call (Keyed.insert "[]" call s.methods)
      = Keyed.insert "call" (call.subst (.ofSelf (.proc c)))
          (Keyed.insert "[]" (call.subst (.ofSelf (.proc c)))
            (inner.methods.map fun m => (m.1, m.2.subst (.ofSelf (.proc c))))) := by
        rw [hcall, h]
        rfl
    _ = (Keyed.insert "call" call (Keyed.insert "[]" call inner.methods)).map
          fun m => (m.1, m.2.subst (.ofSelf (.proc c))) := by
        rw [Keyed.map_insert (Entry.subst · (.ofSelf (.proc c))),
          Keyed.map_insert (Entry.subst · (.ofSelf (.proc c)))]

namespace Query

/-- Both searches find a shape, and the one from outside is the other with the receiver put in. -/
theorem corresponds_step (hT : T.Normal) (ht : t.Closed) (hobject : t.isObject = true)
    (search : Goal → Search (Option Shape)) :
    Corresponds T (fun found open? => ∃ inner, open? = some inner ∧ found = some (putIn t inner))
      (Goal.step T search ⟨t, .empty, .outside⟩) (Goal.step T search ⟨t, .empty, .asReceiver⟩) := by
  have hsome : ∀ s inner, s = putIn t inner →
      ∃ inner', some inner = some inner' ∧ some s = some (putIn t inner') :=
    fun s inner h => ⟨inner, rfl, congrArg some h⟩
  cases t with
  | named kind name args =>
    have hargs : ∀ a ∈ args, a.Closed := fun a ha => ht.part ha
    cases kind with
    | aliasOf => cases hobject
    | instanceOf =>
      have hbeside := closedBeside_classAnchors T name
      exact (corresponds_applied_withSelf hT name hargs hbeside ht.normal).map hsome
    | interfaceOf =>
      have hbeside : (Subst.ofAnchors {}).ClosedBeside := by
        rintro (⟨_ | _ | _⟩ | x) u - ⟨⟩
      exact (corresponds_applied_withSelf hT name hargs hbeside ht.normal).map hsome
  | singleton name => exact (corresponds_classObjectShape hT name).map hsome
  | literal value =>
    refine Corresponds.map (corresponds_classShape fun methods hm => ?_) hsome
    exact subst_withSelf_eq_putIn (s := .ofAnchors (classAnchors T value.className))
      (normal_instances hT hm) (closedBeside_classAnchors T _) rfl
  | proc c =>
    have hclass : Corresponds T
        (fun s inner : Shape => s.methods = (inner.subst (.ofSelf (.proc c)) none).methods)
        (classShape T .proc (some (.proc c)) none) (classShape T .proc none none) :=
      corresponds_classShape fun methods hm =>
        methods_subst_withSelf (s := .ofAnchors (classAnchors T .proc)) (normal_instances hT hm)
          (closedBeside_classAnchors T .proc) ht.normal none none
    change Corresponds T _
      (classShape T .proc _ none >>= fun base => pure (some (Shape.ofProc _ c base)))
      (classShape T .proc _ none >>= fun base => pure (some (Shape.ofProc _ c base)))
    rw [Goal.bind_pure_map, Goal.bind_pure_map]
    exact hclass.map fun s inner h => hsome _ _ (ofProc_eq_putIn ht h)
  | slot s => cases hobject
  | var x => cases hobject
  | union ms => cases hobject
  | inter ms => cases hobject
  | tuple items => cases hobject
  | record fields => cases hobject
  | untyped => cases hobject
  | top => cases hobject
  | bot => cases hobject
  | void => cases hobject
  | nil => cases hobject
  | bool => cases hobject
  | logic question => cases hobject

/-- From outside and as the receiver, a closed type is answered with the same error, or with shapes
of which the one from outside is the other with the type put in for the receiver. -/
theorem shape_eq_subst_shapeAsSelf (hT : T.Normal) (ht : t.Closed) (hobject : t.isObject = true) :
    ∃ r r', fresh T (.shape t .empty) = some r ∧ fresh T (.shapeAsSelf t .empty) = some r' ∧
      ExceptRel (fun found open? => ∃ inner : Shape, open? = some inner ∧
        found = some (inner.subst (.ofAnchors { selfType := some t }) (some t))) r r' :=
  fresh_of_corresponds rfl rfl (corresponds_step hT ht hobject (findGoal T))

/-- A generic class whose method mentions all placeholders, its parameter and one of its own. -/
def boxes : Table where
  modules := [(⟨"::Box"⟩, {
    name := ⟨"::Box"⟩
    kind := .classDecl
    typeParams := [{ name := "T" }]
    members := [{ name := "m", overloads := [⟨[{ name := "U" }],
      ⟨⟨{ required := [.union [.var "U", .slot .selfType, .var "T"]] },
        .tuple [.slot .selfType, .slot .instanceType, .slot .classType]⟩, none⟩, []⟩] }] })]

/-- The method as it is found when a type variable is the argument. -/
def foundInBox (receiver : Ty) : Shape :=
  ⟨.named .instanceOf ⟨"::Box"⟩ [.var "U"], [("m", .ofPublic [⟨[{ name := "U" }],
    ⟨⟨{ required := [.union [.var "U", receiver]] },
      .tuple [receiver, .named .instanceOf ⟨"::Box"⟩ [.untyped], .singleton ⟨"::Box"⟩]⟩, none⟩,
    [⟨⟨.ofInstances, ⟨"::Box"⟩, "m"⟩, ⟨"::Box"⟩⟩]⟩])]⟩

/-- The shape of a box, whose method returns all placeholders. -/
theorem boxes_put_in_receiver :
    let box : Ty := .named .instanceOf ⟨"::Box"⟩ [.var "U"]
    let crowded : Ty := .named .instanceOf ⟨"::Box"⟩ [.nil, .nil]
    boxes.Normal ∧ box.Closed ∧ crowded.Closed ∧
    fresh boxes (.shapeAsSelf box .empty) = some (.ok (some (foundInBox (.slot .selfType)))) ∧
    fresh boxes (.shape box .empty) = some (.ok (some (foundInBox box))) ∧
    ∃ e, fresh boxes (.shapeAsSelf crowded .empty) = some (.error e) ∧
      fresh boxes (.shape crowded .empty) = some (.error e) := by
  intro box crowded
  have hnormal : boxes.Normal := ⟨by decide, by decide, by decide⟩
  have hinner : fresh boxes (.shapeAsSelf box .empty) =
      some (.ok (some (foundInBox (.slot .selfType)))) :=
    fresh_of_within (n := 1) (r := .ok (some (foundInBox (.slot .selfType)))) rfl
  have hcrowded : fresh boxes (.shapeAsSelf crowded .empty) =
      some (.error (.substitution (.lengthMismatch 1 2))) :=
    fresh_of_within (n := 1) (r := .error (.substitution (.lengthMismatch 1 2))) rfl
  have hbox : box.Closed := by decide
  have hclosed : crowded.Closed := by decide
  refine ⟨hnormal, hbox, hclosed, hinner, ?_, _, hcrowded, ?_⟩
  · obtain ⟨r, r', hr, hr', hends⟩ := shape_eq_subst_shapeAsSelf hnormal hbox rfl
    obtain rfl := Option.some.inj (hinner.symm.trans hr')
    cases hends with
    | ok h =>
      obtain ⟨inner, heq, rfl⟩ := h
      obtain rfl := Option.some.inj heq
      exact hr
  · obtain ⟨r, r', hr, hr', hends⟩ := shape_eq_subst_shapeAsSelf hnormal hclosed rfl
    obtain rfl := Option.some.inj (hcrowded.symm.trans hr')
    cases hends with
    | error e => exact hr

end Query
end Search
end TypeShape
