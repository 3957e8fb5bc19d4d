import TypeShape.Proofs.Search.Kept

/-!
# Tests of what is found

A test of unions and intersections that their constructions keep, and that passes everywhere in the
declarations and in a goal, passes everywhere in the shape that a search finds.  So shapes are in
normal form, or have distinct members throughout, if declarations, types and contexts do.

Main results:

- Theorem `Search.passes_direct`: what the declarations give for a direct goal passes.
- Theorem `Search.kept_passes`: every step of a search keeps what passes.
-/

namespace TypeShape
namespace Search

variable {T : Table} {test : Ty → Bool}

/-- A test passes everywhere in the type, the anchors and the bounds of a goal. -/
structure Goal.Passes (test : Ty → Bool) (g : Goal) : Prop where
  type : g.type.all test = true
  anchors : ∀ p t, g.context.anchors.get? p = some t → t.all test = true
  bounds : ∀ e ∈ g.context.bounds, e.2.all test = true

/-- A goal is well formed if the test for it passes. -/
theorem Goal.wellFormed_iff_passes {g : Goal} : g.WellFormed ↔ g.Passes Ty.distinctHere :=
  ⟨fun h => ⟨h.type, h.anchors, h.bounds⟩, fun h => ⟨h.type, h.anchors, h.bounds⟩⟩

section Tests

variable (htest : Ty.SetTest test)

include htest

/-- Goals that pass lead to goals that pass. -/
theorem Leads.passes (hT : T.Passes test) {g g' : Goal} (hl : Leads T g g') (h : g.Passes test) :
    g'.Passes test := by
  obtain ⟨htype, hanchors, hbounds⟩ := h
  cases hl with
  | forward hf =>
    cases hf with
    | slot ha => exact ⟨hanchors _ _ ha, hanchors, hbounds⟩
    | receiver hb => exact ⟨hbounds _ (Keyed.mem_of_get? hb), hanchors, hbounds⟩
    | @bound x c bound hb _ =>
      have hbound : bound.all test = true := hbounds _ (Keyed.mem_of_get? hb)
      refine ⟨hbound, ?_, hbounds⟩
      rintro (_ | _ | _) t ⟨⟩
      exact hbound
    | expansion he =>
      exact ⟨hT.expansion htest (fun a ha => Ty.all_part htype ha) he, hanchors, hbounds⟩
  | union hm _ => exact ⟨Ty.all_part htype hm, hanchors, hbounds⟩
  | inter hm => exact ⟨Ty.all_part htype hm, hanchors, hbounds⟩

/-! ## Shapes of declarations -/

/-- What a nominal type puts for placeholders and parameters passes. -/
theorem passes_imageOf_anchors {vars : List (String × Ty)} {anchors : Anchors}
    (hvars : ∀ x t, Keyed.get? x vars = some t → t.all test = true)
    (hanchors : ∀ p t, anchors.get? p = some t → t.all test = true) (x : FreeVar) :
    (Subst.imageOf ⟨vars, anchors⟩ x).all test = true := by
  refine htest.imageOf_of_image? (fun x t hx => ?_) x
  cases x with
  | slot p => exact hanchors p t hx
  | var x => exact hvars x t hx

/-- So do the anchors of a class, if the receiver does. -/
theorem passes_nominal {receiver : Option Ty} {name : TypeName}
    (h : ∀ t, receiver = some t → t.all test = true) (p : Slot) (t : Ty)
    (ht : Anchors.get? ⟨receiver, some (.singleton name), some (T.untypedInstance name)⟩ p =
      some t) :
    t.all test = true := by
  cases p with
  | selfType => exact h t ht
  | classType =>
    obtain rfl := Option.some.inj ht
    exact htest.closes.rigid rfl (by simp [Ty.parts])
  | instanceType =>
    obtain rfl := Option.some.inj ht
    exact Table.passes_untypedInstance htest name

/-- The shape of declared methods passes if they do. -/
theorem passes_shapeOfMethods {label : Ty} {methods : MethodTable}
    (hlabel : label.all test = true) (h : methods.Passes test) :
    (shapeOfMethods label methods).Passes test :=
  ⟨hlabel, .shapeOfMethods htest.closes h⟩

/-- What the declarations give for instances passes. -/
theorem passes_instances (hT : T.Passes test) {name : TypeName} {methods : MethodTable}
    (h : instanceTable T name = .ok methods) : (shapeOfMethods .bot methods).Passes test :=
  passes_shapeOfMethods htest htest.bot (passes_instanceTable htest hT h)

section Declared

variable {P : Shape → Prop} (hT : T.Passes test) {name : TypeName} {args : List Ty}
  {receiver label : Option Ty} (hreceiver : ∀ t, receiver = some t → t.all test = true)

include hT hreceiver

/-- The shape of a class passes for a receiver that does. -/
theorem passes_classShape (hlabel : ∀ t, label = some t → t.all test = true) :
    Keeps (Remembers T P) (classShape T name receiver label) (Shape.Passes test) :=
  keeps_classShape_of fun _ hm => (passes_instances htest hT hm).subst htest
    (passes_imageOf_anchors htest (by rintro x t ⟨⟩) (passes_nominal htest hreceiver)) hlabel

/-- The shape of an application passes if its arguments do. -/
theorem passes_applicationShape (hargs : ∀ a ∈ args, a.all test = true)
    (hlabel : ∀ t, label = some t → t.all test = true) :
    Keeps (Remembers T P) (applicationShape T name args receiver label) (Shape.Passes test) :=
  keeps_applied_of rfl fun _ _ hbinds hm =>
    (passes_instances htest hT hm).subst htest
      (passes_imageOf_anchors htest (fun x t hx => hargs t (hbinds.mem x t hx))
        (passes_nominal htest hreceiver))
      hlabel

/-- So does that of an interface. -/
theorem passes_interfaceShape (hargs : ∀ a ∈ args, a.all test = true) :
    Keeps (Remembers T P) (interfaceShape T name args receiver) (Shape.Passes test) := by
  refine keeps_applied_of rfl fun _ _ hbinds hm =>
    (passes_instances htest hT hm).subst htest
      (passes_imageOf_anchors htest (fun x t hx => hargs t (hbinds.mem x t hx)) ?_) ?_
  · rintro (_ | _ | _) t ht
    · exact hreceiver t ht
    · cases ht
    · cases ht
  · rintro t ⟨⟩
    exact htest.closes.rigid rfl hargs

/-- The shape of a class or module object passes. -/
theorem passes_classObjectShape :
    Keeps (Remembers T P) (classObjectShape T name receiver) (Shape.Passes test) := by
  have hlabel : (Ty.singleton name).all test = true := htest.closes.rigid rfl (by simp [Ty.parts])
  refine keeps_classObjectShape_of fun _ hm =>
    (passes_shapeOfMethods htest hlabel (hT.singletonMethods htest hm)).subst htest
      (passes_imageOf_anchors htest (by rintro x t ⟨⟩) (passes_nominal htest hreceiver)) ?_
  rintro t ⟨⟩
  exact hlabel

/-- The shape of a boolean passes. -/
theorem passes_boolShape {t : Ty} (ht : t.all test = true) :
    Keeps (Remembers T P) (boolShape T t receiver) (Shape.Passes test) := by
  refine Keeps.bind (passes_classShape htest hT hreceiver (by simp)) fun onTrue htrue => ?_
  refine Keeps.bind (passes_classShape htest hT hreceiver (by simp)) fun onFalse hfalse => ?_
  exact Keeps.pure (.ofUnion htest ht (by simp [htrue, hfalse]))

end Declared

/-! ## Steps -/

omit htest in
/-- The receiver of a shape that describes a type is this type. -/
theorem passes_receiverIn {t : Ty} (ht : t.all test = true) (v : View) :
    ∀ u, receiverIn v t = some u → u.all test = true := by
  intro u hu
  cases v with
  | outside =>
    obtain rfl := Option.some.inj hu
    exact ht
  | asReceiver => cases hu

/-- What the declarations give for a direct goal passes. -/
theorem passes_direct {P : Shape → Prop} (hT : T.Passes test) {g : Goal} (hg : g.Passes test)
    (hd : g.type.isDirect = true) (search : Goal → Search (Option Shape)) :
    Keeps (Remembers T P) (g.step T search) (FindsOnly (Shape.Passes test)) := by
  obtain ⟨t, c, v⟩ := g
  have ht : t.all test = true := hg.type
  have hreceiver := passes_receiverIn ht v
  have hown : ∀ u, some t = some u → u.all test = true := by
    rintro u ⟨⟩
    exact ht
  have hparts : ∀ u ∈ t.parts, u.all test = true := fun u hu => Ty.all_part ht hu
  have hclosed := htest.closes
  cases t with
  | named kind name args =>
    cases kind with
    | aliasOf => simp [Ty.isDirect] at hd
    | instanceOf => exact (passes_applicationShape htest hT hreceiver hparts hown).some
    | interfaceOf => exact (passes_interfaceShape htest hT hreceiver hparts).some
  | singleton name => exact (passes_classObjectShape htest hT hreceiver).some
  | literal value => exact (passes_classShape htest hT hreceiver hown).some
  | bool => exact (passes_boolShape htest hT hreceiver ht).some
  | logic question => exact (passes_boolShape htest hT hown ht).some
  | nil => exact (passes_classShape htest hT hown hown).some
  | proc callable =>
    refine Keeps.bind (passes_classShape htest hT hreceiver (by simp)) fun base hbase => ?_
    refine Keeps.pure fun s hs => ?_
    obtain rfl := Option.some.inj hs
    exact ⟨ht, .ofProc hparts hbase.methods⟩
  | tuple items =>
    refine Keeps.bind (passes_applicationShape htest hT hown ?_ (by simp)) fun base hbase => ?_
    · exact List.forall_mem_singleton.mpr (hclosed.unionOf hparts)
    · refine Keeps.pure fun s hs => ?_
      obtain rfl := Option.some.inj hs
      exact ⟨ht, .ofTuple hclosed hparts hbase.methods⟩
  | record fields =>
    refine Keeps.bind (passes_applicationShape htest hT hown ?_ (by simp)) fun base hbase => ?_
    · refine List.forall_mem_cons.mpr ⟨hclosed.unionOf fun u hu => ?_,
        List.forall_mem_singleton.mpr (hclosed.unionOf hparts)⟩
      obtain ⟨f, -, rfl⟩ := List.mem_map.mp hu
      exact hclosed.literal f.1
    · refine Keeps.pure fun s hs => ?_
      obtain rfl := Option.some.inj hs
      exact ⟨ht, .ofRecord hclosed (fun f hf => hparts f.2 (List.mem_map_of_mem hf)) hbase.methods⟩
  | slot s => simp [Ty.isDirect] at hd
  | var x => simp [Ty.isDirect] at hd
  | union ms => simp [Ty.isDirect] at hd
  | inter ms => simp [Ty.isDirect] at hd
  | untyped => exact Keeps.pure (by simp [FindsOnly])
  | top => exact Keeps.pure (by simp [FindsOnly])
  | bot => exact Keeps.pure (by simp [FindsOnly])
  | void => exact Keeps.pure (by simp [FindsOnly])

/-- What is made of a shape when a goal is handed on passes. -/
theorem Goal.Forwards.passes {g g' : Goal} {f : Shape → Shape} (hf : Goal.Forwards T g g' f)
    (hg : g.Passes test) {s : Shape} (hs : s.Passes test) : (f s).Passes test := by
  cases hf with
  | slot => exact hs
  | receiver => exact hs.relabel hg.type
  | @bound x =>
    have hvar : (Ty.var x).all test = true := hg.type
    refine hs.subst htest (passes_imageOf_anchors htest (by simp) ?_) ?_
    · rintro (_ | _ | _) t ⟨⟩
      exact hvar
    · rintro t ⟨⟩
      exact hvar
  | expansion => exact hs.relabel hg.type

/-- Every step of a search keeps what passes. -/
theorem kept_passes (hT : T.Passes test) :
    Kept T (Goal.Passes test) fun _ s => s.Passes test where
  leads hl hg := hl.passes htest hT hg
  outside hs := hs
  direct hg hd search := passes_direct htest hT hg hd search
  forwards hf hg _ hs := hf.passes htest hg hs
  literals hg _ ts hts := by
    have hunion : ∀ t, some (Ty.unionOf ts) = some t → t.all test = true := by
      rintro t ⟨⟩
      exact htest.closes.unionOf fun t ht => Ty.all_part hg.type (hts t ht)
    exact passes_classShape htest hT hunion hunion
  union hg _ hshapes := .ofUnion htest hg.type hshapes
  inter hg _ hshapes := .ofInter hg.type hshapes

end Tests
end Search
end TypeShape
