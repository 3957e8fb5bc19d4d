import TypeShape.Grammar.Parser
import TypeShape.Proofs.Search.Queries
import TypeShape.Proofs.Search.Kept

/-!
# Closed shapes

A type that mentions no placeholder has a shape that mentions none, and the anchors of the context
have no part in it.

Main results:

- Theorem `Search.kept_closed`: what is found for a closed goal is closed, but for the receiver if
  the goal stands for it.
-/

namespace TypeShape

/-! ## Spelling -/

/-- The name of an application is spelled as that of a class, interface or alias. -/
def Ty.spelledHere : Ty → Bool
  | .named kind name _ => kind == Parser.nominalKind name
  | _ => true

/-- All names in a type are spelled as what they stand for. -/
def Ty.Spelled (t : Ty) : Prop :=
  t.all spelledHere = true

instance (t : Ty) : Decidable t.Spelled :=
  inferInstanceAs (Decidable (_ = true))

/-- Joining and replacing keep the spelling of names. -/
theorem Ty.stable_spelledHere : Ty.Stable spelledHere :=
  .of_sets rfl rfl rfl (fun _ => rfl) fun _ => rfl

/-- An interface is spelled as one. -/
theorem Ty.Spelled.isInterface {name : TypeName} {args : List Ty}
    (h : (Ty.named .interfaceOf name args).Spelled) : name.isInterface = true := by
  have hhere : (Nominal.interfaceOf == Parser.nominalKind name) = true := all_here h
  by_contra hname
  simp only [Parser.nominalKind, hname, if_false] at hhere
  split at hhere <;> cases hhere

/-! ## Declarations and goals -/

/-- Declarations whose types are in normal form, whose aliases mention no placeholder, and whose
interfaces mention only that of the receiver. -/
structure Table.Hygienic (T : Table) : Prop where
  normal : T.Normal
  closed : ∀ e ∈ T.aliases, e.2.body.mentionsSlot = false
  spelled : ∀ e ∈ T.aliases, e.2.body.Spelled
  interfaces : ∀ name methods, name.isInterface = true → T.interfaceMethods name = .ok methods →
    ∀ e ∈ methods, ∀ d ∈ e.2.defs, ∀ x ∈ d.overload.freeVars,
      x ≠ .slot .instanceType ∧ x ≠ .slot .classType

namespace Search

variable {T : Table}

/-- The type and the bounds of a goal mention no placeholder. -/
structure Goal.Closed (g : Goal) : Prop where
  type : g.type.Closed
  spelled : g.type.Spelled
  bounds : ∀ e ∈ g.context.bounds, e.2.Closed ∧ e.2.Spelled

/-- What an alias stands for is closed if its arguments are. -/
theorem closed_expansion (hT : T.Hygienic) {name : TypeName} {args : List Ty} {t : Ty}
    (hargs : (Ty.named .aliasOf name args).Closed)
    (hspelled : (Ty.named .aliasOf name args).Spelled) (h : T.expansion name args = .ok t) :
    t.Closed ∧ t.Spelled := by
  unfold Table.expansion at h
  split at h
  · rename_i decl hdecl
    obtain rfl := Except.ok.inj h
    have hmem := Keyed.mem_of_get? hdecl
    have hbody : decl.body.Closed :=
      Ty.closed_iff.mpr ⟨hT.normal.aliases _ hmem, hT.closed _ hmem⟩
    constructor
    · refine hbody.apply (fun p hp => hp.elim) fun x => ?_
      rcases Table.imageOf_bindParams decl.typeParams args (.var x) with hx | hx | hx
      · rw [hx]
        exact .var x
      · rw [hx]
        exact .of_parts rfl (by simp [Ty.parts])
      · exact hargs.part hx
    · refine Subst.all_apply Ty.stable_spelledHere ?_ (hT.spelled _ hmem) fun x _ => ?_
      · intro t hrigid ht
        cases t <;> simp_all [Ty.isRigid, Subst.replace, Ty.spelledHere]
      · exact Table.all_imageOf_bindParams rfl (fun a ha => Ty.all_part hspelled ha)
          (by cases x <;> rfl)
  · cases h

/-- A closed goal leads to closed goals. -/
theorem Leads.closed (hT : T.Hygienic) {g g' : Goal} (hl : Leads T g g') (h : g.Closed) :
    g'.Closed := by
  cases hl with
  | forward hf =>
    cases hf with
    | @slot p => exact (h.type.slots p (by simp [Ty.occurrences])).elim
    | receiver hb =>
      obtain ⟨hclosed, hspelled⟩ := h.bounds _ (Keyed.mem_of_get? hb)
      exact ⟨hclosed, hspelled, h.bounds⟩
    | bound hb hs =>
      obtain ⟨hclosed, hspelled⟩ := h.bounds _ (Keyed.mem_of_get? hb)
      exact ⟨hclosed, hspelled, h.bounds⟩
    | expansion he =>
      obtain ⟨hclosed, hspelled⟩ := closed_expansion hT h.type h.spelled he
      exact ⟨hclosed, hspelled, h.bounds⟩
  | union hm _ => exact ⟨h.type.part hm, Ty.all_part h.spelled hm, h.bounds⟩
  | inter hm => exact ⟨h.type.part hm, Ty.all_part h.spelled hm, h.bounds⟩

/-- It reaches closed goals only. -/
theorem Reaches.closed (hT : T.Hygienic) {g g' : Goal} (hr : Reaches T g g') (h : g.Closed) :
    g'.Closed := by
  induction hr with
  | refl => exact h
  | tail _ hl ih => exact hl.closed hT ih

/-- A closed goal is no placeholder. -/
theorem Goal.Closed.not_slot {g : Goal} (h : g.Closed) (p : Slot) : g.type ≠ .slot p :=
  fun hp => h.type.slots p (by simp [hp, Ty.occurrences])

/-- It never comes to a placeholder. -/
theorem Goal.Closed.noSlot (hT : T.Hygienic) {g : Goal} (h : g.Closed) : NoSlot T g :=
  fun _ hr => (hr.closed hT h).not_slot

/-! ## What is found -/

/-- Only the placeholder of the receiver stays open, and only where the receiver is looked at. -/
def openIn (v : View) (p : Slot) : Prop :=
  v = .asReceiver ∧ p = .selfType

/-- What is put in for the receiver is closed, or is its placeholder where the receiver is looked
at. -/
theorem onlyOpen_receiverIn {t : Ty} (ht : t.Closed) (v : View) :
    ((receiverIn v t).getD (.slot .selfType)).OnlyOpen (openIn v) := by
  cases v with
  | outside => exact ht.mono fun p hp => hp.elim
  | asReceiver => exact .slot ⟨rfl, rfl⟩

/-- The instance of a class is closed. -/
theorem closed_untypedInstance (T : Table) (name : TypeName) :
    (T.untypedInstance name).Closed := by
  refine .of_parts rfl fun u hu => ?_
  obtain ⟨param, -, rfl⟩ := List.mem_map.mp hu
  exact .of_parts rfl (by simp [Ty.parts])

/-- The shape of declared methods with all anchors set mentions at most what stands for the
receiver. -/
theorem onlyOpen_anchored {name : TypeName} {methods : MethodTable} {label : Ty}
    {σ : Subst} {allowed : Slot → Prop} {label' : Option Ty} (hmethods : methods.Normal)
    (hlabel : label.Closed) (hself : (σ.imageOf (.slot .selfType)).OnlyOpen allowed)
    (hclass : σ.anchors.classType = some (.singleton name))
    (hinstance : σ.anchors.instanceType = some (T.untypedInstance name))
    (hvar : ∀ x, (σ.imageOf (.var x)).Closed) (hlabel' : ∀ t, label' = some t → t.Closed) :
    ((shapeOfMethods label methods).subst σ label').OnlyOpen allowed := by
  have hopen : (shapeOfMethods label methods).OnlyOpen fun _ => True :=
    .shapeOfMethods hlabel fun e he d hd => Overload.normal_iff.mp (hmethods e he d hd)
  refine hopen.subst (fun p _ => ?_) hvar hlabel'
  cases p with
  | selfType => exact hself
  | classType =>
    rw [Subst.imageOf, Subst.image?, Anchors.get?, hclass]
    exact .of_parts rfl (by simp [Ty.parts])
  | instanceType =>
    rw [Subst.imageOf, Subst.image?, Anchors.get?, hinstance]
    exact (closed_untypedInstance T name).mono fun p hp => hp.elim

section Declared

variable {P : Shape → Prop} {allowed : Slot → Prop}

/-- The shape of a class is open where its receiver is. -/
theorem keeps_classShape (hT : T.Normal) {name : TypeName} {receiver label : Option Ty}
    (hself : (receiver.getD (.slot .selfType)).OnlyOpen allowed)
    (hlabel : ∀ t, label = some t → t.Closed) :
    Keeps (Remembers T P) (classShape T name receiver label) fun s => s.OnlyOpen allowed :=
  keeps_classShape_of fun _ hm =>
    onlyOpen_anchored (normal_instanceTable hT hm) (.of_parts rfl (by simp [Ty.parts])) hself rfl
      rfl (fun x => .var x) hlabel

/-- Closed arguments are bound to closed types. -/
theorem Binds.closed {args : List Ty} {app : Subst} (h : Binds args app)
    (hargs : ∀ a ∈ args, a.Closed) (anchors : Anchors) (x : String) :
    (Subst.imageOf ⟨app.vars, anchors⟩ (.var x)).Closed := by
  rw [Subst.imageOf, Subst.image?, Subst.get?]
  cases hx : Keyed.get? x app.vars with
  | none => exact .var x
  | some t => exact hargs t (h.mem x t hx)

/-- The shape of an application of closed arguments is open where its receiver is. -/
theorem keeps_applicationShape (hT : T.Normal) {name : TypeName} {args : List Ty}
    {receiver label : Option Ty} (hargs : ∀ a ∈ args, a.Closed)
    (hself : (receiver.getD (.slot .selfType)).OnlyOpen allowed)
    (hlabel : ∀ t, label = some t → t.Closed) :
    Keeps (Remembers T P) (applicationShape T name args receiver label)
      fun s => s.OnlyOpen allowed :=
  keeps_applied_of rfl fun _ _ hbinds hm =>
    onlyOpen_anchored (normal_instanceTable hT hm) (.of_parts rfl (by simp [Ty.parts])) hself rfl
      rfl (hbinds.closed hargs _) hlabel

/-- Interfaces mention no other placeholder than that of the receiver. -/
theorem keeps_interfaceShape (hT : T.Hygienic) {name : TypeName} {args : List Ty}
    {receiver : Option Ty} (hname : name.isInterface = true)
    (hargs : (Ty.named .interfaceOf name args).Closed)
    (hself : (receiver.getD (.slot .selfType)).OnlyOpen allowed) :
    Keeps (Remembers T P) (interfaceShape T name args receiver) fun s => s.OnlyOpen allowed := by
  refine keeps_applied_of rfl fun app methods hbinds hm => ?_
  have hmethods : T.interfaceMethods name = .ok methods := by
    rw [instanceTable, if_pos hname] at hm
    exact hm
  have hopen : (shapeOfMethods .bot methods).OnlyOpen fun p => p = .selfType := by
    refine .shapeOfMethods (.of_parts rfl (by simp [Ty.parts])) fun e he d hd t ht => ?_
    refine ⟨hT.normal.interfaceMethods hmethods e he d hd t ht, fun p hp => ?_⟩
    have hfree : FreeVar.slot p ∈ d.overload.freeVars :=
      Overload.mem_freeVars.mpr ⟨Overload.mem_occurrences.mpr ⟨t, ht, hp⟩, by simp⟩
    obtain ⟨hinstance, hclass⟩ := hT.interfaces name methods hname hmethods e he d hd _ hfree
    cases p with
    | selfType => rfl
    | instanceType => exact absurd rfl hinstance
    | classType => exact absurd rfl hclass
  refine hopen.subst ?_ (hbinds.closed (fun a ha => hargs.part ha) _) fun t ht => ?_
  · rintro p rfl
    exact hself
  · obtain rfl := Option.some.inj ht
    exact hargs

/-- The shape of a class object is open where its receiver is. -/
theorem keeps_classObjectShape (hT : T.Normal) {name : TypeName} {receiver : Option Ty}
    (hself : (receiver.getD (.slot .selfType)).OnlyOpen allowed) :
    Keeps (Remembers T P) (classObjectShape T name receiver) fun s => s.OnlyOpen allowed := by
  have hsingleton : (Ty.singleton name).Closed := .of_parts rfl (by simp [Ty.parts])
  refine keeps_classObjectShape_of fun methods hm =>
    onlyOpen_anchored (hT.singletonMethods hm) hsingleton hself rfl rfl (fun x => .var x) ?_
  rintro t ⟨⟩
  exact hsingleton

/-- So is the shape of a boolean. -/
theorem keeps_boolShape (hT : T.Normal) {t : Ty} {receiver : Option Ty} (ht : t.Closed)
    (hself : (receiver.getD (.slot .selfType)).OnlyOpen allowed) :
    Keeps (Remembers T P) (boolShape T t receiver) fun s => s.OnlyOpen allowed := by
  refine Keeps.bind (keeps_classShape hT hself (by simp)) fun onTrue htrue => ?_
  refine Keeps.bind (keeps_classShape hT hself (by simp)) fun onFalse hfalse => ?_
  exact Keeps.pure (.ofUnion ht (by simp [htrue, hfalse]))

/-- The shape of a closed direct goal. -/
theorem keeps_direct (hT : T.Hygienic) {g : Goal} (hg : g.Closed) (hd : g.type.isDirect = true)
    (search : Goal → Search (Option Shape)) :
    Keeps (Remembers T P) (g.step T search) (FindsOnly fun s => s.OnlyOpen (openIn g.view)) := by
  obtain ⟨t, c, v⟩ := g
  have ht : t.Closed := hg.type
  have hreceiver := onlyOpen_receiverIn ht v
  have hown : ((some t).getD (.slot .selfType)).OnlyOpen (openIn v) := ht.mono fun p hp => hp.elim
  have hlabel : ∀ u, some t = some u → u.Closed := by
    rintro u ⟨⟩
    exact ht
  cases t with
  | named kind name args =>
    cases kind with
    | aliasOf => simp [Ty.isDirect] at hd
    | instanceOf =>
      exact (keeps_applicationShape hT.normal (fun a ha => ht.part ha) hreceiver hlabel).some
    | interfaceOf => exact (keeps_interfaceShape hT hg.spelled.isInterface ht hreceiver).some
  | singleton name => exact (keeps_classObjectShape hT.normal hreceiver).some
  | literal value => exact (keeps_classShape hT.normal hreceiver hlabel).some
  | bool => exact (keeps_boolShape hT.normal ht hreceiver).some
  | logic question => exact (keeps_boolShape hT.normal ht hown).some
  | nil => exact (keeps_classShape hT.normal hown hlabel).some
  | proc callable =>
    refine Keeps.bind (keeps_classShape hT.normal hreceiver (by simp)) fun base hbase => ?_
    refine Keeps.pure fun s hs => ?_
    obtain rfl := Option.some.inj hs
    exact .ofProc ht hbase
  | tuple items =>
    refine Keeps.bind (keeps_applicationShape hT.normal ?_ hown (by simp)) fun base hbase => ?_
    · exact List.forall_mem_singleton.mpr (.unionOf fun u hu => ht.part hu)
    · refine Keeps.pure fun s hs => ?_
      obtain rfl := Option.some.inj hs
      exact .ofTuple ht hbase
  | record fields =>
    refine Keeps.bind (keeps_applicationShape hT.normal ?_ hown (by simp)) fun base hbase => ?_
    · refine List.forall_mem_cons.mpr ⟨.unionOf fun u hu => ?_,
        List.forall_mem_singleton.mpr (.unionOf fun u hu => ht.part hu)⟩
      obtain ⟨f, -, rfl⟩ := List.mem_map.mp hu
      exact .literal f.1
    · refine Keeps.pure fun s hs => ?_
      obtain rfl := Option.some.inj hs
      exact .ofRecord ht hbase
  | slot s => simp [Ty.isDirect] at hd
  | var x => simp [Ty.isDirect] at hd
  | union ms => simp [Ty.isDirect] at hd
  | inter ms => simp [Ty.isDirect] at hd
  | untyped => exact Keeps.pure (by simp [FindsOnly])
  | top => exact Keeps.pure (by simp [FindsOnly])
  | bot => exact Keeps.pure (by simp [FindsOnly])
  | void => exact Keeps.pure (by simp [FindsOnly])

end Declared

/-- What is made of a shape when a closed goal is handed on. -/
theorem Goal.Forwards.onlyOpen {g g' : Goal} {f : Shape → Shape} (hf : Goal.Forwards T g g' f)
    (hg : g.Closed) {s : Shape} (hs : s.OnlyOpen (openIn g'.view)) :
    (f s).OnlyOpen (openIn g.view) := by
  cases hf with
  | @slot p => exact (hg.type.slots p (by simp [Ty.occurrences])).elim
  | receiver => exact hs.relabel hg.type
  | @bound x c bound hb _ =>
    refine hs.subst ?_ (fun y => .var y) fun t ht => ?_
    · rintro p ⟨-, rfl⟩
      exact .var x
    · obtain rfl := Option.some.inj ht
      exact .var x
  | expansion =>
    refine (hs.relabel hg.type).mono ?_
    rintro p ⟨hv, -⟩
    cases hv

/-- What is found for closed goals mentions nothing but the receiver, and only where the goal stands
for it. -/
theorem kept_closed (hT : T.Hygienic) :
    Kept T Goal.Closed fun v s => s.OnlyOpen (openIn v) where
  leads hl hg := hl.closed hT hg
  outside hs := by
    refine hs.mono ?_
    rintro p ⟨hv, -⟩
    cases hv
  direct hg hd search := keeps_direct hT hg hd search
  forwards hf hg _ hs := hf.onlyOpen hg hs
  literals {ms _ _} hg name ts hts := by
    have hclosed : (Ty.unionOf ts).Closed := .unionOf fun t ht => hg.type.part (hts t ht)
    refine keeps_classShape hT.normal (hclosed.mono fun p hp => hp.elim) fun t ht => ?_
    obtain rfl := Option.some.inj ht
    exact hclosed
  union hg _ hshapes := .ofUnion hg.type hshapes
  inter hg _ hshapes := .ofInter hg.type hshapes

end Search
end TypeShape
