import TypeShape.Proofs.Declaration.Arguments
import TypeShape.Proofs.Failure
import TypeShape.Proofs.Search.Step

/-!
# Shapes from the declarations

The shapes of declarations are remembered too, but under names that are compared exactly.  As long
as the memory holds what the declarations give, it cannot be seen in any answer: a search that asks
for no further type has one answer, and leaves unions and notes alone.

Main results:

- Theorems `Search.returns_instanceShape` and `Search.returns_classObjectBase`: what is remembered
  of declarations is what they give.
- Theorem `Search.applied_cases`: what the shape of an application is.
- Theorem `Search.corresponds_applied`: applications of one name to different arguments.
- Theorem `Search.settled_direct`: a direct goal has one answer.
-/

namespace TypeShape

/-- What is remembered of declarations is what they give. -/
structure Cache.Right (T : Table) (b : Cache) : Prop where
  instances : ∀ name s, Keyed.get? name b.instances = some s →
    ∃ methods, Search.instanceTable T name = .ok methods ∧
      s = Search.shapeOfMethods .bot methods
  classObjects : ∀ name s, Keyed.get? name b.classObjects = some s →
    ∃ methods, T.singletonMethods name = .ok methods ∧
      s = Search.shapeOfMethods (.singleton name) methods

/-- An empty memory is right. -/
theorem Cache.Right.empty (T : Table) : Cache.empty.Right T where
  instances name s h := by simp [Cache.empty] at h
  classObjects name s h := by simp [Cache.empty] at h

/-- Only unions and notes tell right memories apart. -/
theorem Cache.Right.congr {T : Table} {b b' : Cache} (h : b.Right T)
    (hi : b'.instances = b.instances) (hc : b'.classObjects = b.classObjects) : b'.Right T where
  instances := by simpa only [hi] using h.instances
  classObjects := by simpa only [hc] using h.classObjects

namespace Search

variable {α β : Type} {T : Table}

/-- From every right memory the search has this answer, and leaves the memory right and its unions
and notes as they were. -/
def Returns (T : Table) (m : Search α) (r : Except ShapeError α) : Prop :=
  ∀ b : Cache, b.Right T →
    ∃ b', m b = some (r, b') ∧ b'.Right T ∧ b'.unions = b.unions ∧ b'.pending = b.pending

namespace Returns

/-- An answer is returned as it is. -/
theorem pure (a : α) : Returns T (pure a) (.ok a) :=
  fun b hb => ⟨b, rfl, hb, rfl, rfl⟩

/-- So is an error. -/
theorem throw (e : ShapeError) : Returns T (throw e : Search α) (.error e) :=
  fun b hb => ⟨b, rfl, hb, rfl, rfl⟩

/-- What uses an answer returns what it does for the answer. -/
theorem bind {m : Search α} {k : α → Search β} {a : α} {r : Except ShapeError β}
    (hm : Returns T m (.ok a)) (hk : Returns T (k a) r) : Returns T (m >>= k) r := by
  intro b hb
  obtain ⟨b₁, h₁, hb₁, hu₁, hp₁⟩ := hm b hb
  obtain ⟨b₂, h₂, hb₂, hu₂, hp₂⟩ := hk b₁ hb₁
  exact ⟨b₂, by rw [bind_apply, h₁]; exact h₂, hb₂, hu₂.trans hu₁, hp₂.trans hp₁⟩

/-- An error ends what would use the answer. -/
theorem bind_error {m : Search α} {k : α → Search β} {e : ShapeError}
    (hm : Returns T m (.error e)) : Returns T (m >>= k) (.error e) := by
  intro b hb
  obtain ⟨b₁, h₁, hb₁, hu₁, hp₁⟩ := hm b hb
  exact ⟨b₁, by rw [bind_apply, h₁], hb₁, hu₁, hp₁⟩

/-- What is made of an answer is returned. -/
theorem map {m : Search α} {r : Except ShapeError α} (h : α → β) (hm : Returns T m r) :
    Returns T (h <$> m) (r.map h) := by
  intro b hb
  obtain ⟨b₁, h₁, hb₁, hu₁, hp₁⟩ := hm b hb
  exact ⟨b₁, by rw [map_apply, h₁]; rfl, hb₁, hu₁, hp₁⟩

/-- There is only one answer. -/
theorem unique {m : Search α} {r r' : Except ShapeError α} (h : Returns T m r)
    (h' : Returns T m r') : r = r' := by
  obtain ⟨b, hb, -⟩ := h Cache.empty (.empty T)
  obtain ⟨b', hb', -⟩ := h' Cache.empty (.empty T)
  rw [hb] at hb'
  exact (Prod.mk.inj (Option.some.inj hb')).1

end Returns

/-- The search has one answer from every right memory. -/
def Settled (T : Table) (m : Search α) : Prop :=
  ∃ r, Returns T m r

namespace Settled

/-- An answer is settled. -/
theorem pure (a : α) : Settled T (pure a) :=
  ⟨_, .pure a⟩

/-- A search and one that uses its answer are settled if both are. -/
theorem bind {m : Search α} {k : α → Search β} (hm : Settled T m) (hk : ∀ a, Settled T (k a)) :
    Settled T (m >>= k) := by
  obtain ⟨e | a, hr⟩ := hm
  · exact ⟨_, hr.bind_error⟩
  · obtain ⟨r, hr'⟩ := hk a
    exact ⟨r, hr.bind hr'⟩

/-- What is made of a settled answer is settled. -/
theorem map {m : Search α} (h : α → β) (hm : Settled T m) : Settled T (h <$> m) := by
  obtain ⟨r, hr⟩ := hm
  exact ⟨_, hr.map h⟩

end Settled

/-- Both searches have one answer each: the same error, or related results. -/
def Corresponds (T : Table) (R : α → β → Prop) (m : Search α) (m' : Search β) : Prop :=
  ∃ r r', Returns T m r ∧ Returns T m' r' ∧ ExceptRel R r r'

namespace Corresponds

variable {R : α → β → Prop} {m : Search α} {m' : Search β}

/-- Searches that report one error correspond. -/
theorem error {e : ShapeError} (h : Returns T m (.error e)) (h' : Returns T m' (.error e)) :
    Corresponds T R m m' :=
  ⟨_, _, h, h', .error e⟩

/-- So do searches with related answers. -/
theorem ok {a : α} {b : β} (h : Returns T m (.ok a)) (h' : Returns T m' (.ok b)) (hab : R a b) :
    Corresponds T R m m' :=
  ⟨_, _, h, h', .ok hab⟩

/-- What is made of related answers is related. -/
theorem map {γ δ : Type} {R' : γ → δ → Prop} {f : α → γ} {g : β → δ} (h : Corresponds T R m m')
    (hfg : ∀ a b, R a b → R' (f a) (g b)) : Corresponds T R' (f <$> m) (g <$> m') := by
  obtain ⟨r, r', hr, hr', hends⟩ := h
  cases hends with
  | error e => exact .error (hr.map f) (hr'.map g)
  | ok hab => exact .ok (hr.map f) (hr'.map g) (hfg _ _ hab)

end Corresponds

/-! ## Remembered declarations -/

/-- The shape of a class's instances is that of their methods. -/
theorem returns_instanceShape {name : TypeName} {methods : MethodTable}
    (h : instanceTable T name = .ok methods) :
    Returns T (instanceShape T name) (.ok (shapeOfMethods .bot methods)) := by
  intro b hb
  cases hg : Keyed.get? name b.instances with
  | some s =>
    obtain ⟨methods', hm', rfl⟩ := hb.instances name s hg
    rw [h] at hm'
    obtain rfl := Except.ok.inj hm'
    exact ⟨b, by simp only [instanceShape, get_bind_apply, hg]; rfl, hb, rfl, rfl⟩
  | none =>
    refine ⟨{ b with instances := Keyed.insert name (shapeOfMethods .bot methods) b.instances },
      ?_, ⟨?_, hb.classObjects⟩, rfl, rfl⟩
    · simp only [instanceShape, get_bind_apply, hg, h]
      rfl
    · intro name' s hs
      rw [Keyed.get?_insert] at hs
      split at hs
      · rename_i heq
        exact ⟨methods, heq ▸ h, (Option.some.inj hs).symm⟩
      · exact hb.instances name' s hs

/-- A class that cannot be built has no shape of instances. -/
theorem returns_instanceShape_error {name : TypeName} {e : DeclError}
    (h : instanceTable T name = .error e) :
    Returns T (instanceShape T name) (.error (.declaration e)) := by
  intro b hb
  cases hg : Keyed.get? name b.instances with
  | some s =>
    obtain ⟨methods', hm', -⟩ := hb.instances name s hg
    rw [h] at hm'
    cases hm'
  | none => exact ⟨b, by simp only [instanceShape, get_bind_apply, hg, h]; rfl, hb, rfl, rfl⟩

/-- The shape of a class object is that of its methods. -/
theorem returns_classObjectBase {name : TypeName} {methods : MethodTable}
    (h : T.singletonMethods name = .ok methods) :
    Returns T (classObjectBase T name) (.ok (shapeOfMethods (.singleton name) methods)) := by
  intro b hb
  cases hg : Keyed.get? name b.classObjects with
  | some s =>
    obtain ⟨methods', hm', rfl⟩ := hb.classObjects name s hg
    rw [h] at hm'
    obtain rfl := Except.ok.inj hm'
    exact ⟨b, by simp only [classObjectBase, get_bind_apply, hg]; rfl, hb, rfl, rfl⟩
  | none =>
    refine ⟨{ b with
      classObjects := Keyed.insert name (shapeOfMethods (.singleton name) methods)
        b.classObjects }, ?_, ⟨hb.instances, ?_⟩, rfl, rfl⟩
    · simp only [classObjectBase, get_bind_apply, hg, h]
      rfl
    · intro name' s hs
      rw [Keyed.get?_insert] at hs
      split at hs
      · rename_i heq
        subst heq
        exact ⟨methods, h, (Option.some.inj hs).symm⟩
      · exact hb.classObjects name' s hs

/-- A class object that cannot be built has no shape. -/
theorem returns_classObjectBase_error {name : TypeName} {e : DeclError}
    (h : T.singletonMethods name = .error e) :
    Returns T (classObjectBase T name) (.error (.declaration e)) := by
  intro b hb
  cases hg : Keyed.get? name b.classObjects with
  | some s =>
    obtain ⟨methods', hm', -⟩ := hb.classObjects name s hg
    rw [h] at hm'
    cases hm'
  | none => exact ⟨b, by simp only [classObjectBase, get_bind_apply, hg, h]; rfl, hb, rfl, rfl⟩

/-- The shape of instances is the same from every right memory. -/
theorem settled_instanceShape (name : TypeName) : Settled T (instanceShape T name) := by
  cases h : instanceTable T name with
  | error e => exact ⟨_, returns_instanceShape_error h⟩
  | ok methods => exact ⟨_, returns_instanceShape h⟩

/-- So is that of a class object. -/
theorem settled_classObjectBase (name : TypeName) : Settled T (classObjectBase T name) := by
  cases h : T.singletonMethods name with
  | error e => exact ⟨_, returns_classObjectBase_error h⟩
  | ok methods => exact ⟨_, returns_classObjectBase h⟩

/-! ## Classes and applications -/

/-- The shape of a class is that of its methods, or there is an error. -/
theorem classShape_cases (name : TypeName) (receiver label : Option Ty) :
    (∃ e, Returns T (classShape T name receiver label) (.error e) ∧
      ∀ methods, instanceTable T name ≠ .ok methods) ∨
    ∃ methods, instanceTable T name = .ok methods ∧
      Returns T (classShape T name receiver label)
        (.ok ((shapeOfMethods .bot methods).subst
          ((nominalAnchors T (.ofClass name)).withSelf receiver) label)) := by
  cases h : instanceTable T name with
  | error e => exact Or.inl ⟨_, (returns_instanceShape_error h).bind_error, by simp⟩
  | ok methods => exact Or.inr ⟨methods, rfl, (returns_instanceShape h).bind (.pure _)⟩

/-- There is a shape of a class when its methods are known. -/
theorem exists_returns_classShape_iff {name : TypeName} {receiver label : Option Ty} :
    (∃ s, Returns T (classShape T name receiver label) (.ok s)) ↔
      ∃ methods, instanceTable T name = .ok methods := by
  rcases classShape_cases (T := T) name receiver label with ⟨e, hr, hno⟩ | ⟨methods, hm, hr⟩
  · refine iff_of_false ?_ fun ⟨methods, hm⟩ => hno methods hm
    rintro ⟨s, hs⟩
    cases hr.unique hs
  · exact iff_of_true ⟨_, hr⟩ ⟨methods, hm⟩

/-- A name takes that many arguments; none at all can always be given. -/
def Takes (T : Table) (name : TypeName) (count : Nat) : Prop :=
  count = 0 ∨ ∃ params, T.paramsOf name = .ok params ∧ params.length = count

/-- What arguments are bound to: variables in order, each to one of the arguments. -/
structure Binds (args : List Ty) (app : Subst) : Prop where
  sorted : Keyed.Sorted app.vars
  anchors : app.anchors = {}
  mem : ∀ x t, app.get? x = some t → t ∈ args

/-- Arguments are bound if the name takes as many, and there is an error otherwise. -/
theorem argumentSubst_cases (name : TypeName) (args : List Ty) :
    (∃ e, Returns T (argumentSubst T name args) (.error e) ∧ ¬ Takes T name args.length) ∨
    ∃ app, Returns T (argumentSubst T name args) (.ok app) ∧ Takes T name args.length ∧
      Binds args app := by
  unfold argumentSubst
  split
  · rename_i hnil
    have hargs : args = [] := List.isEmpty_iff.mp hnil
    exact Or.inr ⟨_, .pure _, Or.inl (by simp [hargs]), List.Pairwise.nil, rfl,
      by simp [Subst.empty, Subst.get?]⟩
  · rename_i hne
    have hlen : args.length ≠ 0 := by simpa using hne
    cases hp : T.paramsOf name with
    | error e =>
      refine Or.inl ⟨_, (Returns.throw (.declaration e)).bind_error, ?_⟩
      rintro (h | ⟨params, h, -⟩)
      · exact hlen h
      · cases hp ▸ h
    | ok params =>
      cases hl : Subst.ofLists (params.map (·.name)) args {} with
      | error e =>
        refine Or.inl ⟨.substitution e, (Returns.pure params).bind ?_, ?_⟩
        · rw [hl]
          exact .throw _
        · rintro (h | ⟨params', h, hcount⟩)
          · exact hlen h
          · rw [hp] at h
            obtain rfl := Except.ok.inj h
            simp [Subst.ofLists, hcount] at hl
      | ok app =>
        refine Or.inr ⟨app, (Returns.pure params).bind ?_, Or.inr ⟨params, hp, ?_⟩,
          Subst.sorted_of_ofLists hl, Subst.anchors_of_ofLists hl, fun x t hx =>
            Subst.mem_of_ofLists hl hx⟩
        · rw [hl]
          exact .pure app
        · by_contra hcount
          simp [Subst.ofLists, hcount] at hl

/-- The shape of an application, for given anchors. -/
def applied (T : Table) (name : TypeName) (args : List Ty) (anchors : Subst) (label : Option Ty) :
    Search Shape := do
  let app ← argumentSubst T name args
  let s ← ofSubst (anchors.andThen app)
  let shape ← instanceShape T name
  return shape.subst s label

/-- Anchors that are not there fill in nothing. -/
theorem Anchors.orElse_none (a : Anchors) : a.orElse {} = a := by
  obtain ⟨s, c, i⟩ := a
  cases s <;> cases c <;> cases i <;> rfl

section Bound

variable {name : TypeName} {args : List Ty} {app anchors : Subst} (label : Option Ty)
  (happ : Returns T (argumentSubst T name args) (.ok app)) (hbinds : Binds args app)
  (ha : anchors.vars = [])

include hbinds ha in
/-- The arguments of an application are bound beside the anchors. -/
theorem returns_andThen :
    Returns T (ofSubst (anchors.andThen app)) (.ok ⟨app.vars, anchors.anchors⟩) := by
  rw [Subst.andThen_of_vars_eq_nil ha hbinds.sorted, hbinds.anchors, Anchors.orElse_none]
  exact .pure _

include happ hbinds ha

/-- The shape of an application is that of the methods with the parameters bound. -/
theorem returns_applied {methods : MethodTable} (hm : instanceTable T name = .ok methods) :
    Returns T (applied T name args anchors label)
      (.ok ((shapeOfMethods .bot methods).subst ⟨app.vars, anchors.anchors⟩ label)) :=
  happ.bind ((returns_andThen hbinds ha).bind ((returns_instanceShape hm).bind (.pure _)))

/-- An application of a class that cannot be built has no shape. -/
theorem returns_applied_error {e : DeclError} (hm : instanceTable T name = .error e) :
    Returns T (applied T name args anchors label) (.error (.declaration e)) :=
  happ.bind ((returns_andThen hbinds ha).bind (returns_instanceShape_error hm).bind_error)

end Bound

/-- Applications of one name to different arguments fail alike, or their shapes come from the same
methods. -/
theorem corresponds_applied {name : TypeName} {args args' : List Ty}
    {app app' anchors anchors' : Subst} {label label' : Option Ty} {R : Shape → Shape → Prop}
    (happ : Returns T (argumentSubst T name args) (.ok app)) (hbinds : Binds args app)
    (happ' : Returns T (argumentSubst T name args') (.ok app')) (hbinds' : Binds args' app')
    (ha : anchors.vars = []) (ha' : anchors'.vars = [])
    (h : ∀ methods, instanceTable T name = .ok methods →
      R ((shapeOfMethods .bot methods).subst ⟨app.vars, anchors.anchors⟩ label)
        ((shapeOfMethods .bot methods).subst ⟨app'.vars, anchors'.anchors⟩ label')) :
    Corresponds T R (applied T name args anchors label) (applied T name args' anchors' label') := by
  cases hm : instanceTable T name with
  | error e =>
    exact .error (returns_applied_error label happ hbinds ha hm)
      (returns_applied_error label' happ' hbinds' ha' hm)
  | ok methods =>
    exact .ok (returns_applied label happ hbinds ha hm)
      (returns_applied label' happ' hbinds' ha' hm) (h methods hm)

/-- The shape of an application is that of the methods with the parameters bound, or there is an
error. -/
theorem applied_cases (name : TypeName) (args : List Ty) {anchors : Subst} (label : Option Ty)
    (ha : anchors.vars = []) :
    (∃ e, Returns T (applied T name args anchors label) (.error e) ∧
      ¬ (Takes T name args.length ∧ ∃ methods, instanceTable T name = .ok methods)) ∨
    ∃ app methods, Binds args app ∧ Takes T name args.length ∧
      instanceTable T name = .ok methods ∧
      Returns T (applied T name args anchors label)
        (.ok ((shapeOfMethods .bot methods).subst ⟨app.vars, anchors.anchors⟩ label)) := by
  rcases argumentSubst_cases (T := T) name args with ⟨e, hr, hno⟩ | ⟨app, hr, htakes, hbinds⟩
  · exact Or.inl ⟨e, hr.bind_error, fun h => hno h.1⟩
  · cases hm : instanceTable T name with
    | error e => exact Or.inl ⟨_, returns_applied_error label hr hbinds ha hm, by simp⟩
    | ok methods =>
      exact Or.inr ⟨app, methods, hbinds, htakes, rfl, returns_applied label hr hbinds ha hm⟩

/-- There is a shape of an application when the name takes so many arguments and its methods are
known; what the arguments are does not matter. -/
theorem exists_returns_applied_iff {name : TypeName} {args : List Ty} {anchors : Subst}
    {label : Option Ty} (ha : anchors.vars = []) :
    (∃ s, Returns T (applied T name args anchors label) (.ok s)) ↔
      Takes T name args.length ∧ ∃ methods, instanceTable T name = .ok methods := by
  rcases applied_cases (T := T) name args label ha with
    ⟨e, hr, hno⟩ | ⟨app, methods, -, htakes, hm, hr⟩
  · refine iff_of_false ?_ hno
    rintro ⟨s, hs⟩
    cases hr.unique hs
  · exact iff_of_true ⟨_, hr⟩ ⟨htakes, methods, hm⟩

/-! ## Direct goals -/

/-- The shape of a class is the same from every right memory. -/
theorem settled_classShape (name : TypeName) (receiver label : Option Ty) :
    Settled T (classShape T name receiver label) :=
  (settled_instanceShape name).bind fun _ => .pure _

/-- So is the shape of an application. -/
theorem settled_applied (name : TypeName) (args : List Ty) {anchors : Subst} (label : Option Ty)
    (ha : anchors.vars = []) : Settled T (applied T name args anchors label) := by
  rcases applied_cases (T := T) name args label ha with
    ⟨e, hr, -⟩ | ⟨app, methods, -, -, -, hr⟩
  · exact ⟨_, hr⟩
  · exact ⟨_, hr⟩

/-- So is that of a class object for a receiver. -/
theorem settled_classObjectShape (name : TypeName) (receiver : Option Ty) :
    Settled T (classObjectShape T name receiver) :=
  (settled_classObjectBase name).bind fun _ => .pure _

/-- So is that of a boolean. -/
theorem settled_boolShape (t : Ty) (receiver : Option Ty) : Settled T (boolShape T t receiver) :=
  (settled_classShape _ _ _).bind fun _ => (settled_classShape _ _ _).bind fun _ => .pure _

/-- A direct goal has one answer. -/
theorem settled_direct {g : Goal} (hd : g.type.isDirect = true)
    (search : Goal → Search (Option Shape)) : Settled T (g.step T search) := by
  obtain ⟨t, c, v⟩ := g
  cases t with
  | named kind name args =>
    cases kind with
    | aliasOf => simp [Ty.isDirect] at hd
    | instanceOf => exact (settled_applied name args _ rfl).map some
    | interfaceOf => exact (settled_applied name args _ rfl).map some
  | singleton name => exact (settled_classObjectShape name _).map some
  | literal value => exact (settled_classShape _ _ _).map some
  | bool => exact (settled_boolShape _ _).map some
  | logic question => exact (settled_boolShape _ _).map some
  | nil => exact (settled_classShape _ _ _).map some
  | proc callable => exact (settled_classShape _ _ _).bind fun _ => .pure _
  | tuple items => exact (settled_applied _ _ _ rfl).bind fun _ => .pure _
  | record fields => exact (settled_applied _ _ _ rfl).bind fun _ => .pure _
  | slot s => simp [Ty.isDirect] at hd
  | var x => simp [Ty.isDirect] at hd
  | union ms => simp [Ty.isDirect] at hd
  | inter ms => simp [Ty.isDirect] at hd
  | untyped => exact .pure _
  | top => exact .pure _
  | bot => exact .pure _
  | void => exact .pure _

end Search
end TypeShape
