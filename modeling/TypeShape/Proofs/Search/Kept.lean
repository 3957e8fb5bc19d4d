import TypeShape.Proofs.Search.Memory
import TypeShape.Proofs.Shape.Open

/-!
# What every search keeps

A property of shapes holds of all that a search finds if it holds of the shapes of declarations and
passes from shapes to the shapes that are made of them.  What is remembered of unions then has the
property too, so it also holds of what later searches find.

Main results:

- Theorem `Search.Kept.step`: one step keeps the property if further searches do.
- Theorem `Search.Kept.withinGoal`: a search to any depth keeps it.
-/

namespace TypeShape
namespace Search

variable {T : Table}

/-! ## Memory of unions -/

/-- The memory is right, and unions are remembered with shapes that have a property. -/
structure Remembers (T : Table) (P : Shape → Prop) (b : Cache) : Prop where
  right : b.Right T
  unions : ∀ e ∈ b.unions, P e.2

section Memory

variable {P : Shape → Prop}

/-- An empty memory remembers nothing. -/
theorem Remembers.empty (T : Table) (P : Shape → Prop) : Remembers T P Cache.empty :=
  ⟨.empty T, by simp [Cache.empty]⟩

/-- Remembering shapes with a property lasts. -/
theorem Lasting.remembers : Lasting T (Remembers T P) where
  right hb := hb.right
  congr hb hr hu _ := ⟨hr, by simpa only [hu] using hb.unions⟩

/-- What is kept holds of the answer of a search that has the same one always. -/
theorem Keeps.of_returns {α : Type} {m : Search α} {Q : α → Prop} {a : α}
    (h : Keeps (Remembers T P) m Q) (hr : Returns T m (.ok a)) : Q a := by
  obtain ⟨b, hm, -⟩ := hr Cache.empty (.empty T)
  exact (h (.empty T P) hm).2 a rfl

/-- Looking through a type leaves the memory of unions as it is. -/
theorem Keeps.lookingThrough_remembers {α : Type} {t : Ty} {m : Search α} {Q : α → Prop}
    (h : Keeps (Remembers T P) m Q) : Keeps (Remembers T P) (Search.lookingThrough t m) Q := by
  intro b r b' hb hr
  rcases lookingThrough_eq_some.mp hr with ⟨-, rfl, rfl⟩ | ⟨-, b₁, hm, rfl⟩
  · exact ⟨hb, by simp⟩
  · have hnoted : Remembers T P (note b t) := ⟨hb.right.congr rfl rfl, hb.unions⟩
    obtain ⟨hb₁, hQ⟩ := h hnoted hm
    exact ⟨⟨hb₁.right.congr rfl rfl, hb₁.unions⟩, hQ⟩

end Memory

/-! ## Shapes of declarations -/

section Declared

variable {P Q : Shape → Prop}

/-- What the search for a class finds has the property that its methods' shape has. -/
theorem keeps_classShape_of {name : TypeName} {receiver label : Option Ty}
    (h : ∀ methods, instanceTable T name = .ok methods →
      Q ((shapeOfMethods .bot methods).subst
        ((nominalAnchors T (.ofClass name)).withSelf receiver) label)) :
    Keeps (Remembers T P) (classShape T name receiver label) Q := by
  refine (Lasting.remembers.keeps (settled_classShape name receiver label)).mono fun s hs => ?_
  rcases classShape_cases (T := T) name receiver label with ⟨e, hr, -⟩ | ⟨methods, hm, hr⟩
  · cases hs.unique hr
  · obtain rfl := Except.ok.inj (hs.unique hr)
    exact h methods hm

/-- The same for an application. -/
theorem keeps_applied_of {name : TypeName} {args : List Ty} {anchors : Subst} {label : Option Ty}
    (ha : anchors.vars = [])
    (h : ∀ app methods, Binds args app → instanceTable T name = .ok methods →
      Q ((shapeOfMethods .bot methods).subst ⟨app.vars, anchors.anchors⟩ label)) :
    Keeps (Remembers T P) (applied T name args anchors label) Q := by
  refine (Lasting.remembers.keeps (settled_applied name args label ha)).mono fun s hs => ?_
  rcases applied_cases (T := T) name args label ha with
    ⟨e, hr, -⟩ | ⟨app, methods, hbinds, -, hm, hr⟩
  · cases hs.unique hr
  · obtain rfl := Except.ok.inj (hs.unique hr)
    exact h app methods hbinds hm

/-- The same for a class object. -/
theorem keeps_classObjectShape_of {name : TypeName} {receiver : Option Ty}
    (h : ∀ methods, T.singletonMethods name = .ok methods →
      Q ((shapeOfMethods (.singleton name) methods).subst
        ((nominalAnchors T (.singleton name)).withSelf receiver) (some (.singleton name)))) :
    Keeps (Remembers T P) (classObjectShape T name receiver) Q := by
  refine Keeps.bind (Lasting.remembers.keeps (settled_classObjectBase name)) fun base hbase =>
    Keeps.pure ?_
  cases hm : T.singletonMethods name with
  | error e => cases hbase.unique (returns_classObjectBase_error hm)
  | ok methods =>
    obtain rfl := Except.ok.inj (hbase.unique (returns_classObjectBase hm))
    exact h methods hm

/-- A test that passes in the declarations passes in the methods of instances and interfaces. -/
theorem passes_instanceTable {test : Ty → Bool} (htest : Ty.SetTest test) (hT : T.Passes test)
    {name : TypeName} {methods : MethodTable} (h : instanceTable T name = .ok methods) :
    methods.Passes test := by
  unfold instanceTable at h
  split at h
  · exact hT.interfaceMethods htest h
  · exact hT.instanceMethods htest h

/-- The methods of instances and interfaces are in normal form. -/
theorem normal_instanceTable (hT : T.Normal) {name : TypeName} {methods : MethodTable}
    (h : instanceTable T name = .ok methods) : methods.Normal :=
  passes_instanceTable Ty.setTest_normalHere hT.passes h

end Declared

/-! ## Steps -/

/-- What is found, if anything, has a property. -/
def FindsOnly (P : Shape → Prop) (o : Option Shape) : Prop :=
  ∀ s, o = some s → P s

/-- A search that always finds something finds only what it answers. -/
theorem Keeps.some {I : Cache → Prop} {m : Search Shape} {P : Shape → Prop} (h : Keeps I m P) :
    Keeps I (Option.some <$> m) (FindsOnly P) := by
  refine Keeps.map (h.mono fun s hs s' heq => ?_)
  obtain rfl := Option.some.inj heq
  exact hs

/-- A property of what is found for good goals, by their view, that passes from the shapes of
further goals to the shapes that are made of them. -/
structure Kept (T : Table) (Good : Goal → Prop) (P : View → Shape → Prop) : Prop where
  leads : ∀ {g g'}, Leads T g g' → Good g → Good g'
  outside : ∀ {v s}, P .outside s → P v s
  direct : ∀ {g}, Good g → g.type.isDirect = true → ∀ search,
    Keeps (Remembers T (P .outside)) (g.step T search) (FindsOnly (P g.view))
  forwards : ∀ {g g' f}, Goal.Forwards T g g' f → Good g → ∀ {s}, P g'.view s → P g.view (f s)
  literals : ∀ {ms c v}, Good ⟨.union ms, c, v⟩ → ∀ name ts, (∀ t ∈ ts, t ∈ ms) →
    Keeps (Remembers T (P .outside))
      (classShape T name (some (Ty.unionOf ts)) (some (Ty.unionOf ts))) (P .outside)
  union : ∀ {ms c v}, Good ⟨.union ms, c, v⟩ → ∀ shapes, (∀ s ∈ shapes, P .outside s) →
    P .outside (Shape.ofUnion (.union ms) shapes)
  inter : ∀ {ms c v}, Good ⟨.inter ms, c, v⟩ → ∀ shapes, (∀ s ∈ shapes, P .outside s) →
    P .outside (Shape.ofInter (.inter ms) shapes)

namespace Kept

variable {Good : Goal → Prop} {P : View → Shape → Prop} (hP : Kept T Good P)

include hP

/-- The search for a union keeps the property if those for its members do. -/
theorem searchUnion {ms : List Ty} {c : Context} {v : View} (hg : Good ⟨.union ms, c, v⟩)
    {search : Goal → Search (Option Shape)}
    (h : ∀ g', Leads T ⟨.union ms, c, v⟩ g' →
      Keeps (Remembers T (P .outside)) (search g') (FindsOnly (P g'.view))) :
    Keeps (Remembers T (P .outside))
      (searchUnion T (fun m => search ⟨m, c, .outside⟩) (.union ms) ms c) (FindsOnly (P v)) := by
  have hany : ∀ {s : Shape}, P .outside s → FindsOnly (P v) (some s) := by
    intro s hs s' heq
    obtain rfl := Option.some.inj heq
    exact hP.outside hs
  refine Keeps.searchUnion (by simp [FindsOnly]) ?_ (Keeps.allGroupShapes
    (K := fun _ _ => P .outside) (Q := fun _ => P .outside) ?_ ?_) ?_
  · intro b s hb hrem
    obtain ⟨e, he, -, rfl⟩ := exists_of_remembered hrem
    exact hany (hb.unions e he)
  · intro name ts hgroup
    exact hP.literals hg name ts fun t ht => ((grouped_memberGroups ms).mem _ hgroup t ht).1
  · intro g hgroup hn m hm
    obtain ⟨hmem, hl⟩ := mem_of_mem_memberGroups hgroup hn hm
    exact h _ (.union hmem hl)
  · intro b shapes hb hshapes
    have hunion := hP.union hg shapes (hshapes.forall_shapes (fun _ _ _ h => h) fun _ _ h => h)
    exact ⟨⟨hb.right.congr rfl rfl, List.forall_mem_cons.mpr ⟨hunion, hb.unions⟩⟩, hany hunion⟩

/-- One step keeps the property if further searches do. -/
theorem step {g : Goal} (hg : Good g) {search : Goal → Search (Option Shape)}
    (h : ∀ g', Leads T g g' →
      Keeps (Remembers T (P .outside)) (search g') (FindsOnly (P g'.view))) :
    Keeps (Remembers T (P .outside)) (g.step T search) (FindsOnly (P g.view)) := by
  cases g.form T with
  | direct hd => exact hP.direct hg hd search
  | stops r hnone _ hr =>
    rw [hr g.context (.refl g)]
    exact Keeps.ret fun o ho s hs => absurd (hs ▸ ho) (hnone s)
  | stopsNoted r hnone _ hr =>
    rw [hr g.context (.refl g)]
    exact Keeps.lookingThrough_remembers (Keeps.ret fun o ho s hs => absurd (hs ▸ ho) (hnone s))
  | forwards g' f hf =>
    have hstep : Keeps (Remembers T (P .outside)) (Option.map f <$> search g')
        (FindsOnly (P g.view)) := by
      refine Keeps.map ((h g' (.forward hf)).mono fun o ho s hs => ?_)
      obtain ⟨s', rfl, rfl⟩ := Option.map_eq_some_iff.mp hs
      exact hP.forwards hf hg (ho s' rfl)
    rw [Goal.step_forwards search hf]
    unfold Goal.noted
    split
    · exact hstep
    · exact hstep.lookingThrough_remembers
  | union ms hu =>
    obtain ⟨t, c, v⟩ := g
    obtain rfl : t = .union ms := hu
    exact hP.searchUnion hg h
  | inter ms hi =>
    obtain ⟨t, c, v⟩ := g
    obtain rfl : t = .inter ms := hi
    refine Keeps.bind (Keeps.shapesOf (Q := fun _ => P .outside) fun m hm => h _ (.inter hm))
      fun shapes hshapes => ?_
    cases shapes with
    | none => exact Keeps.pure (by simp [FindsOnly])
    | some shapes =>
      refine Keeps.pure fun s hs => ?_
      obtain rfl := Option.some.inj hs
      exact hP.outside (hP.inter hg shapes
        (forall_of_forall₂ (hshapes shapes rfl) fun _ _ h => h))

/-- A search to any depth keeps the property. -/
theorem withinGoal (n : Nat) {g : Goal} (hg : Good g) :
    Keeps (Remembers T (P .outside)) (withinGoal T n g) (FindsOnly (P g.view)) := by
  induction n generalizing g with
  | zero =>
    intro b r b' _ h
    simp [withinGoal_zero] at h
  | succ n ih =>
    rw [withinGoal_succ]
    exact hP.step hg fun g' hl => ih (hP.leads hl hg)

end Kept
end Search
end TypeShape
