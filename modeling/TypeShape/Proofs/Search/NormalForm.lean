import TypeShape.Proofs.Search.Queries
import TypeShape.Proofs.Search.Tested

/-!
# Shapes in normal form

From declarations, types and contexts in normal form a search finds shapes in normal form, also
after any number of other searches.

Main results:

- Theorem `Search.Query.normal_run`: after queries in normal form the answer to another one is in
  normal form.
-/

namespace TypeShape

/-- The anchors and the bounds of a context are in normal form. -/
structure Context.Normal (c : Context) : Prop where
  anchors : ∀ p t, c.anchors.get? p = some t → t.Normal
  bounds : ∀ e ∈ c.bounds, e.2.Normal

namespace Search

variable {T : Table}

/-- The type and the context of a goal are in normal form. -/
structure Goal.Normal (g : Goal) : Prop where
  type : g.type.Normal
  context : g.context.Normal

/-- A goal is in normal form if the test for it passes. -/
theorem Goal.normal_iff_passes {g : Goal} : g.Normal ↔ g.Passes Ty.normalHere :=
  ⟨fun h => ⟨h.type, h.context.anchors, h.context.bounds⟩,
    fun h => ⟨h.type, h.anchors, h.bounds⟩⟩

/-- What a nominal type puts for placeholders and parameters is in normal form. -/
theorem normal_imageOf_anchors {vars : List (String × Ty)} {anchors : Anchors}
    (hvars : ∀ x t, Keyed.get? x vars = some t → t.Normal)
    (hanchors : ∀ p t, anchors.get? p = some t → t.Normal) (x : FreeVar) :
    (Subst.imageOf ⟨vars, anchors⟩ x).Normal :=
  passes_imageOf_anchors Ty.setTest_normalHere hvars hanchors x

/-- The shape of declared methods in normal form is in normal form. -/
theorem normal_shapeOfMethods {label : Ty} {methods : MethodTable} (hlabel : label.Normal)
    (h : methods.Normal) : (shapeOfMethods label methods).Normal :=
  Shape.normal_iff_passes.mpr (passes_shapeOfMethods Ty.setTest_normalHere hlabel h)

/-- What the declarations give for instances is in normal form. -/
theorem normal_instances (hT : T.Normal) {name : TypeName} {methods : MethodTable}
    (h : instanceTable T name = .ok methods) : (shapeOfMethods .bot methods).Normal :=
  normal_shapeOfMethods rfl (normal_instanceTable hT h)

/-! ## Queries -/

namespace Query

/-- The type and the context of a query are in normal form. -/
def Normal (q : Query) : Prop :=
  q.goal.Normal

section Tests

variable {test : Ty → Bool} (htest : Ty.SetTest test)

include htest

/-- Putting in the anchors of a query keeps what passes. -/
theorem passes_finish {q : Query} (hq : q.goal.Passes test) {s : Shape} (hs : s.Passes test) :
    (q.finish s).Passes test := by
  rcases q.finish_cases with h | h <;> rw [h]
  · exact hs
  · exact hs.subst htest (passes_imageOf_anchors htest (by simp) hq.anchors) (by simp)

/-- A query that passes finds shapes that pass, and remembers only such. -/
theorem passes_run (hT : T.Passes test) {q : Query} (hq : q.goal.Passes test) :
    Keeps (Remembers T (Shape.Passes test)) (q.run T) (FindsOnly (Shape.Passes test)) := by
  rw [run_eq]
  refine Keeps.map ?_
  intro b r b' hb hr
  obtain ⟨n, hn⟩ := findGoal_eq_some_iff.mp hr
  obtain ⟨hb', hfound⟩ := (kept_passes htest hT).withinGoal n hq hb hn
  refine ⟨hb', fun o ho s hs => ?_⟩
  obtain ⟨s', rfl, rfl⟩ := Option.map_eq_some_iff.mp hs
  exact passes_finish htest hq (hfound _ ho s' rfl)

/-- After queries that pass only shapes that pass are remembered. -/
theorem remembers_after (hT : T.Passes test) {qs : List Query}
    (hqs : ∀ q ∈ qs, q.goal.Passes test) {b b' : Cache}
    (hb : Remembers T (Shape.Passes test) b) (h : after T qs b = some b') :
    Remembers T (Shape.Passes test) b' :=
  after_of_kept (fun q hq _ _ _ hb hrun => (passes_run htest hT (hqs q hq) hb hrun).1) hb h

end Tests

/-- After queries in normal form the answer to another one is in normal form. -/
theorem normal_run (hT : T.Normal) {qs : List Query} (hqs : ∀ q ∈ qs, q.Normal) {q : Query}
    (hq : q.Normal) {b b' : Cache} {s : Shape} (hb : after T qs Cache.empty = some b)
    (h : q.run T b = some (.ok (some s), b')) : s.Normal := by
  have hmemory := remembers_after Ty.setTest_normalHere hT.passes
    (fun q hq => Goal.normal_iff_passes.mp (hqs q hq)) (.empty T _) hb
  have hfound := passes_run Ty.setTest_normalHere hT.passes (Goal.normal_iff_passes.mp hq) hmemory h
  exact Shape.normal_iff_passes.mpr (hfound.2 _ rfl s rfl)

end Query
end Search
end TypeShape
