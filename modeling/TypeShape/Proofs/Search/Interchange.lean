import TypeShape.Proofs.Search.Sequence

/-!
# Unions that stand for each other

What a search finds for a goal with empty memory need not be the shape that the goal has, since
equal unions that it meets on the way share what is remembered.  The two agree if equal unions met
inside of the goal have shapes that stand for each other.  Inside of unions it matters where
overloads come from, and elsewhere it does not.

Main results:

- Theorem `Search.likeness_matchIn`: what is made of shapes that stand for each other does so.
- Theorem `Search.Query.exists_fresh_matches`: a search for a union finds what stands for its shape.
-/

namespace TypeShape
namespace Search

variable {T : Table} {All Clear Asked Inner : Goal → Prop} {E : Goal → Shape → Shape → Prop}

/-! ## Origins inside of unions -/

/-- Goals that are asked for, and those among them that are inside of unions.  Both do not depend on
the order of members. -/
structure Region (T : Table) (Asked Inner : Goal → Prop) : Prop where
  leads : ∀ {g g'}, Asked g → Leads T g g' → Asked g'
  inner : ∀ {g g'}, Inner g → Leads T g g' → Inner g'
  member : ∀ {ms c v g'}, Asked ⟨.union ms, c, v⟩ → Leads T ⟨.union ms, c, v⟩ g' → Inner g'
  like : ∀ {g g'}, g.Like g' → Asked g → Asked g'
  inner_like : ∀ {g g'}, g.Like g' → Inner g → Inner g'

/-- All goals may be taken to be inside of unions. -/
theorem Region.all (T : Table) : Region T (fun _ => True) fun _ => True := by
  constructor <;> intros <;> trivial

/-- The shapes stand for each other if the goal is asked for, with the same origins if it is inside
of a union. -/
def MatchIn (Asked Inner : Goal → Prop) (g : Goal) (s s' : Shape) : Prop :=
  Asked g → Shape.Matches (Inner g) s s'

/-- Goals are handed on with shapes that stand for each other. -/
theorem Goal.Forwards.matches {traced : Prop} {g g' : Goal} {f : Shape → Shape} {s s' : Shape}
    (hf : Goal.Forwards T g g' f) (hg : g.WellFormed) (h : Shape.Matches traced s s') :
    Shape.Matches traced (f s) (f s') := by
  cases hf with
  | slot => exact h
  | receiver => exact h.relabel (.refl hg.type)
  | @bound x =>
    have hvar : Ty.WellFormed (.var x) := hg.type
    refine
      h.subst (passes_imageOf_anchors Ty.setTest_distinctHere (by simp) ?_) (.some (.refl hvar))
    rintro (_ | _ | _) t ⟨⟩
    exact hvar
  | expansion => exact h.relabel (.refl hg.type)

section Declared

variable (hT : T.WellFormed) {g : Goal} {s : Shape}

include hT

/-- What the declarations give for a direct goal is well formed. -/
theorem wellFormed_of_direct (hg : g.WellFormed) (hd : g.type.isDirect = true)
    {search : Goal → Search (Option Shape)} (h : Returns T (g.step T search) (.ok (some s))) :
    s.WellFormed := by
  have hkeeps := passes_direct (P := fun _ => True) Ty.setTest_distinctHere hT.passes
    (Goal.wellFormed_iff_passes.mp hg) hd search
  exact hkeeps.of_returns h s rfl

/-- What the declarations give for the literals of a class in a union is well formed. -/
theorem wellFormed_of_literals {ms ts : List Ty} {c : Context} {v : View} {name : TypeName}
    (hg : Goal.WellFormed ⟨.union ms, c, v⟩) (hmem : (some name, ts) ∈ memberGroups ms)
    (h : Returns T (classShape T name (some (Ty.unionOf ts)) (some (Ty.unionOf ts))) (.ok s)) :
    s.WellFormed := by
  have hunion : ∀ t, some (Ty.unionOf ts) = some t → t.all Ty.distinctHere = true := by
    rintro t ⟨⟩
    refine Ty.setTest_distinctHere.closes.unionOf fun t ht => hg.type.part ?_
    exact ((grouped_memberGroups ms).mem _ hmem t ht).1
  have hkeeps : Keeps (Remembers T fun _ => True)
      (classShape T name (some (Ty.unionOf ts)) (some (Ty.unionOf ts))) Shape.WellFormed :=
    passes_classShape Ty.setTest_distinctHere hT.passes hunion hunion
  exact hkeeps.of_returns h

/-- What is made of shapes that stand for each other does so. -/
theorem likeness_matchIn (hall : ∀ {g}, All g → g.WellFormed) (hR : Region T Asked Inner) :
    Likeness T All (MatchIn Asked Inner) where
  symm h hasked := (h hasked).symm
  trans h h' hasked := (h hasked).trans (h' hasked)
  direct hg hd hs _ := .refl (wellFormed_of_direct hT (hall hg) hd (hs (findGoal T)))
  forward hg hf h hasked := by
    have hl := Leads.forward hf
    exact hf.matches (hall hg) ((h (hR.leads hasked hl)).mono fun hin => hR.inner hin hl)
  union {ms c v _ _} hg h hasked := by
    have hmembers := h.imp fun s s' hs => show Shape.Matches True s s' from by
      cases hs with
      | literals hmem hs => exact .refl (wellFormed_of_literals hT (hall hg) hmem hs)
      | member hm hlit hs =>
        have hl : Leads T ⟨.union ms, c, v⟩ _ := .union hm hlit
        exact (hs (hR.leads hasked hl)).mono fun _ => hR.member hasked hl
    exact (Shape.Matches.ofUnion trivial (.refl (hall hg).type) hmembers).mono fun _ => trivial
  inter {ms c v _ _} hg h hasked := by
    refine .ofInter (.refl (hall hg).type) (h.imp ?_)
    rintro s s' ⟨m, hm, hs⟩
    have hl : Leads T ⟨.inter ms, c, v⟩ _ := .inter hm
    exact (hs (hR.leads hasked hl)).mono fun hin => hR.inner hin hl
  congr hg hg' hconfused h hasked := by
    have hlike := hconfused.like (hall hg) (hall hg')
    exact (h (hR.like hlike hasked)).mono (hR.inner_like hlike)

end Declared

/-- The shape of a goal is alike to itself. -/
theorem Likeness.refl_of_resolves (hE : Likeness T All E)
    (hleads : ∀ {g g'}, All g → Leads T g g' → All g') {n : Nat} {g : Goal} {s : Shape} (hg : All g)
    (h : Resolves T n g s) : E g s s := by
  induction h with
  | direct hd hs => exact hE.direct hg hd hs
  | forward hf _ ih => exact hE.forward hg hf (ih (hleads hg (.forward hf)))
  | @union n ms c v shapes σ _ hs ih =>
    let P (s : Shape) : Prop := MemberShapes T E ms c s s
    have hkeeps : Keeps (Remembers T fun _ => True)
        (allGroupShapes T (known σ) (memberGroups ms)) fun o =>
          ∀ shapes, o = some shapes →
            GroupShapes (fun _ _ => P) (fun _ => P) (memberGroups ms) shapes := by
      refine Keeps.allGroupShapes (fun name ts hmem => ?_) fun g hmem hnone m hm => ?_
      · exact (Lasting.remembers.keeps (settled_classShape name _ _)).mono fun s hs =>
          .literals hmem hs
      · obtain ⟨hms, hlit⟩ := mem_of_mem_memberGroups hmem hnone hm
        refine Keeps.pure fun s heq => ?_
        obtain rfl := Option.some.inj heq
        exact .member hms hlit (ih m hms hlit (hleads hg (.union hms hlit)))
    have hshapes := hkeeps.of_returns hs shapes rfl
    exact hE.union hg (List.forall₂_same.mpr
      (hshapes.forall_shapes (fun _ _ _ hs => hs) fun _ _ hs => hs))
  | @inter n ms c v σ _ ih =>
    refine hE.inter hg (List.forall₂_same.mpr fun s hs => ?_)
    obtain ⟨m, hm, rfl⟩ := List.mem_map.mp hs
    exact ⟨m, hm, ih m hm (hleads hg (.inter hm))⟩

/-! ## Shapes and what is found -/

/-- Unions inside of the goal that may be confused have shapes that stand for each other. -/
def Interchangeable (T : Table) (g : Goal) : Prop :=
  ∀ {ms c v ms' c' v' n n' s s'}, Relation.TransGen (Leads T) g ⟨.union ms, c, v⟩ →
    Relation.TransGen (Leads T) g ⟨.union ms', c', v'⟩ → Confused ms c ms' c' →
      Resolves T n ⟨.union ms, c, v⟩ s → Resolves T n' ⟨.union ms', c', v'⟩ s' →
        Shape.Matches True s s'

/-- A goal is not alike to one inside of it that has a shape. -/
theorem not_like_of_transGen (hT : T.AliasesWellFormed) {n : Nat} {g g' : Goal} {s : Shape}
    (hr : Relation.TransGen (Leads T) g g') (hs : Resolves T n g' s) : ¬ g'.Like g :=
  fun hlike => not_resolves_of_cycle hr (fun _ _ h => h.congr hT hlike) n s hs

namespace Query

/-- What a query meets is its goal or inside of it. -/
theorem Met.cases {q : Query} {ms : List Ty} {c : Context} {v : View}
    (h : Met T q ⟨.union ms, c, v⟩) :
    ∃ v', q.goal = ⟨.union ms, c, v'⟩ ∨ Relation.TransGen (Leads T) q.goal ⟨.union ms, c, v'⟩ := by
  obtain ⟨v', hr, -⟩ := h
  rcases Relation.reflTransGen_iff_eq_or_transGen.mp hr with heq | hr
  · exact ⟨v', Or.inl heq.symm⟩
  · exact ⟨v', Or.inr hr⟩

section Interchangeable

variable (hT : T.WellFormed) {q : Query} (hq : q.goal.WellFormed) (hin : Interchangeable T q.goal)

include hT hq hin

/-- If unions inside of its goal can stand for each other, all that a query meets is clear. -/
theorem scope_of_interchangeable :
    Scope T (Met T q) (Met T q) (MatchIn (fun _ => True) fun _ => True) where
  aliases := hT.aliases
  like := likeness_matchIn hT (fun hm => hm.wellFormed hT.aliases hq) (.all T)
  wellFormed hm := (hm.wellFormed hT.aliases hq).type
  leads hm hl := hm.leads hl
  view hm v := hm.view v
  clear_leads hm hl := hm.leads hl
  clear_view hm := hm.view _
  same := by
    intro ms c ms' c' hm hm' hconfused
    refine ⟨hm', fun s' ⟨n, hs'⟩ => ?_⟩
    have hlike : ∀ {v v'}, Goal.Like ⟨.union ms', c', v'⟩ ⟨.union ms, c, v⟩ := by
      intro v v'
      exact hconfused.like ((hm.view v).wellFormed hT.aliases hq)
        ((hm'.view v').wellFormed hT.aliases hq)
    obtain ⟨s, hs⟩ := hs'.congr hT.aliases hlike
    refine ⟨n, s, hs, fun _ => ?_⟩
    -- A union inside of the goal is not confused with the goal, which would have no shape then.
    obtain ⟨v, hv | hv⟩ := hm.cases <;> obtain ⟨v', hv' | hv'⟩ := hm'.cases
    · obtain ⟨⟨rfl⟩, rfl, rfl⟩ := Goal.mk.inj (hv.symm.trans hv')
      obtain rfl := hs.unique hs'
      have hE : Likeness T (Met T q) (MatchIn (fun _ => True) fun _ => True) :=
        likeness_matchIn hT (fun hm => hm.wellFormed hT.aliases hq) (.all T)
      exact hE.refl_of_resolves (fun hm hl => hm.leads hl) hm hs trivial
    · rw [hv] at hv'
      exact absurd hlike (not_like_of_transGen hT.aliases hv' (hs'.union_view v'))
    · rw [hv'] at hv
      exact absurd hlike.symm (not_like_of_transGen hT.aliases hv (hs.union_view v))
    · exact hin hv hv' hconfused (hs.union_view v) (hs'.union_view v')

end Interchangeable

/-- If unions inside of a union can stand for each other, a search for the union finds what stands
for its shape. -/
theorem exists_fresh_matches (hT : T.WellFormed) {n : Nat} {ms : List Ty} {c : Context} {v : View}
    {s : Shape} (hg : Goal.WellFormed ⟨.union ms, c, v⟩)
    (hin : Interchangeable T ⟨.union ms, c, .asReceiver⟩) (hs : Resolves T n ⟨.union ms, c, v⟩ s) :
    ∃ s', fresh T (.shapeAsSelf (.union ms) c) = some (.ok (some s')) ∧
      Shape.Matches True s s' := by
  have hq : (Query.shapeAsSelf (.union ms) c).goal.WellFormed := ⟨hg.type, hg.anchors, hg.bounds⟩
  have hS := scope_of_interchangeable hT hq hin
  obtain ⟨s', b, hb, hmatch, -⟩ := complete hS (hs.union_view .asReceiver) (met_goal _) (met_goal _)
    (.nil T _) ⟨Cache.Good.empty T _ _ _, rfl⟩
  refine ⟨s', ?_, hmatch trivial⟩
  rw [fresh, run_apply, goal, hb]
  rfl

end Query
end Search
end TypeShape
