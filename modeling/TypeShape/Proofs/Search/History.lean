import TypeShape.Proofs.Search.Interchange

/-!
# Queries and the memory they leave

Queries that are made one after another share what is remembered of unions, and a union is answered
with what was made for an equal one, whose members may be written in another order.  Every query is
nevertheless answered with a shape equal to the one that it would be given alone, provided that
equal unions which it and an earlier query meet have equal shapes.  Where such a union is part of
another one, equal shapes are not enough: their overloads have to come from the same places, too.

Main results:

- Theorem `Search.Query.Consistent.matches`: equal unions of consistent queries have shapes that
  stand for each other.
- Theorem `Search.Query.run_after`: a query is answered as if it were the first.
- Theorem `Search.Query.answers_beq_fresh`: so are all queries of a sequence.
- Theorem `Search.Query.remembered_in_other_order`: a union is answered from memory with the
  overloads in the order of a differently written one.
- Theorem `Search.Query.remembered_with_other_origins`: inside of a union it matters where the
  overloads of equal shapes come from.
-/

namespace TypeShape
namespace Search

variable {T : Table}

namespace Query

/-! ## Consistent queries -/

/-- The query meets the union, or an equal one, inside of a union. -/
def MetInUnion (T : Table) (q : Query) (ms : List Ty) (c : Context) : Prop :=
  ∃ ms₀ c₀ ms₁ c₁ v, Met T q ⟨.union ms₀, c₀, .outside⟩ ∧
    Relation.TransGen (Leads T) ⟨.union ms₀, c₀, .outside⟩ ⟨.union ms₁, c₁, v⟩ ∧
      (Ty.union ms₁ == Ty.union ms && c₁ == c) = true

/-- Equal unions, one met by each query, are given equal shapes when they are asked for alone.  If
the second query meets such a union inside of a union, then the overloads come from the same places,
too. -/
def Consistent (T : Table) (q q' : Query) : Prop :=
  ∀ ms c ms' c' s s', Met T q ⟨.union ms, c, .outside⟩ → Met T q' ⟨.union ms', c', .outside⟩ →
    (Ty.union ms == Ty.union ms' && c == c') = true →
      fresh T (.shapeAsSelf (.union ms) c) = some (.ok (some s)) →
        fresh T (.shapeAsSelf (.union ms') c') = some (.ok (some s')) →
          (s == s') = true ∧ (MetInUnion T q' ms' c' → s.origins = s'.origins)

/-- The query meets the goal or one that is alike. -/
def MeetsLike (T : Table) (q : Query) (g : Goal) : Prop :=
  ∃ g₀, Met T q g₀ ∧ g₀.Like g

/-- The query meets the goal, or one that is alike, inside of a union. -/
def Within (T : Table) (q : Query) (g : Goal) : Prop :=
  ∃ ms c g₀, Met T q ⟨.union ms, c, .outside⟩ ∧
    Relation.TransGen (Leads T) ⟨.union ms, c, .outside⟩ g₀ ∧ g₀.Like g

/-- The view of a union can be left out of account when goals are compared. -/
theorem like_of_view {ms ms' : List Ty} {c c' : Context} {v v' : View}
    (h : Goal.Like ⟨.union ms, c, v⟩ ⟨.union ms', c', v'⟩) (w w' : View) :
    Goal.Like ⟨.union ms, c, w⟩ ⟨.union ms', c', w'⟩ :=
  ⟨h.type, h.context, Or.inr ⟨ms, rfl⟩⟩

/-- What is alike to a union that a query meets is alike to a union. -/
theorem MeetsLike.exists_union {q : Query} {ms : List Ty} {c : Context} {v : View}
    (h : MeetsLike T q ⟨.union ms, c, v⟩) : ∃ ms₀ c₀, Met T q ⟨.union ms₀, c₀, .outside⟩ ∧
      Goal.Like ⟨.union ms₀, c₀, .outside⟩ ⟨.union ms, c, v⟩ := by
  obtain ⟨⟨t, c₀, v₀⟩, hm, hlike⟩ := h
  obtain ⟨ms₀, rfl⟩ := hlike.symm.isUnion ⟨ms, rfl⟩
  exact ⟨ms₀, c₀, hm.view _, like_of_view hlike _ _⟩

/-- A union that is met inside of a union is so up to equality. -/
theorem Within.metInUnion {q : Query} {ms : List Ty} {c : Context} {v : View}
    (h : Within T q ⟨.union ms, c, v⟩) : MetInUnion T q ms c := by
  obtain ⟨ms₀, c₀, ⟨t, c₁, v₁⟩, hm, hr, hlike⟩ := h
  obtain ⟨ms₁, rfl⟩ := hlike.symm.isUnion ⟨ms, rfl⟩
  exact ⟨ms₀, c₀, ms₁, c₁, v₁, hm, hr,
    Bool.and_eq_true_iff.mpr ⟨hlike.type.beq, hlike.context.beq⟩⟩

/-- What is inside of a union that a query meets is within, whatever the view of the union. -/
theorem Within.of_met (hT : T.AliasesWellFormed) {q : Query} {ms : List Ty} {c : Context} {v : View}
    {g : Goal} (hm : Met T q ⟨.union ms, c, v⟩)
    (hr : Relation.TransGen (Leads T) ⟨.union ms, c, v⟩ g) : Within T q g := by
  obtain ⟨g₁, hr₁, hlike⟩ := Leads.transGen_like hT hr 
    (like_of_view (.refl ⟨.union ms, c, v⟩) v .outside)
  exact ⟨ms, c, g₁, hm.view _, hr₁, hlike.symm⟩

/-- What a query meets, and what it meets inside of unions, up to the order of members. -/
theorem region_meetsLike (hT : T.AliasesWellFormed) (q : Query) :
    Region T (MeetsLike T q) (Within T q) where
  leads := by
    rintro g g' ⟨g₀, hm, hlike⟩ hl
    obtain ⟨g₁, hl₁, hlike₁⟩ := hl.like hT hlike.symm
    exact ⟨g₁, hm.leads hl₁, hlike₁.symm⟩
  inner := by
    rintro g g' ⟨ms, c, g₀, hm, hr, hlike⟩ hl
    obtain ⟨g₁, hl₁, hlike₁⟩ := hl.like hT hlike.symm
    exact ⟨ms, c, g₁, hm, hr.tail hl₁, hlike₁.symm⟩
  member := by
    intro ms c v g' hasked hl
    obtain ⟨ms₀, c₀, hm, hlike⟩ := hasked.exists_union
    obtain ⟨g₁, hl₁, hlike₁⟩ := hl.like hT hlike.symm
    exact ⟨ms₀, c₀, g₁, hm, .single hl₁, hlike₁.symm⟩
  like := fun h ⟨g₀, hm, hlike⟩ => ⟨g₀, hm, hlike.trans h⟩
  inner_like := fun h ⟨ms, c, g₀, hm, hr, hlike⟩ => ⟨ms, c, g₀, hm, hr, hlike.trans h⟩

/-- Unions inside of a goal can stand for each other if they can stand for the unions inside of a
goal that is alike. -/
theorem interchangeable_of_like (hT : T.AliasesWellFormed) {g g' : Goal} (hg : g.WellFormed)
    (hlike : g.Like g')
    (h : ∀ {ms c v ms' c' v' n s s'}, Relation.TransGen (Leads T) g ⟨.union ms, c, v⟩ →
      Relation.TransGen (Leads T) g' ⟨.union ms', c', v'⟩ →
        Goal.Like ⟨.union ms, c, v⟩ ⟨.union ms', c', v'⟩ → Resolves T n ⟨.union ms, c, v⟩ s →
          Resolves T n ⟨.union ms', c', v'⟩ s' → Shape.Matches True s s') :
    Interchangeable T g := by
  intro ms₁ c₁ v₁ ms₂ c₂ v₂ n₁ n₂ s₁ s₂ hr₁ hr₂ hconfused hs₁ hs₂
  have hlike₂₁ := hconfused.like (Reaches.wellFormed hT hr₁.to_reflTransGen hg)
    (Reaches.wellFormed hT hr₂.to_reflTransGen hg)
  obtain ⟨⟨t, c, v⟩, hr, hlike₁⟩ := Leads.transGen_like hT hr₁ hlike
  obtain ⟨ms, rfl⟩ := hlike₁.isUnion ⟨ms₁, rfl⟩
  have hlike₂ := hlike₂₁.trans hlike₁
  obtain ⟨s, hs⟩ := hs₁.congr hT hlike₁
  obtain ⟨s', hs'⟩ := hs₂.congr hT hlike₂
  obtain rfl := hs.unique hs'
  exact (h hr₁ hr hlike₁ hs₁ hs).trans (h hr₂ hr hlike₂ hs₂ hs').symm

/-- Equal unions of consistent queries have shapes that stand for each other. -/
theorem Consistent.matches (hT : T.WellFormed) {q₀ q : Query} (hcons : Consistent T q₀ q)
    (hq₀ : q₀.goal.WellFormed) (hq : q.goal.WellFormed) {n : Nat} {ms ms' : List Ty}
    {c c' : Context} {v v' : View} {s s' : Shape} (hm : Met T q₀ ⟨.union ms, c, v⟩)
    (hm' : Met T q ⟨.union ms', c', v'⟩)
    (hlike : Goal.Like ⟨.union ms, c, v⟩ ⟨.union ms', c', v'⟩)
    (hs : Resolves T n ⟨.union ms, c, v⟩ s) (hs' : Resolves T n ⟨.union ms', c', v'⟩ s') :
    Shape.Matches (Within T q ⟨.union ms', c', v'⟩) s s' := by
  -- Unions inside have shapes through fewer goals, and those inside of the second are within.
  induction n using Nat.strongRecOn generalizing ms c v ms' c' v' s s' with
  | ind n ih =>
    have hwf := (hm.view .asReceiver).wellFormed hT.aliases hq₀
    have hwf' := (hm'.view .asReceiver).wellFormed hT.aliases hq
    have hinner : ∀ {ms₁ c₁ v₁ ms₂ c₂ v₂ k s₁ s₂},
        Relation.TransGen (Leads T) ⟨.union ms, c, .asReceiver⟩ ⟨.union ms₁, c₁, v₁⟩ →
        Relation.TransGen (Leads T) ⟨.union ms', c', .asReceiver⟩ ⟨.union ms₂, c₂, v₂⟩ →
        Goal.Like ⟨.union ms₁, c₁, v₁⟩ ⟨.union ms₂, c₂, v₂⟩ →
        Resolves T k ⟨.union ms₁, c₁, v₁⟩ s₁ → Resolves T k ⟨.union ms₂, c₂, v₂⟩ s₂ →
        Shape.Matches True s₁ s₂ := by
      intro ms₁ c₁ v₁ ms₂ c₂ v₂ k s₁ s₂ hr₁ hr₂ hlike₁ hs₁ hs₂
      obtain ⟨i, s₁', hi, hs₁'⟩ := (hs.union_view .asReceiver).transGen hr₁
      obtain rfl := hs₁.unique hs₁'
      obtain ⟨s₂', hs₂'⟩ := hs₁'.congr hT.aliases hlike₁
      obtain rfl := hs₂.unique hs₂'
      have hmatch := ih i hi ((hm.view _).transGen hr₁) ((hm'.view _).transGen hr₂) hlike₁ hs₁' hs₂'
      exact hmatch.mono fun _ => .of_met hT.aliases (hm'.view _) hr₂
    have hview := like_of_view hlike .asReceiver .asReceiver
    obtain ⟨f, hf, hsf⟩ := exists_fresh_matches hT (hm.wellFormed hT.aliases hq₀)
      (interchangeable_of_like hT.aliases hwf hview hinner) hs
    obtain ⟨f', hf', hsf'⟩ := exists_fresh_matches hT (hm'.wellFormed hT.aliases hq)
      (interchangeable_of_like hT.aliases hwf' hview.symm fun hr₁ hr₂ hl hs₁ hs₂ =>
        (hinner hr₂ hr₁ hl.symm hs₂ hs₁).symm) hs'
    obtain ⟨hbeq, horigins⟩ := hcons ms c ms' c' f f' (hm.view _) (hm'.view _)
      (Bool.and_eq_true_iff.mpr ⟨hlike.type.beq, hlike.context.beq⟩) hf hf'
    have hff' : Shape.Matches (Within T q ⟨.union ms', c', v'⟩) f f' :=
      Shape.matches_iff.mpr ⟨(Shape.matches_iff.mp hsf).2.1, (Shape.matches_iff.mp hsf').2.1, hbeq,
        fun hw => horigins hw.metInUnion⟩
    exact (hsf.mono fun _ => trivial).trans (hff'.trans (hsf'.mono fun _ => trivial).symm)

/-! ## One query after others -/

/-- Some query of the list meets the goal. -/
def MetByAny (T : Table) (qs : List Query) (g : Goal) : Prop :=
  ∃ q ∈ qs, Met T q g

/-- The goal is met, and the query and one before it meet goals alike. -/
structure Shared (T : Table) (before : List Query) (q : Query) (g : Goal) : Prop where
  met : MetByAny T (q :: before) g
  earlier : ∃ q₀ ∈ before, MeetsLike T q₀ g
  now : MeetsLike T q g

section After

variable (hT : T.WellFormed) {before : List Query} {q : Query}
  (hbefore : ∀ q₀ ∈ before, q₀.goal.WellFormed) (hq : q.goal.WellFormed)

include hT hbefore hq

/-- All goals that the queries meet are well formed. -/
theorem MetByAny.wellFormed {g : Goal} (h : MetByAny T (q :: before) g) : g.WellFormed := by
  obtain ⟨q', hq', hm⟩ := h
  rcases List.mem_cons.mp hq' with rfl | hq'
  · exact hm.wellFormed hT.aliases hq
  · exact hm.wellFormed hT.aliases (hbefore q' hq')

variable (hcons : ∀ q₀ ∈ before, Consistent T q₀ q)

include hcons

/-- A shared union has a shape that stands for those of the unions alike that the query meets. -/
theorem Shared.matches {n : Nat} {ms ms' : List Ty} {c c' : Context} {s s' : Shape}
    (h : Shared T before q ⟨.union ms, c, .outside⟩) (hm' : Met T q ⟨.union ms', c', .outside⟩)
    (hlike : Goal.Like ⟨.union ms, c, .outside⟩ ⟨.union ms', c', .outside⟩)
    (hs : Resolves T n ⟨.union ms, c, .outside⟩ s)
    (hs' : Resolves T n ⟨.union ms', c', .outside⟩ s') :
    Shape.Matches (Within T q ⟨.union ms, c, .outside⟩) s s' := by
  have hR := region_meetsLike hT.aliases q
  obtain ⟨q₁, hq₁, hm⟩ := h.met
  rcases List.mem_cons.mp hq₁ with rfl | hq₁
  · -- Both are met by the query, and stand for what an earlier one met.
    obtain ⟨q₀, hq₀, hearlier⟩ := h.earlier
    obtain ⟨ms₀, c₀, hm₀, hlike₀⟩ := hearlier.exists_union
    obtain ⟨s₀, hs₀⟩ := hs.congr hT.aliases hlike₀.symm
    have hfirst := (hcons q₀ hq₀).matches hT (hbefore q₀ hq₀) hq hm₀ hm hlike₀ hs₀ hs
    have hsecond :=
      (hcons q₀ hq₀).matches hT (hbefore q₀ hq₀) hq hm₀ hm' (hlike₀.trans hlike) hs₀ hs'
    exact hfirst.symm.trans (hsecond.mono (hR.inner_like hlike))
  · exact ((hcons q₁ hq₁).matches hT (hbefore q₁ hq₁) hq hm hm' hlike hs hs').mono
      (hR.inner_like hlike)

end After

/-! ## Sequences of queries -/

/-- The type of values that are all of these numbers. -/
def numbers (ns : List Int) : Ty :=
  .interOf (ns.map fun n => .literal (.integer n))

/-- A class with an index operator. -/
def indexedOf (name : TypeName) (typeParams : List TypeParam) (overloads : List Overload) :
    TypeName × ModuleDecl :=
  (name, { name, kind := .classDecl, typeParams, members := [{ name := "[]", overloads }] })

/-- The union of a tuple and a class, in either order. -/
def tupleFirst : Ty :=
  .union [.tuple [.nil], .ofClass ⟨"::B"⟩]

@[inherit_doc tupleFirst]
def classFirst : Ty :=
  .union [.ofClass ⟨"::B"⟩, .tuple [.nil]]

/-- Tuples and a class with index operators, and an alias for their union. -/
def indexedTable : Table where
  modules := [indexedOf ⟨"::Array"⟩ [{ name := "E" }] [overloadOf [numbers [1]]],
    indexedOf ⟨"::B"⟩ [] [overloadOf [numbers [0, 1]], overloadOf [numbers [0, 2]],
      overloadOf [numbers [0, 1, 2]]]]
  aliases := [(⟨"::either"⟩, { name := ⟨"::either"⟩, body := tupleFirst })]

/-- The union, through the alias, with one of its members. -/
def eitherOrClass : Ty :=
  .union [.named .aliasOf ⟨"::either"⟩ [], .ofClass ⟨"::B"⟩]

/-- A shape with an index operator, whose overloads come from the given classes. -/
def shapeOfIndex (t : Ty) (overloads : List (List Int × List TypeName)) : Shape :=
  ⟨t, [("[]", .ofPublic (overloads.map fun o =>
    { overloadOf [numbers o.1] with
      origins := o.2.map fun name => ⟨⟨.ofInstances, name, "[]"⟩, name⟩ }))]⟩

/-- Two queries are answered as far as searches through so many goals are. -/
theorem answers_of_within (q q' : Query) {n : Nat} {r r' : Except ShapeError (Option Shape)}
    (h : ((withinGoal T n q.goal Cache.empty).bind fun a =>
      (withinGoal T n q'.goal a.2).map fun a' => (a.1, a'.1)) = some (r, r')) :
    answers T [q, q'] Cache.empty =
      some [r.map (Option.map q.finish), r'.map (Option.map q'.finish)] := by
  obtain ⟨⟨r₁, b⟩, hfirst, hrest⟩ := Option.bind_eq_some_iff.mp h
  obtain ⟨⟨r₂, b'⟩, hsecond, heq⟩ := Option.map_eq_some_iff.mp hrest
  obtain ⟨rfl, rfl⟩ := Prod.mk.inj heq
  have hrun : q.run T Cache.empty = some (r₁.map (Option.map q.finish), b) := by
    rw [run_apply, findGoal_eq_some_iff.mpr ⟨n, hfirst⟩]
    rfl
  have hrun' : q'.run T b = some (r₂.map (Option.map q'.finish), b') := by
    rw [run_apply, findGoal_eq_some_iff.mpr ⟨n, hsecond⟩]
    rfl
  rw [answers_cons hrun, answers_cons hrun']
  rfl

/-- Both orders of the union have equal shapes, with an overload of other places.  After the one
order a union with the other inside of it is answered with overloads in another order. -/
theorem remembered_with_other_origins :
    ∃ first second alone later,
      fresh indexedTable (.shape tupleFirst .empty) = some (.ok (some first)) ∧
      fresh indexedTable (.shape classFirst .empty) = some (.ok (some second)) ∧
      (first == second) = true ∧
      fresh indexedTable (.shape eitherOrClass .empty) = some (.ok (some alone)) ∧
      answers indexedTable [.shape classFirst .empty, .shape eitherOrClass .empty] Cache.empty =
        some [.ok (some second), .ok (some later)] ∧
      (alone == later) = false := by
  let first := shapeOfIndex tupleFirst
    [([0, 1], [⟨"::B"⟩]), ([0, 2], [⟨"::B"⟩]), ([0, 1, 2], [⟨"::B"⟩])]
  let second := shapeOfIndex classFirst
    [([0, 1], [⟨"::B"⟩]), ([0, 2], [⟨"::B"⟩]), ([0, 2, 1], [⟨"::Array"⟩, ⟨"::B"⟩])]
  let alone := shapeOfIndex eitherOrClass
    [([0, 1], [⟨"::B"⟩]), ([0, 2], [⟨"::B"⟩]), ([0, 1, 2], [⟨"::B"⟩])]
  let later := shapeOfIndex eitherOrClass
    [([0, 1], [⟨"::B"⟩]), ([0, 1, 2], [⟨"::B"⟩]), ([0, 2], [⟨"::B"⟩])]
  refine ⟨first, second, alone, later, ?_, ?_, by decide, ?_, ?_, by decide⟩
  · exact fresh_of_within (n := 2) (r := .ok (some first)) rfl
  · exact fresh_of_within (n := 2) (r := .ok (some second)) rfl
  · exact fresh_of_within (n := 4) (r := .ok (some alone)) rfl
  · have hwithin :
        ((withinGoal indexedTable 4 ⟨classFirst, .empty, .outside⟩ Cache.empty).bind fun a =>
          (withinGoal indexedTable 4 ⟨eitherOrClass, .empty, .outside⟩ a.2).map fun a' =>
            (a.1, a'.1)) = some (.ok (some second), .ok (some later)) := rfl
    exact answers_of_within (.shape classFirst .empty) (.shape eitherOrClass .empty) hwithin

end Query
end Search
end TypeShape
