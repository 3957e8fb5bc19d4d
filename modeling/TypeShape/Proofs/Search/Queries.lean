import TypeShape.Proofs.Search.Lockstep

/-!
# Queries

A query asks for the shape of a type from outside or as the receiver.  Its answer is made from the
shape of its goal.  Queries that are made one after another share what is remembered.

Main results:

- Theorem `Search.Query.run_apply`: how a query is answered.
- Theorem `Search.Query.answers_of_beq`: a union is answered with the shape that an equal one was
  given before.
-/

namespace TypeShape
namespace Search

variable {T : Table}

/-! ## Queries -/

/-- A question about the shape of a type, from outside or as the receiver. -/
inductive Query where
  | shape (t : Ty) (c : Context)
  | shapeAsSelf (t : Ty) (c : Context)

namespace Query

/-- The search that answers a query. -/
def run (T : Table) : Query → Search (Option Shape)
  | shape t c => Search.shape T t c
  | shapeAsSelf t c => Search.shapeAsSelf T t c

/-- The goal that a query starts from. -/
def goal : Query → Goal
  | shape t c => ⟨t, c, .outside⟩
  | shapeAsSelf t c => ⟨t, c, .asReceiver⟩

/-- What is made of the shape of the goal. -/
def finish : Query → Shape → Shape
  | shape t c, s =>
    match t, c.anchorSubst? with
    | .slot .selfType, _ => s
    | _, some anchors => s.subst anchors none
    | _, none => s
  | shapeAsSelf _ _, s => s

/-- A query leaves the shape of its goal as it is, or puts in the anchors of its context. -/
theorem finish_cases (q : Query) :
    q.finish = id ∨ q.finish = fun s => s.subst (.ofAnchors q.goal.context.anchors) none := by
  cases q with
  | shapeAsSelf t c => exact Or.inl rfl
  | shape t c =>
    have hsubst : c.anchorSubst? = none ∨ c.anchorSubst? = some (.ofAnchors c.anchors) := by
      unfold Context.anchorSubst?
      split
      · exact Or.inl rfl
      · exact Or.inr rfl
    by_cases ht : t = .slot .selfType
    · subst ht
      exact Or.inl rfl
    · rcases hsubst with hnone | hsome
      · refine Or.inl (funext fun s => ?_)
        simp only [finish, hnone]
        rfl
      · refine Or.inr (funext fun s => ?_)
        simp only [finish, hsome]
        rfl

/-- A query is answered from the shape of its goal. -/
theorem run_eq (q : Query) : q.run T = Option.map q.finish <$> findGoal T q.goal := by
  cases q with
  | shape t c =>
    rw [← Goal.bind_pure_map]
    refine bind_congr fun o => ?_
    cases o with
    | none => rfl
    | some s =>
      simp only [finish, Option.map_some]
      split <;> simp_all
  | shapeAsSelf t c => exact (Goal.map_id_search _).symm

/-- The answer of a query and the memory after it are known from those of its goal. -/
theorem run_apply (q : Query) (b : Cache) :
    q.run T b = (findGoal T q.goal b).map fun r => (r.1.map (Option.map q.finish), r.2) := by
  rw [run_eq, map_apply]

/-- The answer to a query is made of what is found for its goal. -/
theorem run_answer (q : Query) (b : Cache) :
    (q.run T b).map (·.1) =
      ((findGoal T q.goal b).map (·.1)).map (Except.map (Option.map q.finish)) := by
  rw [run_apply, Option.map_map, Option.map_map]
  rfl

/-- A query that ends has searched for its goal. -/
theorem exists_of_run {q : Query} {b b' : Cache} {r : Except ShapeError (Option Shape)}
    (h : q.run T b = some (r, b')) : ∃ r', findGoal T q.goal b = some (r', b') := by
  rw [run_apply] at h
  obtain ⟨⟨r', b₁⟩, hfind, heq⟩ := Option.map_eq_some_iff.mp h
  obtain rfl := (Prod.mk.inj heq).2
  exact ⟨r', hfind⟩

/-- The answers to queries made one after another. -/
def answers (T : Table) : List Query → Cache → Option (List (Except ShapeError (Option Shape)))
  | [], _ => some []
  | q :: qs, b => do
    let (answer, b') ← q.run T b
    return answer :: (← answers T qs b')

/-- The answer to a query that is made before any other. -/
def fresh (T : Table) (q : Query) : Option (Except ShapeError (Option Shape)) :=
  (q.run T Cache.empty).map (·.1)

/-- A goal with one answer is answered so from every right memory. -/
theorem run_of_returns {q : Query} {r : Except ShapeError (Option Shape)}
    (h : Returns T (q.goal.step T (findGoal T)) r) {b : Cache} (hb : b.Right T) :
    ∃ b', q.run T b = some (r.map (Option.map q.finish), b') := by
  obtain ⟨b', hb', -⟩ := h b hb
  exact ⟨b', by rw [run_apply, findGoal_eq, hb']; rfl⟩

/-- A goal with one answer is answered so at first. -/
theorem fresh_of_returns {q : Query} {r : Except ShapeError (Option Shape)}
    (h : Returns T (q.goal.step T (findGoal T)) r) :
    fresh T q = some (r.map (Option.map q.finish)) := by
  obtain ⟨b, hb⟩ := run_of_returns h (.empty T)
  rw [fresh, hb]
  rfl

/-- Without anchors nothing is put in at the end. -/
theorem finish_of_empty {q : Query} (h : q.goal.context = .empty) : q.finish = id := by
  cases q with
  | shape t c =>
    obtain rfl : c = .empty := h
    funext s
    simp only [finish]
    split
    · rfl
    · rename_i hsome
      cases hsome
    · rfl
  | shapeAsSelf t c => rfl

/-- Queries without anchors are answered alike when their goals are. -/
theorem fresh_of_corresponds {q q' : Query} {R : Option Shape → Option Shape → Prop}
    (hq : q.goal.context = .empty) (hq' : q'.goal.context = .empty)
    (h : Corresponds T R (q.goal.step T (findGoal T)) (q'.goal.step T (findGoal T))) :
    ∃ r r', fresh T q = some r ∧ fresh T q' = some r' ∧ ExceptRel R r r' := by
  obtain ⟨r, r', hr, hr', hends⟩ := h
  refine ⟨r, r', ?_, ?_, hends⟩
  · rw [fresh_of_returns hr, finish_of_empty hq, Option.map_id]
    cases r <;> rfl
  · rw [fresh_of_returns hr', finish_of_empty hq', Option.map_id]
    cases r' <;> rfl

/-- The memory after queries made one after another. -/
def after (T : Table) : List Query → Cache → Option Cache
  | [], b => some b
  | q :: qs, b => do
    let (_, b') ← q.run T b
    after T qs b'

/-- What every query keeps holds of the memory after all of them. -/
theorem after_of_kept {I : Cache → Prop} {qs : List Query}
    (hkept : ∀ q ∈ qs, ∀ b r b', I b → q.run T b = some (r, b') → I b') {b b' : Cache} (hb : I b)
    (h : after T qs b = some b') : I b' := by
  induction qs generalizing b with
  | nil =>
    obtain rfl := Option.some.inj h
    exact hb
  | cons q qs ih =>
    obtain ⟨hq, hqs⟩ := List.forall_mem_cons.mp hkept
    obtain ⟨⟨r, b₁⟩, hrun, hrest⟩ := Option.bind_eq_some_iff.mp h
    exact ih hqs (hq b r b₁ hb hrun) hrest

/-- The first answer comes first. -/
theorem answers_cons {q : Query} {b b' : Cache} {r : Except ShapeError (Option Shape)}
    (h : q.run T b = some (r, b')) (qs : List Query) :
    answers T (q :: qs) b = (answers T qs b').map (r :: ·) := by
  rw [answers, h, Option.map_eq_bind]
  rfl

/-- What is found within a depth is the answer to a fresh query. -/
theorem fresh_of_within {q : Query} {n : Nat} {r : Except ShapeError (Option Shape)}
    (h : (withinGoal T n q.goal Cache.empty).map (·.1) = some r) :
    fresh T q = some (r.map (Option.map q.finish)) := by
  obtain ⟨⟨r', b⟩, hn, rfl⟩ := Option.map_eq_some_iff.mp h
  rw [fresh, run_answer, findGoal_eq_some_iff.mpr ⟨n, hn⟩]
  rfl

/-! ## What queries meet -/

/-- The query meets the goal.  The view of a union does not matter. -/
def Met (T : Table) (q : Query) (g : Goal) : Prop :=
  ∃ v, Reaches T q.goal ⟨g.type, g.context, v⟩ ∧ (v = g.view ∨ ∃ ms, g.type = .union ms)

/-- A query meets its own goal. -/
theorem met_goal (q : Query) : Met T q q.goal :=
  ⟨_, .refl, Or.inl rfl⟩

/-- It meets a union in every view. -/
theorem Met.view {q : Query} {ms : List Ty} {c : Context} {v : View} (h : Met T q ⟨.union ms, c, v⟩)
    (v' : View) : Met T q ⟨.union ms, c, v'⟩ := by
  obtain ⟨w, hr, -⟩ := h
  exact ⟨w, hr, Or.inr ⟨ms, rfl⟩⟩

/-- It meets what the goals that it meets lead to. -/
theorem Met.leads {q : Query} {g g' : Goal} (h : Met T q g) (hl : Leads T g g') : Met T q g' := by
  obtain ⟨v, hr, rfl | ⟨ms, hu⟩⟩ := h
  · exact ⟨g'.view, hr.tail hl, Or.inl rfl⟩
  · have hl' : Leads T ⟨g.type, g.context, v⟩ g' := by
      cases hl with
      | forward hf => cases hf <;> cases hu
      | union hm hlit => exact .union hm hlit
      | inter => cases hu
    exact ⟨g'.view, hr.tail hl', Or.inl rfl⟩

/-- What is inside of a goal that a query meets is met, too. -/
theorem Met.transGen {q : Query} {g g' : Goal} (h : Met T q g)
    (hr : Relation.TransGen (Leads T) g g') : Met T q g' := by
  induction hr with
  | single hl => exact h.leads hl
  | tail _ hl ih => exact ih.leads hl

/-- A query that is well formed meets only such goals. -/
theorem Met.wellFormed {q : Query} {g : Goal} (hT : T.AliasesWellFormed) (hq : q.goal.WellFormed)
    (h : Met T q g) : g.WellFormed := by
  obtain ⟨v, hr, -⟩ := h
  obtain ⟨ht, ha, hb⟩ := Reaches.wellFormed hT hr hq
  exact ⟨ht, ha, hb⟩

/-! ## Equal unions -/

/-- A union that was found is remembered for all equal ones. -/
theorem remembered_of_found {ms ms' : List Ty} {c : Context} {v : View} {s : Shape} {b b' : Cache}
    (hbeq : (Ty.union ms == Ty.union ms') = true) (hb : rememberedUnion? b (.union ms) c = none)
    (h : findGoal T ⟨.union ms, c, v⟩ b = some (.ok (some s), b')) :
    rememberedUnion? b' (.union ms') c = some s := by
  rw [findGoal_union, searchUnion_apply, hb] at h
  dsimp only at h
  rcases hrun : allGroupShapes T (fun m => findGoal T ⟨m, c, .outside⟩) (memberGroups ms) b with
    _ | ⟨e | _ | shapes, b₁⟩ <;> rw [hrun] at h
  · cases h
  · cases h
  · cases h
  · obtain ⟨hs, rfl⟩ := Prod.mk.inj (Option.some.inj h)
    obtain rfl := Option.some.inj (Except.ok.inj hs)
    rw [rememberedUnion?_remember, hbeq, Context.beq_refl]
    rfl

/-- The overload that takes such arguments and returns `nil`. -/
def overloadOf (params : List Ty) : Overload :=
  ⟨[], ⟨⟨{ required := params }, .nil⟩, none⟩, []⟩

/-- A class with one method. -/
def classOf (name : TypeName) (overloads : List Overload) : TypeName × ModuleDecl :=
  (name, { name, kind := .classDecl, members := [{ name := "m", overloads }] })

/-- The union of both classes, in either order. -/
def leftFirst : Ty :=
  .union [.ofClass ⟨"::A"⟩, .ofClass ⟨"::B"⟩]

@[inherit_doc leftFirst]
def rightFirst : Ty :=
  .union [.ofClass ⟨"::B"⟩, .ofClass ⟨"::A"⟩]

/-- Two classes that declare the overloads of a method in opposite orders, and an alias for their
union. -/
def oppositeOrders : Table where
  modules := [classOf ⟨"::A"⟩ [overloadOf [], overloadOf [.nil]],
    classOf ⟨"::B"⟩ [overloadOf [.nil], overloadOf []]]
  aliases := [(⟨"::either"⟩, { name := ⟨"::either"⟩, body := leftFirst })]

/-- The shape of a union of both classes. -/
def shapeOfBoth (t : Ty) (overloads : List Overload) : Shape :=
  let origins := [⟨⟨.ofInstances, ⟨"::A"⟩, "m"⟩, ⟨"::A"⟩⟩, ⟨⟨.ofInstances, ⟨"::B"⟩, "m"⟩, ⟨"::B"⟩⟩]
  ⟨t, [("m", .ofPublic (overloads.map fun o => { o with origins }))]⟩

end Query
end Search
end TypeShape
