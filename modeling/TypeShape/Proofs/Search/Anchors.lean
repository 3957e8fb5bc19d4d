import TypeShape.Proofs.Declaration.Reachability
import TypeShape.Proofs.Search.Closed

/-!
# Shapes in different anchors

The shape of a type that mentions no placeholder is asked for in contexts with the same bounds but
with different anchors.  Anchors have a part in the search only as part of what unions are
remembered for: a union outside of all bounds may be taken for an equal one under a bound, if the
anchors of the query are those under the bound.  Where this makes no difference the queries have
the same answer, and it mentions no placeholder.

Main results:

- Theorem `Search.Query.closed_of_fresh`: the shape of a closed type is closed.
- Theorem `Search.Query.twins_of_bounds`: the goals of a query have twins in other anchors.
- Theorem `Search.Query.fresh_congr`: queries with other anchors have the same answer.
- Theorem `Search.Query.fresh_eq_of_bounds_eq`: the shape of a closed type is closed and does not
  depend on anchors, unless a union is taken for a differently written one under a bound.
- Theorem `Search.Query.remembered_under_bound`: such a union has another shape there.
-/

namespace TypeShape
namespace Search
namespace Query

variable {T : Table} {t : Ty} {bounds : List (String × Ty)}

/-! ## Closed answers -/

/-- From closed queries only closed goals are met. -/
theorem Met.closed {q : Query} {g : Goal} (hT : T.Hygienic) (hq : q.goal.Closed) (h : Met T q g) :
    g.Closed := by
  obtain ⟨v, hr, -⟩ := h
  obtain ⟨htype, hspelled, hbounds⟩ := hr.closed hT hq
  exact ⟨htype, hspelled, hbounds⟩

/-- Anchors are not substituted into a closed shape. -/
theorem finish_eq_self {c : Context} {s : Shape} (hs : s.OnlyOpen fun _ => False) :
    (Query.shape t c).finish s = s := by
  have hsubst : ∀ anchors, c.anchorSubst? = some anchors → s.subst anchors none = s := by
    intro anchors h
    refine hs.subst_eq_self fun x => ?_
    unfold Context.anchorSubst? at h
    split at h
    · cases h
    · obtain rfl := Option.some.inj h
      rfl
  simp only [finish]
  split
  · rfl
  · exact hsubst _ ‹_›
  · rfl

/-- The shape that is found for a closed type is closed. -/
theorem closed_of_found (hT : T.Hygienic) {g : Goal} (hg : g.Closed) (hv : g.view = .outside)
    {b : Cache} {s : Shape} (h : findGoal T g Cache.empty = some (.ok (some s), b)) :
    s.OnlyOpen fun _ => False := by
  obtain ⟨n, hn⟩ := findGoal_eq_some_iff.mp h
  have hopen := ((kept_closed hT).withinGoal n hg (.empty T _) hn).2 _ rfl s rfl
  exact hopen.mono fun p hp => nomatch hv.symm.trans hp.1

/-- A query for the shape of a closed type is answered as its goal is. -/
theorem fresh_eq_findGoal (hT : T.Hygienic) {c : Context} (hq : (Query.shape t c).goal.Closed) :
    fresh T (.shape t c) = (findGoal T ⟨t, c, .outside⟩ Cache.empty).map (·.1) := by
  rw [fresh, run_apply, goal, Option.map_map]
  refine Option.map_congr fun r hr => ?_
  obtain ⟨e | _ | s, b⟩ := r
  · rfl
  · rfl
  · have hclosed := closed_of_found hT hq rfl hr
    exact congrArg (Except.ok ∘ some) (finish_eq_self hclosed)

/-- The shape of a closed type is closed. -/
theorem closed_of_fresh (hT : T.Hygienic) {c : Context} (hq : (Query.shape t c).goal.Closed)
    {s : Shape} (h : fresh T (.shape t c) = some (.ok (some s))) : s.OnlyOpen fun _ => False := by
  rw [fresh_eq_findGoal hT hq] at h
  obtain ⟨⟨r, b⟩, hfind, rfl⟩ := Option.map_eq_some_iff.mp h
  exact closed_of_found hT hq rfl hfind

/-! ## Outside of bounds and under them -/

/-- The context with the bounds alone. -/
def unanchored (bounds : List (String × Ty)) : Context :=
  ⟨{}, bounds⟩

/-- The context in which a bound is looked at. -/
def underBound (bounds : List (String × Ty)) (bound : Ty) : Context :=
  ⟨{ selfType := some bound }, bounds⟩

/-- The goal is met outside of all bounds, whatever its anchors. -/
def Outside (T : Table) (t : Ty) (bounds : List (String × Ty)) (g : Goal) : Prop :=
  g.context.bounds = bounds ∧
    Met T (.shape t (unanchored bounds)) { g with context := unanchored bounds }

/-- The goal is met under a bound. -/
def Under (T : Table) (t : Ty) (bounds : List (String × Ty)) (g : Goal) : Prop :=
  (∃ e ∈ bounds, g.context = underBound bounds e.2) ∧ Met T (.shape t (unanchored bounds)) g

/-- Under a bound the bounds are the given ones. -/
theorem Under.bounds_eq {g : Goal} (h : Under T t bounds g) : g.context.bounds = bounds := by
  obtain ⟨⟨e, -, hc⟩, -⟩ := h
  rw [hc]
  rfl

/-- A goal under a bound has an anchor. -/
theorem Under.ne_unanchored {g : Goal} (h : Under T t bounds g) :
    g.context ≠ unanchored bounds := by
  obtain ⟨⟨e, -, hc⟩, -⟩ := h
  rw [hc]
  simp [unanchored, underBound]

/-- A goal under a bound leads to goals under bounds. -/
theorem Under.leads {g g' : Goal} (h : Under T t bounds g) (hl : Leads T g g') :
    Under T t bounds g' := by
  have hm := h.2.leads hl
  have hkeep : g'.context = g.context → Under T t bounds g' := by
    intro hc
    obtain ⟨⟨e, he, hctx⟩, -⟩ := h
    exact ⟨⟨e, he, hc.trans hctx⟩, hm⟩
  cases hl with
  | forward hf =>
    rcases hf.context with ⟨hc, -⟩ | ⟨hc, -⟩ | ⟨⟨x, hx⟩, hc, -, -⟩
    · exact hkeep hc
    · exact hkeep hc
    · have hmem : (x, g'.type) ∈ bounds := h.bounds_eq ▸ Keyed.mem_of_get? hx
      exact ⟨⟨_, hmem, by rw [hc, h.bounds_eq]; rfl⟩, hm⟩
  | union => exact hkeep rfl
  | inter => exact hkeep rfl

section Forwards

variable {g g' : Goal} {f : Shape → Shape}
  (hT : T.Hygienic) (hq : (Query.shape t (unanchored bounds)).goal.Closed)

include hT hq

/-- A goal outside of bounds is closed. -/
theorem Outside.closed (h : Outside T t bounds g) : g.Closed := by
  obtain ⟨hb, hm⟩ := h
  obtain ⟨htype, hspelled, hbounds⟩ := hm.closed hT hq
  exact ⟨htype, hspelled, by rw [hb]; exact hbounds⟩

/-- So is a goal under one. -/
theorem Under.closed (h : Under T t bounds g) : g.Closed :=
  h.2.closed hT hq

/-- A goal outside of bounds is handed on there, in whatever anchors, or to a bound. -/
theorem Outside.forwards (h : Outside T t bounds g) (hf : Goal.Forwards T g g' f) :
    (g'.context = g.context ∧ Outside T t bounds g' ∧ ∀ c : Context, c.bounds = bounds →
      Goal.Forwards T { g with context := c } { g' with context := c } f) ∨
    (Under T t bounds g' ∧ ∀ c : Context, c.bounds = bounds →
      Goal.Forwards T { g with context := c } g' f) := by
  obtain ⟨hb, hm⟩ := h
  rcases hf.context with ⟨-, p, hp⟩ | ⟨hc, hmove⟩ | ⟨⟨x, hx⟩, hc, -, hmove⟩
  · exact absurd hp ((hm.closed hT hq).not_slot p)
  · rw [hb] at hmove
    exact Or.inl ⟨hc, ⟨by rw [hc, hb], hm.leads (.forward (hmove _ rfl))⟩, hmove⟩
  · rw [hb] at hmove hc
    have hmem : (x, g'.type) ∈ bounds := hb ▸ Keyed.mem_of_get? hx
    exact Or.inr ⟨⟨⟨_, hmem, hc⟩, hm.leads (.forward (hmove _ rfl))⟩, hmove⟩

/-- A goal outside of bounds leads to one that is outside too, in the same context and in any other,
or to one under a bound. -/
theorem Outside.leads (h : Outside T t bounds g) (hl : Leads T g g') :
    (g'.context = g.context ∧ Outside T t bounds g' ∧ ∀ c : Context, c.bounds = bounds →
      Leads T { g with context := c } { g' with context := c }) ∨ Under T t bounds g' := by
  cases hl with
  | forward hf =>
    rcases h.forwards hT hq hf with ⟨hc, ho, hmove⟩ | ⟨hu, -⟩
    · exact Or.inl ⟨hc, ho, fun c hb => .forward (hmove c hb)⟩
    · exact Or.inr hu
  | union hm hlit =>
    exact Or.inl ⟨rfl, ⟨h.1, h.2.leads (.union hm hlit)⟩, fun _ _ => .union hm hlit⟩
  | inter hm => exact Or.inl ⟨rfl, ⟨h.1, h.2.leads (.inter hm)⟩, fun _ _ => .inter hm⟩

/-- A goal under a bound is well-formed. -/
theorem Under.wellFormed (h : Under T t bounds g) : g.WellFormed := by
  refine h.2.wellFormed (fun e he => (hT.normal.aliases e he).wellFormed)
    ⟨hq.type.normal.wellFormed, fun p u hu => ?_, fun e he => (hq.bounds e he).1.normal.wellFormed⟩
  cases p <;> cases hu

end Forwards

/-! ## Twins in other anchors -/

/-- Equal unions are written in the same way if one of them is met under a bound, and the other
outside of bounds or in an equal context. -/
def SameWriting (T : Table) (t : Ty) (bounds : List (String × Ty)) : Prop :=
  ∀ ms c ms' c', Met T (.shape t (unanchored bounds)) ⟨.union ms, c, .outside⟩ →
    Met T (.shape t (unanchored bounds)) ⟨.union ms', c', .outside⟩ → c' ≠ unanchored bounds →
    c = unanchored bounds ∨ (c == c') = true → (Ty.union ms == Ty.union ms') = true → ms = ms'

/-- The contexts compare alike with another one. -/
def ComparedAlike (c₁ c₂ c : Context) : Prop :=
  (c₁ == c) = (c₂ == c) ∧ (c == c₁) = (c == c₂)

/-- The goal is met under a bound, or outside of bounds in one of the contexts. -/
def MetIn (T : Table) (t : Ty) (c₁ c₂ : Context) (g : Goal) : Prop :=
  ((g.context = c₁ ∨ g.context = c₂) ∧ Outside T t c₁.bounds g) ∨ Under T t c₁.bounds g

/-- The goal is met under a bound, whether or not it is met outside of bounds too. -/
def MetUnder (T : Table) (t : Ty) (c₁ c₂ : Context) (g : Goal) : Prop :=
  SameWriting T t c₁.bounds ∧ MetIn T t c₁ c₂ g ∧ ∃ c, Under T t c₁.bounds { g with context := c }

/-- The twin of a goal outside of bounds is the same goal in the other context. -/
def TwinIn (T : Table) (t : Ty) (c₁ c₂ : Context) (g : Goal) (c : Context) : Prop :=
  (g.context = c₁ ∧ c = c₂ ∧ Outside T t c₁.bounds g) ∨ (c = g.context ∧ Under T t c₁.bounds g)

/-- Goals that are met have the given bounds. -/
theorem MetIn.bounds_eq {c₁ c₂ : Context} {g : Goal} (h : MetIn T t c₁ c₂ g) :
    g.context.bounds = c₁.bounds := by
  rcases h with ⟨-, ho⟩ | hu
  · exact ho.1
  · exact hu.bounds_eq

/-- The view of a union outside of bounds does not matter. -/
theorem Outside.view {ms : List Ty} {c : Context} {v : View}
    (h : Outside T t bounds ⟨.union ms, c, v⟩) (v' : View) :
    Outside T t bounds ⟨.union ms, c, v'⟩ :=
  ⟨h.1, h.2.view v'⟩

/-- Nor does that of one under a bound. -/
theorem Under.view {ms : List Ty} {c : Context} {v : View} (h : Under T t bounds ⟨.union ms, c, v⟩)
    (v' : View) : Under T t bounds ⟨.union ms, c, v'⟩ :=
  ⟨h.1, h.2.view v'⟩

/-- Nor does that of one that is met. -/
theorem MetIn.view {c₁ c₂ : Context} {ms : List Ty} {c : Context} {v : View}
    (h : MetIn T t c₁ c₂ ⟨.union ms, c, v⟩) (v' : View) : MetIn T t c₁ c₂ ⟨.union ms, c, v'⟩ := by
  rcases h with ⟨hc, ho⟩ | hu
  · exact Or.inl ⟨hc, ho.view v'⟩
  · exact Or.inr (hu.view v')

section Twins

variable {c₁ c₂ : Context} (hT : T.Hygienic)
  (hq : (Query.shape t (unanchored c₁.bounds)).goal.Closed) (hbounds : c₁.bounds = c₂.bounds)

include hT hq

/-- A goal that is met is closed. -/
theorem MetIn.closed {g : Goal} (h : MetIn T t c₁ c₂ g) : g.Closed := by
  rcases h with ⟨-, ho⟩ | hu
  · exact ho.closed hT hq
  · exact hu.closed hT hq

/-- It leads to goals that are met. -/
theorem MetIn.leads {g g' : Goal} (h : MetIn T t c₁ c₂ g) (hl : Leads T g g') :
    MetIn T t c₁ c₂ g' := by
  rcases h with ⟨hc, ho⟩ | hu
  · rcases ho.leads hT hq hl with ⟨hc', ho', -⟩ | hu'
    · exact Or.inl ⟨by rw [hc']; exact hc, ho'⟩
    · exact Or.inr hu'
  · exact Or.inr (hu.leads hl)

/-- A goal that is met under a bound leads to such goals. -/
theorem MetUnder.leads {g g' : Goal} (h : MetUnder T t c₁ c₂ g) (hl : Leads T g g') :
    MetUnder T t c₁ c₂ g' := by
  obtain ⟨hsame, hmet, c, hu⟩ := h
  refine ⟨hsame, hmet.leads hT hq hl, ?_⟩
  rcases hmet with ⟨-, ho⟩ | hu'
  · rcases ho.leads hT hq hl with ⟨-, -, hmove⟩ | hu'
    · exact ⟨c, hu.leads (hmove c hu.bounds_eq)⟩
    · exact ⟨g'.context, hu'⟩
  · exact ⟨g'.context, hu'.leads hl⟩

/-- A union that is met under a bound is not confused with one that is written differently. -/
theorem MetUnder.eq_of_beq {ms ms' : List Ty} {c c' : Context}
    (h : MetUnder T t c₁ c₂ ⟨.union ms, c, .outside⟩)
    (h' : MetIn T t c₁ c₂ ⟨.union ms', c', .outside⟩) (hbeq : Confused ms c ms' c') : ms' = ms := by
  obtain ⟨hsame, hmet, d, hd⟩ := h
  have hwf := (hmet.closed hT hq).type.normal.wellFormed
  have hwf' := (h'.closed hT hq).type.normal.wellFormed
  obtain ⟨ht, hc⟩ : ((Ty.union ms' == Ty.union ms) = true ∧ (Ty.union ms == Ty.union ms') = true) ∧
      ((c' == c) = true ∨ (c == c') = true) := by
    rcases hbeq with hbeq | hbeq <;> obtain ⟨ht, hc⟩ := Bool.and_eq_true_iff.mp hbeq
    · exact ⟨⟨ht, Ty.beq_symm hwf' hwf ht⟩, Or.inl hc⟩
    · exact ⟨⟨Ty.beq_symm hwf hwf' ht, ht⟩, Or.inr hc⟩
  rcases h' with ⟨-, ho'⟩ | hu'
  · exact hsame _ _ _ _ ho'.2 hd.2 hd.ne_unanchored (Or.inl rfl) ht.1
  · rcases hmet with ⟨-, ho⟩ | hu
    · exact (hsame _ _ _ _ ho.2 hu'.2 hu'.ne_unanchored (Or.inl rfl) ht.2).symm
    · refine hsame _ _ _ _ hu'.2 hu.2 hu.ne_unanchored (Or.inr ?_) ht.1
      rcases hc with hc | hc
      · exact hc
      · exact ((hu.wellFormed hT hq).context_like (hu'.wellFormed hT hq) hc).symm.beq

/-- A goal has the same shape in all anchors. -/
theorem MetIn.resolves {g : Goal} (h : MetIn T t c₁ c₂ g) {c : Context} (hc : c.bounds = c₁.bounds)
    {s : Shape} (hs : ∃ n, Resolves T n g s) : ∃ n, Resolves T n { g with context := c } s := by
  obtain ⟨n, hs⟩ := hs
  exact ⟨n, hs.of_bounds ((h.closed hT hq).noSlot hT) (hc.trans h.bounds_eq.symm)⟩

/-- Goals under bounds are clear among all that are met. -/
theorem scope_metUnder : Scope T (MetIn T t c₁ c₂) (MetUnder T t c₁ c₂) fun _ => Eq where
  aliases := fun e he => (hT.normal.aliases e he).wellFormed
  like := .eq T _
  wellFormed h := (h.closed hT hq).type.normal.wellFormed
  leads h hl := h.leads hT hq hl
  view h v := h.view v
  clear_leads h hl := h.leads hT hq hl
  clear_view := fun ⟨hsame, hmet, d, hd⟩ => ⟨hsame, hmet.view _, d, hd.view _⟩
  same := by
    intro ms c ms' c' h h' hbeq
    obtain rfl := h.eq_of_beq hT hq h' hbeq
    refine ⟨⟨h.1, h', h.2.2⟩, fun s hs => ?_⟩
    obtain ⟨n, hn⟩ := h'.resolves hT hq h.2.1.bounds_eq hs
    exact ⟨n, s, hn, rfl⟩

include hbounds

/-- The goals of a query have twins in other anchors, if no union outside of bounds is taken for
another one under a bound, or all anchors are compared alike with those under bounds. -/
theorem twins_of_bounds (h : SameWriting T t c₁.bounds ∨
      ∀ e ∈ c₁.bounds, ComparedAlike c₁ c₂ (underBound c₁.bounds e.2)) :
    Twins T (MetIn T t c₁ c₂) (MetUnder T t c₁ c₂) (fun _ => Eq) (TwinIn T t c₁ c₂) where
  scope := scope_metUnder hT hq
  all := by
    rintro g c (⟨hc, rfl, ho⟩ | ⟨rfl, hu⟩)
    · exact ⟨Or.inl ⟨Or.inl hc, ho⟩, Or.inl ⟨Or.inr rfl, hbounds.symm, ho.2⟩⟩
    · exact ⟨Or.inr hu, Or.inr hu⟩
  agrees := by
    rintro g c (⟨hc, rfl, ho⟩ | ⟨rfl, hu⟩)
    · exact ⟨hbounds.symm.trans ho.1.symm, fun ⟨p, hp⟩ => absurd hp ((ho.closed hT hq).not_slot p)⟩
    · exact .refl g
  forwards := by
    rintro g c g' f (⟨hc, rfl, ho⟩ | ⟨rfl, hu⟩) hf
    · rcases ho.forwards hT hq hf with ⟨hc', ho', hmove⟩ | ⟨hu', hmove⟩
      · exact ⟨c, Or.inl ⟨hc'.trans hc, rfl, ho'⟩, hmove c hbounds.symm⟩
      · exact ⟨g'.context, Or.inr ⟨rfl, hu'⟩, hmove c hbounds.symm⟩
    · exact ⟨g'.context, Or.inr ⟨rfl, hu.leads (.forward hf)⟩, hf⟩
  union := by
    rintro ms c₀ v c m (⟨hc, rfl, hb, ho⟩ | ⟨rfl, hu⟩) hm hlit
    · exact Or.inl ⟨hc, rfl, hb, ho.leads (.union hm hlit)⟩
    · exact Or.inr ⟨rfl, hu.leads (.union hm hlit)⟩
  inter := by
    rintro ms c₀ v c m (⟨hc, rfl, hb, ho⟩ | ⟨rfl, hu⟩) hm
    · exact Or.inl ⟨hc, rfl, hb, ho.leads (.inter hm)⟩
    · exact Or.inr ⟨rfl, hu.leads (.inter hm)⟩
  view := by
    rintro ms c₀ v c (⟨hc, rfl, ho⟩ | ⟨rfl, hu⟩)
    · exact Or.inl ⟨hc, rfl, ho.view _⟩
    · exact Or.inr ⟨rfl, hu.view _⟩
  like := fun _ h => h
  clear := by
    rintro g c (⟨hc, rfl, ho⟩ | ⟨rfl, -⟩)
    · constructor
      · exact fun ⟨hsame, _, hu⟩ => ⟨hsame, Or.inl ⟨Or.inr rfl, hbounds.symm, ho.2⟩, hu⟩
      · exact fun ⟨hsame, _, hu⟩ => ⟨hsame, Or.inl ⟨Or.inl hc, ho⟩, hu⟩
    · exact Iff.rfl
  resolves := by
    rintro g c (⟨hc, rfl, ho⟩ | ⟨rfl, -⟩) - s
    · have hmet : MetIn T t c₁ c g := Or.inl ⟨Or.inl hc, ho⟩
      have hmet' : MetIn T t c₁ c { g with context := c } :=
        Or.inl ⟨Or.inr rfl, hbounds.symm, ho.2⟩
      exact ⟨hmet.resolves hT hq hbounds.symm, hmet'.resolves hT hq hmet.bounds_eq⟩
    · exact Iff.rfl
  confused := by
    intro ms c₀ c ms' c₀' c' ht ht' hclear hclear'
    -- a union under a bound that is not clear leaves only the comparison of anchors
    have halike : ∀ {ms : List Ty} {c : Context}, Under T t c₁.bounds ⟨.union ms, c, .outside⟩ →
        ¬ MetUnder T t c₁ c₂ ⟨.union ms, c, .outside⟩ → ComparedAlike c₁ c₂ c := by
      intro ms c hu hclear
      rcases h with hsame | halike
      · exact absurd ⟨hsame, Or.inr hu, c, hu⟩ hclear
      · obtain ⟨⟨e, he, hc⟩, -⟩ := hu
        obtain rfl : c = underBound c₁.bounds e.2 := hc
        exact halike e he
    rcases ht with ⟨hc, rfl, -⟩ | ⟨rfl, hu⟩ <;> rcases ht' with ⟨hc', rfl, -⟩ | ⟨rfl, hu'⟩
    · obtain rfl : c₀ = c₁ := hc
      obtain rfl : c₀' = c₀ := hc'
      rw [Context.beq_refl, Context.beq_refl]
    · obtain rfl : c₀ = c₁ := hc
      rw [(halike hu' hclear').1]
    · obtain rfl : c₀' = c₁ := hc'
      rw [(halike hu hclear).2]
    · rfl

/-- What is answered in the one context is answered in the other. -/
theorem answer_congr (h : SameWriting T t c₁.bounds ∨
      ∀ e ∈ c₁.bounds, ComparedAlike c₁ c₂ (underBound c₁.bounds e.2))
    {r : Except ShapeError (Option Shape)}
    (hr : (findGoal T ⟨t, c₁, .outside⟩ Cache.empty).map (·.1) = some r) :
    (findGoal T ⟨t, c₂, .outside⟩ Cache.empty).map (·.1) = some r := by
  have hempty : GoodAt T (MetIn T t c₁ c₂) (MetUnder T t c₁ c₂) (fun _ => Eq) [] Cache.empty :=
    ⟨Cache.Good.empty T _ _ _, rfl⟩
  have htwin : TwinIn T t c₁ c₂ ⟨t, c₁, .outside⟩ c₂ :=
    Or.inl ⟨rfl, rfl, rfl, met_goal _⟩
  obtain ⟨r', hr', hrel⟩ := answer_of_twin (twins_of_bounds hT hq hbounds h) htwin
    ⟨hempty, hempty, fun _ _ => .none⟩ hr
  rw [(hrel.imp fun _ _ => optionRel_eq.mp).eq]
  exact hr'

/-- Queries with the same bounds but other anchors have the same answer. -/
theorem fresh_congr (h : SameWriting T t c₁.bounds ∨
      ∀ e ∈ c₁.bounds, ComparedAlike c₁ c₂ (underBound c₁.bounds e.2)) :
    fresh T (.shape t c₁) = fresh T (.shape t c₂) := by
  have hq₁ : (Query.shape t c₁).goal.Closed := ⟨hq.type, hq.spelled, hq.bounds⟩
  have hq₂ : (Query.shape t c₂).goal.Closed := ⟨hq.type, hq.spelled, hbounds ▸ hq.bounds⟩
  have h' : SameWriting T t c₂.bounds ∨
      ∀ e ∈ c₂.bounds, ComparedAlike c₂ c₁ (underBound c₂.bounds e.2) := by
    rw [← hbounds]
    exact h.imp_right fun halike e he => ⟨(halike e he).1.symm, (halike e he).2.symm⟩
  rw [fresh_eq_findGoal hT hq₁, fresh_eq_findGoal hT hq₂]
  refine Option.ext fun r => ⟨answer_congr hT hq hbounds h, ?_⟩
  exact answer_congr hT (by rw [← hbounds]; exact hq) hbounds.symm h'

end Twins

/-! ## A union beside a variable with an equal bound -/

/-- The search for an intersection of two types joins their shapes. -/
theorem findGoal_inter_pair {t₁ t₂ : Ty} {c : Context} {v : View} {s₁ s₂ : Shape} {b b₁ b₂ : Cache}
    (h₁ : findGoal T ⟨t₁, c, .outside⟩ b = some (.ok (some s₁), b₁))
    (h₂ : findGoal T ⟨t₂, c, .outside⟩ b₁ = some (.ok (some s₂), b₂)) :
    findGoal T ⟨.inter [t₁, t₂], c, v⟩ b =
      some (.ok (some (Shape.ofInter (.inter [t₁, t₂]) [s₁, s₂])), b₂) := by
  rw [findGoal_eq]
  change searchInter (fun m => findGoal T ⟨m, c, .outside⟩) _ _ b = _
  simp only [searchInter, shapesOf, bind_apply, h₁, h₂]
  rfl

/-- A bounded variable is answered with a union that was found for its bound's anchors and equals
the bound. -/
theorem findGoal_of_remembered {x : String} {ms : List Ty} {c : Context} {s : Shape} {b : Cache}
    (hx : c.bound? x = some (.union ms)) (hslot : (Ty.union ms).mentionsSlot = false)
    (hb : b.pending = [])
    (h : rememberedUnion? b (.union ms) (underBound c.bounds (.union ms)) = some s) :
    findGoal T ⟨.var x, c, .outside⟩ b =
      some (.ok (some (s.subst (.ofAnchors { selfType := some (.var x) }) (some (.var x)))),
        b) := by
  have hbound : findGoal T ⟨.union ms, underBound c.bounds (.union ms), .asReceiver⟩
      (note b (.var x)) = some (.ok (some s), note b (.var x)) := by
    have hnoted : rememberedUnion? (note b (.var x)) (.union ms)
        (underBound c.bounds (.union ms)) = some s := h
    rw [findGoal_union, searchUnion_apply, hnoted]
  have hpending : b.pending.any (· == Ty.var x) = false := by rw [hb]; rfl
  rw [findGoal_eq, Goal.step_forwards _ (.bound hx hslot), Goal.noted_of_not_slot (by simp),
    lookingThrough_eq_some]
  refine Or.inr ⟨hpending, note b (.var x), ?_, rfl⟩
  rw [map_apply]
  exact congrArg (Option.map _) hbound

/-- In the anchors under a bound, a union that equals the bound gives its shape to the variable
beside it. -/
theorem fresh_beside_bound (hT : T.Hygienic) {x : String} {ms ms' : List Ty} {s : Shape}
    (hq : (Query.shape (.inter [.union ms', .var x]) (underBound bounds (.union ms))).goal.Closed)
    (hx : (underBound bounds (.union ms)).bound? x = some (.union ms))
    (hbeq : (Ty.union ms' == Ty.union ms) = true)
    (h : fresh T (.shape (.union ms') (underBound bounds (.union ms))) = some (.ok (some s))) :
    fresh T (.shape (.inter [.union ms', .var x]) (underBound bounds (.union ms))) =
      some (.ok (some (Shape.ofInter (.inter [.union ms', .var x])
        [s, s.subst (.ofAnchors { selfType := some (.var x) }) (some (.var x))]))) := by
  have hunion : (Query.shape (.union ms') (underBound bounds (.union ms))).goal.Closed :=
    Leads.closed hT (.inter List.mem_cons_self) hq
  rw [fresh_eq_findGoal hT hunion] at h
  obtain ⟨⟨r, b⟩, hfind, rfl⟩ := Option.map_eq_some_iff.mp h
  have hpending : b.pending = [] := by
    obtain ⟨n, hn⟩ := findGoal_eq_some_iff.mp hfind
    have hq' : (Query.shape (.union ms') (unanchored bounds)).goal.Closed :=
      ⟨hunion.type, hunion.spelled, hunion.bounds⟩
    have hmet : MetIn T (.union ms') (underBound bounds (.union ms)) (underBound bounds (.union ms))
        ⟨.union ms', underBound bounds (.union ms), .outside⟩ :=
      Or.inl ⟨Or.inl rfl, rfl, met_goal _⟩
    exact (sound (scope_metUnder hT hq') n hmet [] ⟨Cache.Good.empty T _ _ _, rfl⟩ hn).1.2
  have hslot : (Ty.union ms).mentionsSlot = false :=
    (Ty.closed_iff.mp (hq.bounds _ (Keyed.mem_of_get? hx)).1).2
  have hvar :=
    findGoal_of_remembered (T := T) hx hslot hpending (remembered_of_found hbeq rfl hfind)
  rw [fresh_eq_findGoal hT hq, findGoal_inter_pair hfind hvar]
  rfl

/-! ### An interface beside the classes -/

/-- Only what is declared as an interface has the methods of an interface. -/
theorem exists_of_interfaceMethods {name : TypeName} {methods : MethodTable}
    (h : T.interfaceMethods name = .ok methods) :
    ∃ decl, (name, decl) ∈ T.modules ∧ decl.kind = .interfaceDecl := by
  obtain ⟨decl, hfetch, h⟩ := exists_of_bind_ok h
  refine ⟨decl, Keyed.mem_of_get? (Table.fetch_eq_ok.mp hfetch), ?_⟩
  by_contra hkind
  rw [if_pos hkind] at h
  cases h

/-- The two classes alone are hygienic: a union remembered under a bound needs no odd table. -/
theorem hygienic_oppositeOrders : oppositeOrders.Hygienic where
  normal := ⟨by decide, by decide, by decide⟩
  closed := by decide
  spelled := by decide
  interfaces := by
    intro name methods _ h
    obtain ⟨decl, hmem, hkind⟩ := exists_of_interfaceMethods h
    have hnone : ∀ e ∈ oppositeOrders.modules, e.2.kind ≠ .interfaceDecl := by decide
    exact absurd hkind (hnone _ hmem)

/-- Two classes with their overloads in opposite orders, and an interface whose method returns the
receiver. -/
def withSelfResult : Table where
  modules := (⟨"::_Same"⟩, { name := ⟨"::_Same"⟩, kind := .interfaceDecl, members := [
      { name := "same", overloads := [⟨[], ⟨⟨{}, .slot .selfType⟩, none⟩, []⟩] }] }) ::
    oppositeOrders.modules
  aliases := oppositeOrders.aliases

/-- A method that returns the receiver makes a hygienic declaration. -/
theorem hygienic_withSelfResult : withSelfResult.Hygienic where
  normal := ⟨by decide, by decide, by decide⟩
  closed := by decide
  spelled := by decide
  interfaces := by
    intro name methods _ h
    obtain ⟨decl, hmem, hkind⟩ := exists_of_interfaceMethods h
    have honly : ∀ e ∈ withSelfResult.modules, e.2.kind = .interfaceDecl → e.1 = ⟨"::_Same"⟩ := by
      decide
    obtain rfl : name = ⟨"::_Same"⟩ := honly _ hmem hkind
    obtain rfl := Except.ok.inj h
    decide

/-! ## Any anchors -/

/-- The shape of a type that mentions no placeholder mentions none, and does not depend on anchors,
if no union is taken for a differently written one under a bound, or if the anchors of both contexts
compare alike with those under bounds.  In the anchors under a bound, a union beside a variable
whose bound equals it gives its own shape to the variable. -/
theorem fresh_eq_of_bounds_eq (hT : T.Hygienic) (t : Ty) (c₁ c₂ : Context) (ht : t.Normal)
    (hslot : t.mentionsSlot = false) (hspelled : t.Spelled) (hc : c₁.bounds = c₂.bounds)
    (hbounds : ∀ e ∈ c₁.bounds, e.2.Normal ∧ e.2.mentionsSlot = false ∧ e.2.Spelled) :
    ((SameWriting T t c₁.bounds ∨
        ∀ e ∈ c₁.bounds, ComparedAlike c₁ c₂ (underBound c₁.bounds e.2)) →
      fresh T (.shape t c₁) = fresh T (.shape t c₂)) ∧
    (∀ s, fresh T (.shape t c₁) = some (.ok (some s)) →
      ∀ m ∈ s.methods, ∀ o ∈ m.2.overloads, ∀ u ∈ o.types, u.mentionsSlot = false) ∧
    ∀ x ms ms' s, t = .inter [.union ms', .var x] → c₁ = underBound c₁.bounds (.union ms) →
      c₁.bound? x = some (.union ms) → (Ty.union ms' == Ty.union ms) = true →
      fresh T (.shape (.union ms') c₁) = some (.ok (some s)) →
      fresh T (.shape t c₁) = some (.ok (some (Shape.ofInter t
        [s, s.subst (.ofAnchors { selfType := some (.var x) }) (some (.var x))]))) := by
  have hclosed : ∀ a, (Query.shape t ⟨a, c₁.bounds⟩).goal.Closed := by
    refine fun a => ⟨Ty.closed_iff.mpr ⟨ht, hslot⟩, hspelled, fun e he => ?_⟩
    obtain ⟨hn, hs, hsp⟩ := hbounds e he
    exact ⟨Ty.closed_iff.mpr ⟨hn, hs⟩, hsp⟩
  refine ⟨fresh_congr hT (hclosed {}) hc, fun s hs m hm o ho u hu => ?_, ?_⟩
  · have hopen := (closed_of_fresh hT (hclosed c₁.anchors) hs).methods m hm o ho u hu
    exact (Ty.closed_iff.mp hopen).2
  · rintro x ms ms' s rfl hc₁ hx hbeq hs
    rw [hc₁] at hx hs ⊢
    exact fresh_beside_bound hT (hclosed _) hx hbeq hs

/-- The union is written differently in the bound, but the anchors are others than those under the
bound. -/
theorem fresh_withSelfResult :
    let t := Ty.inter [rightFirst, .var "T", .named .interfaceOf ⟨"::_Same"⟩ []]
    let c₁ : Context :=
      ⟨{ selfType := some rightFirst, classType := some .nil }, [("T", leftFirst)]⟩
    let c₂ : Context := ⟨{ instanceType := some leftFirst }, [("T", leftFirst)]⟩
    withSelfResult.Hygienic ∧ t.Normal ∧ t.mentionsSlot = false ∧ t.Spelled ∧
      (∀ e ∈ c₁.bounds, e.2.Normal ∧ e.2.mentionsSlot = false ∧ e.2.Spelled) ∧
      fresh withSelfResult (.shape t c₁) = fresh withSelfResult (.shape t c₂) ∧
      ∃ s, fresh withSelfResult (.shape t c₁) = some (.ok (some s)) ∧ s.methods.length = 2 ∧
        ∀ m ∈ s.methods, ∀ o ∈ m.2.overloads, ∀ u ∈ o.types, u.mentionsSlot = false := by
  intro t c₁ c₂
  have hnormal : t.Normal := by decide
  have hslot : t.mentionsSlot = false := by decide
  have hspelled : t.Spelled := by decide
  have hbounds : ∀ e ∈ c₁.bounds, e.2.Normal ∧ e.2.mentionsSlot = false ∧ e.2.Spelled := by decide
  obtain ⟨hanchors, hclosed, -⟩ := fresh_eq_of_bounds_eq hygienic_withSelfResult t c₁ c₂ hnormal
    hslot hspelled rfl hbounds
  refine ⟨hygienic_withSelfResult, hnormal, hslot, hspelled, hbounds, hanchors (Or.inr ?_), ?_⟩
  · simp only [ComparedAlike]
    decide
  · have hfresh := fresh_of_within (T := withSelfResult) (q := .shape t c₁) (n := 4) rfl
    exact ⟨_, hfresh, rfl, hclosed _ hfresh⟩

/-- In the anchors under a bound, a union that equals the bound is taken for it, although nothing is
odd about the declarations, the type and the bound. -/
theorem remembered_under_bound :
    let t := Ty.inter [rightFirst, .var "T"]
    let bounds := [("T", leftFirst)]
    oppositeOrders.Hygienic ∧ t.Normal ∧ t.mentionsSlot = false ∧ t.Spelled ∧
      (∀ e ∈ bounds, e.2.Normal ∧ e.2.mentionsSlot = false ∧ e.2.Spelled) ∧
      ∃ s s', fresh oppositeOrders (.shape t (underBound bounds leftFirst)) = some (.ok (some s)) ∧
        fresh oppositeOrders (.shape t (unanchored bounds)) = some (.ok (some s')) ∧
        (s == s') = false := by
  intro t bounds
  have hunder : fresh oppositeOrders (.shape t (underBound bounds leftFirst)) =
      some (.ok (some (shapeOfBoth t [overloadOf [.nil], overloadOf []]))) :=
    fresh_of_within (n := 4)
      (r := .ok (some (shapeOfBoth t [overloadOf [.nil], overloadOf []]))) rfl
  have hplain : fresh oppositeOrders (.shape t (unanchored bounds)) =
      some (.ok (some (shapeOfBoth t [overloadOf [], overloadOf [.nil]]))) :=
    fresh_of_within (n := 4)
      (r := .ok (some (shapeOfBoth t [overloadOf [], overloadOf [.nil]]))) rfl
  exact ⟨hygienic_oppositeOrders, by decide, by decide, by decide, by decide, _, _, hunder, hplain,
    by decide⟩

end Query
end Search
end TypeShape
