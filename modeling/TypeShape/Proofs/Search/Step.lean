import TypeShape.Proofs.Deepening
import TypeShape.Proofs.Search.Run

/-!
# One step of a search

A goal is a type to look at, in a context and under a view.  One step of a search answers a goal
from the declarations alone, hands it on to another goal, or asks for the members of a union or
intersection.  What a step can do is said once here; everything about whole searches is derived
from it.

Main results:

- Theorem `Search.Goal.form`: what one step does.
- Theorem `Search.Goal.sim_step`: a step ends as soon as the searches that it makes are made to some
  depth.
- Theorem `Search.findGoal_eq_some_iff`: a search ends when it does so to some depth.
- Theorem `Search.findGoal_eq`: a search answers a goal from its own answers to further goals.
-/

namespace TypeShape

/-- The shape of the type is found from the declarations alone, without searching further. -/
def Ty.isDirect : Ty → Bool
  | slot _ => false
  | var _ => false
  | union _ => false
  | inter _ => false
  | named .aliasOf _ _ => false
  | _ => true

namespace Search

/-- A type to look at, in a context, from outside or as the receiver. -/
structure Goal where
  type : Ty
  context : Context
  view : View

namespace Goal

/-- One step of a search for a goal, where `search` answers further goals. -/
def step (T : Table) (search : Goal → Search (Option Shape)) (g : Goal) : Search (Option Shape) :=
  searchWith T (fun t c v => search ⟨t, c, v⟩) g.type g.context g.view

/-- Variables and aliases are noted while they are looked through; placeholders are not. -/
def noted {α : Type} (g : Goal) (m : Search α) : Search α :=
  match g.type with
  | .slot _ => m
  | t => lookingThrough t m

/-- A placeholder is not noted. -/
theorem noted_of_slot {α : Type} {g : Goal} {p : Slot} (h : g.type = .slot p) (m : Search α) :
    g.noted m = m := by
  simp only [noted, h]

/-- Every other type is. -/
theorem noted_of_not_slot {α : Type} {g : Goal} (h : ∀ p, g.type ≠ .slot p) (m : Search α) :
    g.noted m = lookingThrough g.type m := by
  unfold noted
  split
  · exact absurd ‹_› (h _)
  · rfl

/-- A search that ends at once. -/
def ret {α : Type} (r : Except ShapeError α) : Search α :=
  fun b => some (r, b)

/-- Binding an answer to a function of it is mapping it. -/
theorem bind_pure_map {α β : Type} (m : Search α) (h : α → β) :
    (m >>= fun a => pure (h a)) = h <$> m := by
  funext b
  rw [bind_apply, map_apply]
  rcases m b with _ | ⟨⟨e⟩ | a, b'⟩ <;> rfl

/-- Mapping by the identity changes no search. -/
theorem map_id_search (m : Search (Option Shape)) : Option.map id <$> m = m := by
  funext b
  rw [map_apply]
  rcases m b with _ | ⟨⟨e⟩ | a, b'⟩
  · rfl
  · rfl
  · simp [Except.map]

/-- Placeholders, variables and aliases are handed on to another goal.  The function says what is
made of the shape that is found there.  Only a variable seen from outside changes the context: its
bound becomes the receiver. -/
inductive Forwards (T : Table) : Goal → Goal → (Shape → Shape) → Prop where
  | slot {p : Slot} {c : Context} {anchor : Ty} (ha : c.anchors.get? p = some anchor) :
      Forwards T ⟨.slot p, c, .outside⟩
        ⟨anchor, c, if p = .selfType then .asReceiver else .outside⟩ id
  | receiver {x : String} {c : Context} {bound : Ty} (hb : c.bound? x = some bound) :
      Forwards T ⟨.var x, c, .asReceiver⟩ ⟨bound, c, .asReceiver⟩ fun s => s.relabel (.var x)
  | bound {x : String} {c : Context} {bound : Ty} (hb : c.bound? x = some bound)
      (hs : bound.mentionsSlot = false) :
      Forwards T ⟨.var x, c, .outside⟩
        ⟨bound, ⟨{ selfType := some bound }, c.bounds⟩, .asReceiver⟩
        fun s => s.subst (.ofAnchors { selfType := some (.var x) }) (some (.var x))
  | expansion {name : TypeName} {args : List Ty} {c : Context} {v : View} {t : Ty}
      (he : T.expansion name args = .ok t) :
      Forwards T ⟨.named .aliasOf name args, c, v⟩ ⟨t, c, .outside⟩
        fun s => s.relabel (.named .aliasOf name args)

/-- A goal that is forwarded is not answered at once. -/
theorem Forwards.not_direct {T : Table} {g g' : Goal} {h : Shape → Shape}
    (hf : Forwards T g g' h) : g.type.isDirect = false := by
  cases hf <;> rfl

/-- A goal is handed on in one way. -/
theorem Forwards.unique {T : Table} {g g₁ g₂ : Goal} {h₁ h₂ : Shape → Shape}
    (hf₁ : Forwards T g g₁ h₁) (hf₂ : Forwards T g g₂ h₂) : g₁ = g₂ ∧ h₁ = h₂ := by
  cases hf₁ with
  | slot ha =>
    cases hf₂ with
    | slot ha' =>
      obtain rfl := Option.some.inj (ha.symm.trans ha')
      exact ⟨rfl, rfl⟩
  | receiver hb =>
    cases hf₂ with
    | receiver hb' =>
      obtain rfl := Option.some.inj (hb.symm.trans hb')
      exact ⟨rfl, rfl⟩
  | bound hb _ =>
    cases hf₂ with
    | bound hb' _ =>
      obtain rfl := Option.some.inj (hb.symm.trans hb')
      exact ⟨rfl, rfl⟩
  | expansion he =>
    cases hf₂ with
    | expansion he' =>
      obtain rfl := Except.ok.inj (he.symm.trans he')
      exact ⟨rfl, rfl⟩

/-- Only a bound without placeholders makes a context for a receiver. -/
theorem make_receiver {bound : Ty} {bounds : List (String × Ty)} :
    Context.make { selfType := some bound } bounds =
      if bound.mentionsSlot then .error (.openAnchor .selfType bound)
      else .ok ⟨{ selfType := some bound }, bounds⟩ := by
  unfold Context.make Context.checkAnchor
  dsimp only
  split <;> rfl

section Forms

variable {T : Table} {g g' : Goal} {h : Shape → Shape} (search : Goal → Search (Option Shape))

/-- A goal that is handed on is answered by what is made of the answer to the other. -/
theorem step_forwards (hf : Forwards T g g' h) :
    g.step T search = g.noted (Option.map h <$> search g') := by
  cases hf with
  | slot ha => simp only [step, searchWith, searchSlot, ha, noted, map_id_search]
  | receiver hb => simp only [step, searchWith, searchVar, hb, noted, bind_pure_map]
  | bound hb hs =>
    simp only [step, searchWith, searchVar, hb, make_receiver, hs, Bool.false_eq_true, if_false,
      ofContext, pure_bind, noted, bind_pure_map]
  | expansion he =>
    simp only [step, searchWith, searchAlias, he, ofDecl, pure_bind, noted, bind_pure_map]

/-- A direct goal is answered without any further search, whatever the context. -/
theorem step_direct (hd : g.type.isDirect = true) (search' : Goal → Search (Option Shape))
    (c : Context) : g.step T search = Goal.step T search' { g with context := c } := by
  obtain ⟨t, d, v⟩ := g
  cases t with
  | named kind name args =>
    cases kind with
    | aliasOf => simp [Ty.isDirect] at hd
    | instanceOf => rfl
    | interfaceOf => rfl
  | slot s => simp [Ty.isDirect] at hd
  | var x => simp [Ty.isDirect] at hd
  | union ms => simp [Ty.isDirect] at hd
  | inter ms => simp [Ty.isDirect] at hd
  | _ => rfl

end Forms

/-- The context has the bounds of the goal and, if the goal is a placeholder, is its own. -/
def Agrees (g : Goal) (c : Context) : Prop :=
  c.bounds = g.context.bounds ∧ ((∃ p, g.type = .slot p) → c = g.context)

/-- A goal agrees with its own context. -/
theorem Agrees.refl (g : Goal) : g.Agrees g.context :=
  ⟨rfl, fun _ => rfl⟩

/-- What one step of a search does for a goal.  A step that stops at once does so in every context
that agrees with the goal, without a shape and without a report of a cycle. -/
inductive Form (T : Table) (g : Goal) : Prop where
  | direct (hd : g.type.isDirect = true)
  | stops (r : Except ShapeError (Option Shape)) (hnone : ∀ s, r ≠ .ok (some s))
      (hcycle : ∀ t, r ≠ .error (.cycle t))
      (hr : ∀ c, g.Agrees c → ∀ search, Goal.step T search { g with context := c } = ret r)
  | stopsNoted (r : Except ShapeError (Option Shape)) (hnone : ∀ s, r ≠ .ok (some s))
      (hcycle : ∀ t, r ≠ .error (.cycle t))
      (hr : ∀ c, g.Agrees c → ∀ search,
        Goal.step T search { g with context := c } = lookingThrough g.type (ret r))
  | forwards (g' : Goal) (h : Shape → Shape) (hf : Forwards T g g' h)
  | union (ms : List Ty) (hu : g.type = .union ms)
  | inter (ms : List Ty) (hi : g.type = .inter ms)

/-- Every goal has one of the forms. -/
theorem form (T : Table) (g : Goal) : g.Form T := by
  obtain ⟨t, c, v⟩ := g
  cases t with
  | slot s =>
    cases v with
    | asReceiver =>
      exact .stops (.error (.openReceiver (.slot s))) (by simp) (by simp) fun _ _ _ => rfl
    | outside =>
      cases ha : c.anchors.get? s with
      | none =>
        refine .stops (.error (.noAnchor (.slot s))) (by simp) (by simp) fun d hd _ => ?_
        obtain rfl := hd.2 ⟨s, rfl⟩
        simp only [step, searchWith, searchSlot, ha]
        rfl
      | some anchor => exact .forwards _ _ (.slot ha)
  | var x =>
    have hbound : ∀ d : Context, Agrees ⟨.var x, c, v⟩ d → d.bound? x = c.bound? x := by
      intro d hd
      rw [Context.bound?, Context.bound?, hd.1]
    cases hb : c.bound? x with
    | none =>
      refine .stops (.ok none) (by simp) (by simp) fun d hd _ => ?_
      simp only [step, searchWith, searchVar, hbound d hd, hb]
      rfl
    | some bound =>
      cases v with
      | asReceiver => exact .forwards _ _ (.receiver hb)
      | outside =>
        cases hs : bound.mentionsSlot with
        | true =>
          refine .stopsNoted (.error (.openAnchor .selfType bound)) (by simp) (by simp)
            fun d hd _ => ?_
          simp only [step, searchWith, searchVar, hbound d hd, hb, make_receiver, hs, if_true]
          rfl
        | false => exact .forwards _ _ (.bound hb hs)
  | named kind name args =>
    cases kind with
    | instanceOf => exact .direct rfl
    | interfaceOf => exact .direct rfl
    | aliasOf =>
      cases he : T.expansion name args with
      | error e =>
        refine .stopsNoted (.error (.declaration e)) (by simp) (by simp) fun _ _ _ => ?_
        simp only [step, searchWith, searchAlias, he]
        rfl
      | ok expanded => exact .forwards _ _ (.expansion he)
  | union ms => exact .union ms rfl
  | inter ms => exact .inter ms rfl
  | _ => exact .direct rfl

end Goal

/-! ## Goals that a goal leads to -/

/-- One goal asks for another. -/
inductive Leads (T : Table) : Goal → Goal → Prop where
  | forward {g g' : Goal} {h : Shape → Shape} (hf : Goal.Forwards T g g' h) : Leads T g g'
  | union {ms : List Ty} {c : Context} {v : View} {m : Ty} (hm : m ∈ ms)
      (hl : literalClass? m = none) : Leads T ⟨.union ms, c, v⟩ ⟨m, c, .outside⟩
  | inter {ms : List Ty} {c : Context} {v : View} {m : Ty} (hm : m ∈ ms) :
      Leads T ⟨.inter ms, c, v⟩ ⟨m, c, .outside⟩

/-! ### Groups of members -/

/-- What the groups of some members are: no group is empty, a group holds members of its class only,
and every member has a group. -/
structure Grouped (ms : List Ty) (groups : List (Option TypeName × List Ty)) : Prop where
  mem : ∀ g ∈ groups, ∀ t ∈ g.2, t ∈ ms ∧ literalClass? t = g.1
  nonempty : ∀ g ∈ groups, g.2 ≠ []
  group : ∀ t ∈ ms, ∃ g ∈ groups, g.1 = literalClass? t ∧ t ∈ g.2

/-- Adding a member to its group keeps the groups right. -/
theorem Grouped.addToGroup {ms : List Ty} {groups : List (Option TypeName × List Ty)}
    (h : Grouped ms groups) (t : Ty) : Grouped (ms ++ [t]) (addToGroup groups t) := by
  have hleft : ∀ u, u ∈ ms → u ∈ ms ++ [t] := fun u hu => List.mem_append_left _ hu
  unfold Search.addToGroup
  split
  · rename_i hany
    refine ⟨?_, ?_, ?_⟩
    · intro g hg u hu
      obtain ⟨g₀, hg₀, rfl⟩ := List.mem_map.mp hg
      by_cases hc : g₀.1 == literalClass? t
      · rw [if_pos hc] at hu ⊢
        rcases List.mem_append.mp hu with hu | hu
        · exact ⟨hleft u (h.mem g₀ hg₀ u hu).1, (h.mem g₀ hg₀ u hu).2⟩
        · obtain rfl := List.mem_singleton.mp hu
          exact ⟨by simp, (beq_iff_eq.mp hc).symm⟩
      · rw [if_neg hc] at hu ⊢
        exact ⟨hleft u (h.mem g₀ hg₀ u hu).1, (h.mem g₀ hg₀ u hu).2⟩
    · intro g hg
      obtain ⟨g₀, hg₀, rfl⟩ := List.mem_map.mp hg
      have hne := h.nonempty g₀ hg₀
      split <;> simp [hne]
    · intro u hu
      rcases List.mem_append.mp hu with hu | hu
      · -- Groups keep their classes and members, so old members keep their groups.
        obtain ⟨g₀, hg₀, hc, hmem⟩ := h.group u hu
        refine ⟨_, List.mem_map_of_mem hg₀, ?_⟩
        split
        · exact ⟨hc, List.mem_append_left _ hmem⟩
        · exact ⟨hc, hmem⟩
      · obtain rfl := List.mem_singleton.mp hu
        obtain ⟨g₀, hg₀, hc⟩ := List.any_eq_true.mp hany
        refine ⟨_, List.mem_map_of_mem hg₀, ?_⟩
        rw [if_pos hc]
        exact ⟨beq_iff_eq.mp hc, List.mem_append_right _ (List.mem_singleton.mpr rfl)⟩
  · refine ⟨?_, ?_, ?_⟩
    · intro g hg u hu
      rcases List.mem_append.mp hg with hg | hg
      · exact ⟨hleft u (h.mem g hg u hu).1, (h.mem g hg u hu).2⟩
      · obtain rfl := List.mem_singleton.mp hg
        obtain rfl := List.mem_singleton.mp hu
        exact ⟨by simp, rfl⟩
    · intro g hg
      rcases List.mem_append.mp hg with hg | hg
      · exact h.nonempty g hg
      · obtain rfl := List.mem_singleton.mp hg
        simp
    · intro u hu
      rcases List.mem_append.mp hu with hu | hu
      · obtain ⟨g, hg, hc⟩ := h.group u hu
        exact ⟨g, List.mem_append_left _ hg, hc⟩
      · obtain rfl := List.mem_singleton.mp hu
        exact ⟨_, List.mem_append_right _ (List.mem_singleton.mpr rfl), rfl,
          List.mem_singleton.mpr rfl⟩

/-- The groups of members are right. -/
theorem grouped_memberGroups (ms : List Ty) : Grouped ms (memberGroups ms) := by
  have hfold : ∀ (done rest : List Ty) (groups : List (Option TypeName × List Ty)),
      Grouped done groups → Grouped (done ++ rest) (rest.foldl addToGroup groups) := by
    intro done rest
    induction rest generalizing done with
    | nil => intro groups h; simpa using h
    | cons t rest ih =>
      intro groups h
      have := ih (done ++ [t]) _ (h.addToGroup t)
      simpa using this
  exact hfold [] ms [] ⟨by simp, by simp, by simp⟩

/-- The members of a union that are searched for are those that are no literals. -/
theorem mem_of_mem_memberGroups {ms : List Ty} {g : Option TypeName × List Ty}
    (hg : g ∈ memberGroups ms) (hn : g.1 = none) {t : Ty} (ht : t ∈ g.2) :
    t ∈ ms ∧ literalClass? t = none := by
  obtain ⟨hmem, hc⟩ := (grouped_memberGroups ms).mem g hg t ht
  exact ⟨hmem, hc.trans hn⟩

/-! ## Steps and depth -/

/-- Looking through a type respects depth. -/
theorem Sim.lookingThrough {α : Type} {m : Search α} {family : Nat → Search α} (t : Ty)
    (hm : Sim Eq Eq m family) :
    Sim Eq Eq (lookingThrough t m) fun n => Search.lookingThrough t (family n) := by
  rintro b _ rfl r b' h
  rcases lookingThrough_eq_some.mp h with ⟨hp, rfl, rfl⟩ | ⟨hp, b₁, hmb, rfl⟩
  · exact ⟨0, _, b', fun _ _ => lookingThrough_eq_some.mpr (Or.inl ⟨hp, rfl, rfl⟩), .refl _, rfl⟩
  · obtain ⟨n, r', f', hf', hr, rfl⟩ := hm rfl hmb
    exact ⟨n, r', unnote b₁, fun i hi =>
      lookingThrough_eq_some.mpr (Or.inr ⟨hp, b₁, hf' i hi, rfl⟩), hr, rfl⟩

/-- So does noting a goal. -/
theorem Sim.noted {α : Type} {m : Search α} {family : Nat → Search α} (g : Goal)
    (hm : Sim Eq Eq m family) : Sim Eq Eq (g.noted m) fun n => g.noted (family n) := by
  unfold Goal.noted
  split
  · exact hm
  · exact hm.lookingThrough _

/-- So does the search for a union if those for its members do. -/
theorem Sim.searchUnion {T : Table} {search : Ty → Search (Option Shape)}
    {family : Nat → Ty → Search (Option Shape)} {t : Ty} {ms : List Ty} {c : Context}
    (h : ∀ m ∈ ms, literalClass? m = none → Sim Eq Eq (search m) fun n => family n m) :
    Sim Eq Eq (searchUnion T search t ms c) fun n => Search.searchUnion T (family n) t ms c := by
  refine Sim.bind (Sim.refl _) ?_
  rintro b _ rfl
  cases rememberedUnion? b t c with
  | some s => exact Sim.refl _
  | none =>
    refine Sim.bind (Sim.allGroupShapes (S := Eq) (fun _ _ _ => Sim.refl _) ?_)
      fun shapes shapes' hshapes => ?_
    · intro g hg hn m hm
      obtain ⟨hmem, hl⟩ := mem_of_mem_memberGroups hg hn hm
      exact (h m hmem hl).imp fun _ _ => optionRel_eq.mpr
    · rw [List.forall₂_eq_eq_eq, optionRel_eq] at hshapes
      subst hshapes
      cases shapes <;> exact Sim.refl _

/-- So does the search for an intersection. -/
theorem Sim.searchInter {search : Ty → Search (Option Shape)}
    {family : Nat → Ty → Search (Option Shape)} {t : Ty} {ms : List Ty}
    (h : ∀ m ∈ ms, Sim Eq Eq (search m) fun n => family n m) :
    Sim Eq Eq (searchInter search t ms) fun n => Search.searchInter (family n) t ms := by
  refine Sim.bind (Sim.shapesOf (S := Eq) fun m hm => (h m hm).imp fun _ _ => optionRel_eq.mpr)
    fun shapes shapes' hshapes => ?_
  rw [List.forall₂_eq_eq_eq, optionRel_eq] at hshapes
  subst hshapes
  cases shapes <;> exact Sim.refl _

/-- A step ends as soon as the searches that it makes are made to some depth. -/
theorem Goal.sim_step {T : Table} {search : Goal → Search (Option Shape)}
    {family : Nat → Goal → Search (Option Shape)} {g : Goal}
    (h : ∀ g', Leads T g g' → Sim Eq Eq (search g') fun n => family n g') :
    Sim Eq Eq (g.step T search) fun n => g.step T (family n) := by
  cases g.form T with
  | direct hd =>
    have hstep : ∀ n, g.step T (family n) = g.step T search :=
      fun n => step_direct (family n) hd search g.context
    simp only [hstep]
    exact Sim.refl _
  | stops r _ _ hr =>
    simp only [hr g.context (.refl g)]
    exact Sim.refl _
  | stopsNoted r _ _ hr =>
    simp only [hr g.context (.refl g)]
    exact Sim.refl _
  | forwards g' f hf =>
    simp only [step_forwards _ hf]
    exact ((h g' (.forward hf)).map fun _ _ ho => congrArg _ ho).noted g
  | union ms hu =>
    obtain ⟨t, c, v⟩ := g
    obtain rfl : t = .union ms := hu
    exact Sim.searchUnion fun m hm hl => h _ (.union hm hl)
  | inter ms hi =>
    obtain ⟨t, c, v⟩ := g
    obtain rfl : t = .inter ms := hi
    exact Sim.searchInter fun m hm => h _ (.inter hm)

/-- The search for a goal to a bounded depth. -/
def withinGoal (T : Table) (depth : Nat) (g : Goal) : Search (Option Shape) :=
  within T depth g.type g.context g.view

/-- The search for a goal. -/
def findGoal (T : Table) (g : Goal) : Search (Option Shape) :=
  find T g.type g.context g.view

/-- Within no depth nothing is found. -/
theorem withinGoal_zero (T : Table) (g : Goal) (b : Cache) : withinGoal T 0 g b = none :=
  rfl

/-- Within one more, a step is made whose searches stay within the depth. -/
theorem withinGoal_succ (T : Table) (n : Nat) (g : Goal) :
    withinGoal T (n + 1) g = g.step T (withinGoal T n) :=
  rfl

/-- What ends to some depth ends in the same way to any greater depth. -/
theorem withinGoal_mono {T : Table} {n m : Nat} {g : Goal} {b : Cache}
    {r : Except ShapeError (Option Shape) × Cache} (hnm : n ≤ m)
    (h : withinGoal T n g b = some r) : withinGoal T m g b = some r := by
  have hstep : ∀ n g, Sim Eq Eq (withinGoal T n g) fun _ => withinGoal T (n + 1) g := by
    intro n
    induction n with
    | zero =>
      intro g b f _ r b' h
      simp [withinGoal_zero] at h
    | succ n ih =>
      intro g
      simp only [withinGoal_succ T n, withinGoal_succ T (n + 1)]
      exact Goal.sim_step fun g' _ => ih g'
  induction hnm with
  | refl => exact h
  | @step k _ ih =>
    obtain ⟨i, r', f', hf', hr, heq⟩ := hstep k g rfl ih
    rw [← heq, ← hr.eq] at hf'
    exact hf' i (Nat.le_refl i)

/-! ## Searching deeper and deeper -/

/-- A search ends when it does so to some depth. -/
theorem findGoal_eq_some_iff {T : Table} {g : Goal} {b : Cache}
    {r : Except ShapeError (Option Shape) × Cache} :
    findGoal T g b = some r ↔ ∃ n, withinGoal T n g b = some r := by
  constructor
  · exact Deepening.exists_of_answer
  · rintro ⟨n, h⟩
    refine Deepening.answer_eq_some (fun _ _ hnm h => withinGoal_mono hnm h) h ?_ _
    intro m r' h'
    have h₁ := withinGoal_mono (Nat.le_max_left n m) h
    have h₂ : withinGoal T (max n m) g b = some r' := withinGoal_mono (Nat.le_max_right n m) h'
    rw [h₁] at h₂
    exact (Option.some.inj h₂).symm

/-- A search answers a goal from its own answers to further goals. -/
theorem findGoal_eq (T : Table) (g : Goal) : findGoal T g = g.step T (findGoal T) := by
  funext b
  apply Option.ext
  intro r
  rw [findGoal_eq_some_iff]
  constructor
  · rintro ⟨n, h⟩
    cases n with
    | zero => simp [withinGoal_zero] at h
    | succ n =>
      rw [withinGoal_succ] at h
      have hsim : Sim Eq Eq (g.step T (withinGoal T n)) fun _ => g.step T (findGoal T) := by
        refine Goal.sim_step fun g' _ => ?_
        rintro b _ rfl r b' h
        exact ⟨0, r, b', fun _ _ => findGoal_eq_some_iff.mpr ⟨n, h⟩, .refl r, rfl⟩
      obtain ⟨i, r', f', hf', hr, heq⟩ := hsim rfl h
      rw [← heq, ← hr.eq] at hf'
      exact hf' i (Nat.le_refl i)
  · intro h
    have hsim : Sim Eq Eq (g.step T (findGoal T)) fun n => g.step T (withinGoal T n) := by
      refine Goal.sim_step fun g' _ => ?_
      rintro b _ rfl r b' h
      obtain ⟨n, hn⟩ := findGoal_eq_some_iff.mp h
      exact ⟨n, r, b', fun k hk => withinGoal_mono hk hn, .refl r, rfl⟩
    obtain ⟨n, r', f', hf', hr, heq⟩ := hsim rfl h
    rw [← heq, ← hr.eq] at hf'
    exact ⟨n + 1, hf' n (Nat.le_refl n)⟩

end Search
end TypeShape
