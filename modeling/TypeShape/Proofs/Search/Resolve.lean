import Mathlib.Logic.Relation
import TypeShape.Proofs.Search.Objects

/-!
# The shape of a goal

What the shape of a goal is can be said without memory and without notes: it is made from the shapes
of the goals that it leads to.  `Resolves T n g s` says so for a chain of at most `n` goals.  A goal
that leads back to itself has no shape in this sense.

Main results:

- Theorem `Search.Resolves.unique`: a goal has at most one shape.
- Theorem `Search.Resolves.of_bounds`: a goal that reaches no placeholder has its shape in every
  context with the same bounds.
- Theorem `Search.Inside.noSlot`: a goal with a shape that is met inside a receiver reaches no
  placeholder.
-/

namespace TypeShape
namespace Search

variable {T : Table}

/-- The search that knows the shapes of all types. -/
def known (σ : Ty → Shape) (t : Ty) : Search (Option Shape) :=
  pure (some (σ t))

/-- The shape of a goal, found through at most so many goals. -/
inductive Resolves (T : Table) : Nat → Goal → Shape → Prop where
  | direct {n : Nat} {g : Goal} {s : Shape} (hd : g.type.isDirect = true)
      (hs : ∀ search, Returns T (g.step T search) (.ok (some s))) : Resolves T (n + 1) g s
  | forward {n : Nat} {g g' : Goal} {h : Shape → Shape} {s : Shape}
      (hf : Goal.Forwards T g g' h) (hs : Resolves T n g' s) : Resolves T (n + 1) g (h s)
  | union {n : Nat} {ms : List Ty} {c : Context} {v : View} {shapes : List Shape} (σ : Ty → Shape)
      (hm : ∀ m ∈ ms, literalClass? m = none → Resolves T n ⟨m, c, .outside⟩ (σ m))
      (hs : Returns T (allGroupShapes T (known σ) (memberGroups ms)) (.ok (some shapes))) :
      Resolves T (n + 1) ⟨.union ms, c, v⟩ (Shape.ofUnion (.union ms) shapes)
  | inter {n : Nat} {ms : List Ty} {c : Context} {v : View} (σ : Ty → Shape)
      (hm : ∀ m ∈ ms, Resolves T n ⟨m, c, .outside⟩ (σ m)) :
      Resolves T (n + 1) ⟨.inter ms, c, v⟩ (Shape.ofInter (.inter ms) (ms.map σ))

/-- The goals that a goal leads to in any number of steps. -/
abbrev Reaches (T : Table) : Goal → Goal → Prop :=
  Relation.ReflTransGen (Leads T)

/-! ## One shape -/

/-- The shapes of a list depend on the searches for its types. -/
theorem shapesOf_congr {search search' : Ty → Search (Option Shape)} {ts : List Ty}
    (h : ∀ t ∈ ts, search t = search' t) : shapesOf search ts = shapesOf search' ts := by
  induction ts with
  | nil => rfl
  | cons t ts ih =>
    rw [shapesOf, shapesOf, h t List.mem_cons_self,
      ih fun u hu => h u (List.mem_cons_of_mem t hu)]

/-- Only the members that are no literals are searched for. -/
theorem allGroupShapes_congr {search search' : Ty → Search (Option Shape)}
    {groups : List (Option TypeName × List Ty)}
    (h : ∀ g ∈ groups, g.1 = none → ∀ t ∈ g.2, search t = search' t) :
    allGroupShapes T search groups = allGroupShapes T search' groups := by
  induction groups with
  | nil => rfl
  | cons g gs ih =>
    have hgroup : groupShapes T search g = groupShapes T search' g := by
      obtain ⟨name, ts⟩ := g
      cases name with
      | none => exact shapesOf_congr (h _ List.mem_cons_self rfl)
      | some name => rfl
    rw [allGroupShapes, allGroupShapes, hgroup, ih fun g' hg' => h g' (List.mem_cons_of_mem g hg')]

/-- The shapes of groups depend on the shapes of members that are no literals. -/
theorem allGroupShapes_known_congr {σ τ : Ty → Shape} {ms : List Ty}
    (h : ∀ m ∈ ms, literalClass? m = none → σ m = τ m) :
    allGroupShapes T (known σ) (memberGroups ms) =
      allGroupShapes T (known τ) (memberGroups ms) := by
  refine allGroupShapes_congr fun g hg hn m hm => ?_
  obtain ⟨hmem, hl⟩ := mem_of_mem_memberGroups hg hn hm
  rw [known, known, h m hmem hl]

/-- A goal has at most one shape. -/
theorem Resolves.unique {n k : Nat} {g : Goal} {s s' : Shape} (h : Resolves T n g s)
    (h' : Resolves T k g s') : s = s' := by
  induction h generalizing k s' with
  | direct hd hs =>
    cases h' with
    | direct _ hs' =>
      exact Option.some.inj (Except.ok.inj ((hs (findGoal T)).unique (hs' (findGoal T))))
    | forward hf => simp [hf.not_direct] at hd
    | union => simp [Ty.isDirect] at hd
    | inter => simp [Ty.isDirect] at hd
  | forward hf _ ih =>
    cases h' with
    | direct hd => simp [hf.not_direct] at hd
    | forward hf' hs' =>
      obtain ⟨rfl, rfl⟩ := hf.unique hf'
      rw [ih hs']
    | union => cases hf
    | inter => cases hf
  | union σ _ hs ih =>
    cases h' with
    | direct hd => simp [Ty.isDirect] at hd
    | forward hf => cases hf
    | union τ hm' hs' =>
      rw [allGroupShapes_known_congr fun m hm hl => ih m hm hl (hm' m hm hl)] at hs
      rw [Option.some.inj (Except.ok.inj (hs.unique hs'))]
  | inter σ _ ih =>
    cases h' with
    | direct hd => simp [Ty.isDirect] at hd
    | forward hf => cases hf
    | inter τ hm' => rw [List.map_congr_left fun m hm => ih m hm (hm' m hm)]

/-- What is found through some goals is found through more. -/
theorem Resolves.mono {n k : Nat} {g : Goal} {s : Shape} (h : Resolves T n g s) (hnk : n ≤ k) :
    Resolves T k g s := by
  induction h generalizing k with
  | direct hd hs =>
    obtain ⟨k, rfl⟩ := Nat.exists_eq_add_of_lt (Nat.lt_of_lt_of_le (Nat.succ_pos _) hnk)
    exact .direct hd hs
  | forward hf _ ih =>
    obtain ⟨k, rfl⟩ : ∃ i, k = i + 1 := ⟨k - 1, by omega⟩
    exact .forward hf (ih (by omega))
  | union σ _ hs ih =>
    obtain ⟨k, rfl⟩ : ∃ i, k = i + 1 := ⟨k - 1, by omega⟩
    exact .union σ (fun m hm hl => ih m hm hl (by omega)) hs
  | inter σ _ ih =>
    obtain ⟨k, rfl⟩ : ∃ i, k = i + 1 := ⟨k - 1, by omega⟩
    exact .inter σ fun m hm => ih m hm (by omega)

/-- The goals that a goal leads to have shapes through fewer goals. -/
theorem Resolves.leads {n : Nat} {g g' : Goal} {s : Shape} (h : Resolves T n g s)
    (hl : Leads T g g') : ∃ k s', k < n ∧ Resolves T k g' s' := by
  cases hl with
  | forward hf =>
    cases h with
    | direct hd => simp [hf.not_direct] at hd
    | forward hf' hs =>
      obtain ⟨rfl, rfl⟩ := hf.unique hf'
      exact ⟨_, _, Nat.lt_succ_self _, hs⟩
    | union => cases hf
    | inter => cases hf
  | union hm hlit =>
    cases h with
    | direct hd => simp [Ty.isDirect] at hd
    | forward hf => cases hf
    | union σ hms => exact ⟨_, _, Nat.lt_succ_self _, hms _ hm hlit⟩
  | inter hm =>
    cases h with
    | direct hd => simp [Ty.isDirect] at hd
    | forward hf => cases hf
    | inter σ hms => exact ⟨_, _, Nat.lt_succ_self _, hms _ hm⟩

/-- The goals that a goal reaches have shapes through no more goals. -/
theorem Resolves.reaches {n : Nat} {g g' : Goal} {s : Shape} (h : Resolves T n g s)
    (hr : Reaches T g g') : ∃ k s', k ≤ n ∧ Resolves T k g' s' := by
  induction hr with
  | refl => exact ⟨n, s, Nat.le_refl n, h⟩
  | tail _ hl ih =>
    obtain ⟨k, s', hk, hs'⟩ := ih
    obtain ⟨i, s'', hi, hs''⟩ := hs'.leads hl
    exact ⟨i, s'', by omega, hs''⟩

/-- The goals inside of a goal have shapes through fewer goals. -/
theorem Resolves.transGen {n : Nat} {g g' : Goal} {s : Shape} (h : Resolves T n g s)
    (hr : Relation.TransGen (Leads T) g g') : ∃ k s', k < n ∧ Resolves T k g' s' := by
  obtain ⟨g₁, hl, hr'⟩ := Relation.TransGen.head'_iff.mp hr
  obtain ⟨k, s₁, hk, hs₁⟩ := h.leads hl
  obtain ⟨i, s₂, hi, hs₂⟩ := hs₁.reaches hr'
  exact ⟨i, s₂, by omega, hs₂⟩

/-- A goal has no shape if it is reached from one that has a shape with it. -/
theorem not_resolves_of_cycle {g g' : Goal} (hr : Relation.TransGen (Leads T) g g')
    (hback : ∀ n s, Resolves T n g' s → ∃ s', Resolves T n g s') (n : Nat) (s : Shape) :
    ¬ Resolves T n g' s := by
  induction n using Nat.strongRecOn generalizing s with
  | ind n ih =>
    intro h
    obtain ⟨s', hs'⟩ := hback n s h
    obtain ⟨k, s₁, hk, hs₁⟩ := hs'.transGen hr
    exact ih k hk s₁ hs₁

/-! ## Contexts -/

/-- A goal is handed on to the anchor of a placeholder, to a goal in the same context, or to the
bound of a variable as the receiver.  Only the first depends on the anchors. -/
theorem Goal.Forwards.context {g g' : Goal} {h : Shape → Shape} (hf : Goal.Forwards T g g' h) :
    (g'.context = g.context ∧ ∃ p, g.type = .slot p) ∨
    (g'.context = g.context ∧ ∀ c : Context, c.bounds = g.context.bounds →
      Goal.Forwards T { g with context := c } { g' with context := c } h) ∨
    ((∃ x, g.context.bound? x = some g'.type) ∧
      g'.context = ⟨{ selfType := some g'.type }, g.context.bounds⟩ ∧ g'.view = .asReceiver ∧
      ∀ c : Context, c.bounds = g.context.bounds →
        Goal.Forwards T { g with context := c } g' h) := by
  cases hf with
  | @slot p => exact Or.inl ⟨rfl, p, rfl⟩
  | @receiver x c bound hb =>
    refine Or.inr (Or.inl ⟨rfl, fun d hd => .receiver ?_⟩)
    rw [Context.bound?, hd]
    exact hb
  | @bound x c bound hb hs =>
    refine Or.inr (Or.inr ⟨⟨x, hb⟩, rfl, rfl, fun d hd => ?_⟩)
    rw [← hd]
    refine .bound ?_ hs
    rw [Context.bound?, hd]
    exact hb
  | expansion he => exact Or.inr (Or.inl ⟨rfl, fun d _ => .expansion he⟩)

/-- All goals of a search have the same bounds. -/
theorem Leads.bounds {g g' : Goal} (h : Leads T g g') :
    g'.context.bounds = g.context.bounds := by
  cases h with
  | forward hf =>
    rcases hf.context with ⟨hc, -⟩ | ⟨hc, -⟩ | ⟨-, hc, -⟩ <;> rw [hc]
  | union => rfl
  | inter => rfl

/-- A goal reaches goals with its bounds only. -/
theorem Reaches.bounds {g g' : Goal} (h : Reaches T g g') :
    g'.context.bounds = g.context.bounds := by
  induction h with
  | refl => rfl
  | tail _ hl ih => exact hl.bounds.trans ih

/-- No placeholder is ever asked for. -/
def NoSlot (T : Table) (g : Goal) : Prop :=
  ∀ g', Reaches T g g' → ∀ s, g'.type ≠ .slot s

/-- A goal that never comes to a placeholder leads to such goals. -/
theorem NoSlot.leads {g g' : Goal} (h : NoSlot T g) (hl : Leads T g g') : NoSlot T g' :=
  fun g'' hr => h g'' (.head hl hr)

/-- A goal that reaches no placeholder has its shape in every context with the same bounds. -/
theorem Resolves.of_bounds {n : Nat} {g : Goal} {s : Shape} (h : Resolves T n g s)
    (hslot : NoSlot T g) {c : Context} (hc : c.bounds = g.context.bounds) :
    Resolves T n { g with context := c } s := by
  induction h generalizing c with
  | direct hd hs =>
    refine .direct hd fun search => ?_
    rw [← Goal.step_direct search hd search c]
    exact hs search
  | @forward n g g' f s hf hs ih =>
    have hslot' := hslot.leads (.forward hf)
    rcases hf.context with ⟨-, p, hp⟩ | ⟨hctx, hmove⟩ | ⟨-, -, -, hmove⟩
    · exact absurd hp (hslot g .refl p)
    · exact .forward (hmove c hc) (ih hslot' (by rw [hctx]; exact hc))
    · exact .forward (hmove c hc) hs
  | union σ _ hs ih =>
    exact .union σ (fun m hm hl => ih m hm hl (hslot.leads (.union hm hl)) hc) hs
  | inter σ _ ih => exact .inter σ fun m hm => ih m hm (hslot.leads (.inter hm)) hc

/-- The goal is met while the receiver of its context is looked at. -/
def Inside (T : Table) (g : Goal) : Prop :=
  ∃ receiver, g.context.anchors = { selfType := some receiver } ∧
    Reaches T ⟨receiver, g.context, .asReceiver⟩ g

/-- A goal leads to one in its own context or to one inside. -/
theorem Leads.inside {g g' : Goal} (h : Leads T g g') :
    (g'.context = g.context ∧ (Inside T g → Inside T g')) ∨ Inside T g' := by
  have hkeep : g'.context = g.context →
      (g'.context = g.context ∧ (Inside T g → Inside T g')) ∨ Inside T g' := by
    refine fun hc => Or.inl ⟨hc, ?_⟩
    rintro ⟨receiver, ha, hr⟩
    refine ⟨receiver, by rw [hc]; exact ha, ?_⟩
    rw [hc]
    exact hr.tail h
  cases h with
  | forward hf =>
    rcases hf.context with ⟨hc, -⟩ | ⟨hc, -⟩ | ⟨-, hc, hv, -⟩
    · exact hkeep hc
    · exact hkeep hc
    · refine Or.inr ⟨g'.type, by rw [hc], ?_⟩
      rw [← hv]
  | union => exact hkeep rfl
  | inter => exact hkeep rfl

/-- A goal stands in the context of the goals before it, or inside a receiver of its own. -/
theorem Reaches.inside {g g' : Goal} (h : Reaches T g g') :
    g'.context = g.context ∨ Inside T g' := by
  induction h with
  | refl => exact Or.inl rfl
  | tail _ hl ih =>
    rcases hl.inside with ⟨hc, hin⟩ | hin
    · rcases ih with hc' | hin'
      · exact Or.inl (hc.trans hc')
      · exact Or.inr (hin hin')
    · exact Or.inr hin

/-- What is reached from inside is inside. -/
theorem Inside.reaches {g g' : Goal} (hin : Inside T g) (h : Reaches T g g') : Inside T g' := by
  induction h with
  | refl => exact hin
  | tail _ hl ih =>
    rcases hl.inside with ⟨-, hstep⟩ | hin'
    · exact hstep ih
    · exact hin'

/-- Inside a receiver the placeholder of the receiver leads back to it, and the others have no
anchor.  So a goal with a shape is none of them. -/
theorem Inside.not_slot {g : Goal} (hin : Inside T g) {n : Nat} {s : Shape}
    (h : Resolves T n g s) (p : Slot) : g.type ≠ .slot p := by
  intro hp
  obtain ⟨receiver, ha, hr⟩ := hin
  have hforward : ∃ g' f, Goal.Forwards T g g' f := by
    cases h with
    | direct hd => simp [hp, Ty.isDirect] at hd
    | forward hf => exact ⟨_, _, hf⟩
    | union => cases hp
    | inter => cases hp
  obtain ⟨g', f, hf⟩ := hforward
  have hgoal : g' = ⟨receiver, g.context, .asReceiver⟩ := by
    cases hf with
    | @slot q c anchor hq =>
      obtain rfl : q = p := Ty.slot.inj hp
      have ha' : c.anchors = { selfType := some receiver } := ha
      cases q <;> simp [ha', Anchors.get?] at hq
      rw [hq]
      rfl
    | receiver => cases hp
    | bound => cases hp
    | expansion => cases hp
  exact not_resolves_of_cycle (.head' (.forward hf) (hgoal ▸ hr)) (fun n s hs => ⟨s, hs⟩) n s h

/-- A goal with a shape that is met inside a receiver reaches no placeholder. -/
theorem Inside.noSlot {g : Goal} (hin : Inside T g) {n : Nat} {s : Shape}
    (h : Resolves T n g s) : NoSlot T g := by
  intro g' hr p
  obtain ⟨k, s', -, hs'⟩ := h.reaches hr
  exact (hin.reaches hr).not_slot hs' p

end Search
end TypeShape
