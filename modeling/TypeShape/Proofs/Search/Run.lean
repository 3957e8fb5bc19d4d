import TypeShape.Proofs.Failure
import TypeShape.Proofs.Types.Parts
import TypeShape.Shape.Search

/-!
# Running searches

A search takes what is remembered to an answer and what is remembered then, or goes on for ever.
This module says how a search in parts runs and compares the runs of searches part by part.

Main results:

- Theorem `Search.bind_apply`: how two searches run in sequence.
- Theorems `Search.Sim.shapesOf` and `Search.Sim.allGroupShapes`: searches for many types compare as
  those for each of them do.
-/

namespace TypeShape
namespace Search

variable {α β : Type}

/-! ## Running in sequence -/

/-- An answer leaves the memory alone. -/
theorem pure_apply (a : α) (b : Cache) : (pure a : Search α) b = some (.ok a, b) :=
  rfl

/-- A sequence runs its second part on what the first left, unless that failed. -/
theorem bind_apply (m : Search α) (k : α → Search β) (b : Cache) :
    (m >>= k) b =
      match m b with
      | some (.ok a, b') => k a b'
      | some (.error e, b') => some (.error e, b')
      | none => none := by
  change (m b).bind (fun r => ExceptT.bindCont k r.1 r.2) = _
  rcases m b with _ | ⟨⟨e⟩ | a, b'⟩ <;> rfl

/-- The memory may be read first. -/
theorem get_bind_apply (k : Cache → Search β) (b : Cache) :
    ((get : Search Cache) >>= k) b = k b b :=
  rfl

/-- Mapping changes what is answered and not the memory. -/
theorem map_apply (h : α → β) (m : Search α) (b : Cache) :
    (h <$> m) b = (m b).map fun r => (r.1.map h, r.2) := by
  change (m b).bind _ = _
  rcases m b with _ | ⟨⟨e⟩ | a, b'⟩ <;> rfl

/-- The memory with one more note. -/
def note (b : Cache) (t : Ty) : Cache :=
  { b with pending := t :: b.pending }

/-- The memory without the latest note. -/
def unnote (b : Cache) : Cache :=
  { b with pending := b.pending.tail }

/-- A search through a type is stopped by a note of this type, and else made under one. -/
theorem lookingThrough_eq_some {t : Ty} {m : Search α} {b b' : Cache} {r : Except ShapeError α} :
    lookingThrough t m b = some (r, b') ↔
      (b.pending.any (· == t) = true ∧ r = .error (.cycle t) ∧ b' = b) ∨
      (b.pending.any (· == t) = false ∧ ∃ b₁, m (note b t) = some (r, b₁) ∧ b' = unnote b₁) := by
  unfold lookingThrough
  cases hnoted : b.pending.any (· == t) with
  | true =>
    simp only [if_true, Option.some.injEq, Prod.mk.injEq, true_and, Bool.true_eq_false, false_and,
      or_false]
    exact and_congr eq_comm eq_comm
  | false =>
    simp only [Bool.false_eq_true, if_false, false_and, true_and, false_or,
      Option.map_eq_some_iff, Prod.mk.injEq]
    constructor
    · rintro ⟨⟨r', b₁⟩, hm, rfl, rfl⟩
      exact ⟨b₁, hm, rfl⟩
    · rintro ⟨b₁, hm, rfl⟩
      exact ⟨(r, b₁), hm, rfl, rfl⟩

/-! ## Comparing runs

A search is compared with a family of searches, which stands for one search made to greater and
greater depth. -/

/-- Whenever the search ends, so do, on related memory, all searches of the family from some one
on, with a related answer and on memory that is related again. -/
def Sim {α α' : Type} (R : Cache → Cache → Prop) (Q : α → α' → Prop) (m : Search α)
    (family : Nat → Search α') : Prop :=
  ∀ ⦃b f⦄, R b f → ∀ ⦃r b'⦄, m b = some (r, b') →
    ∃ n r' f', (∀ k, n ≤ k → family k f = some (r', f')) ∧ ExceptRel Q r r' ∧ R b' f'

namespace Sim

variable {α' β' : Type} {R : Cache → Cache → Prop} {Q : α → α' → Prop} {P : β → β' → Prop}

/-- On equal memory a search ends as it does. -/
theorem refl (m : Search α) : Sim Eq Eq m fun _ => m := by
  rintro b _ rfl r b' h
  exact ⟨0, r, b', fun _ _ => h, .refl r, rfl⟩

/-- A family of one search compares as this search does. -/
theorem run {m : Search α} {m' : Search α'} (h : Sim R Q m fun _ => m') {b f b' : Cache}
    {r : Except ShapeError α} (hR : R b f) (hm : m b = some (r, b')) :
    ∃ r' f', m' f = some (r', f') ∧ ExceptRel Q r r' ∧ R b' f' := by
  obtain ⟨n, r', f', hf', hQ, hR'⟩ := h hR hm
  exact ⟨r', f', hf' n (Nat.le_refl n), hQ, hR'⟩

/-- Answers may be related in a weaker sense. -/
theorem imp {Q' : α → α' → Prop} {m : Search α} {family : Nat → Search α'} (h : Sim R Q m family)
    (hQ : ∀ a a', Q a a' → Q' a a') : Sim R Q' m family := by
  intro b f hR r b' hm
  obtain ⟨n, r', f', hf', hrel, hR'⟩ := h hR hm
  exact ⟨n, r', f', hf', hrel.imp hQ, hR'⟩

/-- Related answers are related at once. -/
theorem pure {a : α} {a' : α'} (h : Q a a') : Sim R Q (pure a) fun _ => pure a' := by
  intro b f hR r b' hr
  obtain ⟨rfl, rfl⟩ : Except.ok a = r ∧ b = b' := by simpa [pure_apply] using hr
  exact ⟨0, .ok a', f, fun _ _ => rfl, .ok h, hR⟩

/-- Related searches that use related answers are related. -/
theorem bind {m : Search α} {family : Nat → Search α'} {k : α → Search β}
    {families : Nat → α' → Search β'} (hm : Sim R Q m family)
    (hk : ∀ a a', Q a a' → Sim R P (k a) fun n => families n a') :
    Sim R P (m >>= k) fun n => family n >>= families n := by
  intro b f hR r b'' h
  rw [bind_apply] at h
  rcases hmb : m b with _ | ⟨e | a, b'⟩
  · simp [hmb] at h
  · obtain ⟨n, _, f', hf', ⟨⟩, hR'⟩ := hm hR hmb
    obtain ⟨rfl, rfl⟩ : Except.error e = r ∧ b' = b'' := by simpa [hmb] using h
    refine ⟨n, .error e, f', fun i hi => ?_, .error e, hR'⟩
    beta_reduce
    rw [bind_apply, hf' i hi]
  · obtain ⟨n, r₁, f', hf', hQ, hR'⟩ := hm hR hmb
    rw [hmb] at h
    cases hQ with
    | ok hQ =>
      obtain ⟨n', r', f'', hf'', hP, hR''⟩ := hk a _ hQ hR' h
      refine ⟨max n n', r', f'', fun i hi => ?_, hP, hR''⟩
      beta_reduce
      rw [bind_apply, hf' i (by omega)]
      exact hf'' i (by omega)

/-- What is made of related answers is related. -/
theorem map {m : Search α} {family : Nat → Search α'} {h : α → β} {h' : α' → β'}
    (hm : Sim R Q m family) (hh : ∀ a a', Q a a' → P (h a) (h' a')) :
    Sim R P (h <$> m) fun n => h' <$> family n := by
  intro b f hR r b' hr
  rw [map_apply] at hr
  obtain ⟨⟨r₀, b₁⟩, hmb, heq⟩ := Option.map_eq_some_iff.mp hr
  obtain ⟨rfl, rfl⟩ : r₀.map h = r ∧ b₁ = b' := by simpa using heq
  obtain ⟨n, r', f', hf', hQ, hR'⟩ := hm hR hmb
  refine ⟨n, r'.map h', f', fun i hi => ?_, hQ.map hh, hR'⟩
  beta_reduce
  rw [map_apply, hf' i hi]
  rfl

section Shapes

variable {S : Shape → Shape → Prop} {search : Ty → Search (Option Shape)}
  {family : Nat → Ty → Search (Option Shape)}

/-- The shapes of a list compare as those of its types do. -/
theorem shapesOf {ts : List Ty}
    (h : ∀ t ∈ ts, Sim R (Option.Rel S) (search t) fun n => family n t) :
    Sim R (Option.Rel (List.Forall₂ S)) (shapesOf search ts)
      fun n => Search.shapesOf (family n) ts := by
  induction ts with
  | nil => exact Sim.pure (.some .nil)
  | cons t ts ih =>
    refine Sim.bind (h t List.mem_cons_self) fun first first' hfirst => ?_
    cases hfirst with
    | none => exact Sim.pure .none
    | some hs =>
      refine Sim.bind (ih fun u hu => h u (List.mem_cons_of_mem t hu)) fun rest rest' hrest => ?_
      cases hrest with
      | none => exact Sim.pure .none
      | some hss => exact Sim.pure (.some (.cons hs hss))

/-- The shapes of groups of members compare as those of the types that are searched for and of
the classes of literals do. -/
theorem allGroupShapes {T : Table} {groups : List (Option TypeName × List Ty)}
    (hclass : ∀ name ts, (some name, ts) ∈ groups →
      Sim R S (classShape T name (some (Ty.unionOf ts)) (some (Ty.unionOf ts)))
        fun _ => classShape T name (some (Ty.unionOf ts)) (some (Ty.unionOf ts)))
    (h : ∀ g ∈ groups, g.1 = none → ∀ t ∈ g.2,
      Sim R (Option.Rel S) (search t) fun n => family n t) :
    Sim R (Option.Rel (List.Forall₂ S)) (allGroupShapes T search groups)
      fun n => Search.allGroupShapes T (family n) groups := by
  induction groups with
  | nil => exact Sim.pure (.some .nil)
  | cons g gs ih =>
    have hgroup : Sim R (Option.Rel (List.Forall₂ S)) (groupShapes T search g)
        fun n => groupShapes T (family n) g := by
      obtain ⟨name, ts⟩ := g
      cases name with
      | none => exact Sim.shapesOf (h _ List.mem_cons_self rfl)
      | some name =>
        exact Sim.bind (hclass name ts List.mem_cons_self) fun s s' hs =>
          Sim.pure (.some (.cons hs .nil))
    refine Sim.bind hgroup fun first first' hfirst => ?_
    cases hfirst with
    | none => exact Sim.pure .none
    | some hss =>
      refine Sim.bind (ih (fun name ts hg => hclass name ts (List.mem_cons_of_mem g hg))
        fun g' hg' => h g' (List.mem_cons_of_mem g hg')) fun rest rest' hrest => ?_
      cases hrest with
      | none => exact Sim.pure .none
      | some hrest => exact Sim.pure (.some (List.rel_append hss hrest))

end Shapes

end Sim

end Search
end TypeShape
