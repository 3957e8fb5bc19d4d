/-!
# Computations that can fail

A computation that succeeds has succeeded at each of its steps.

Main results:

- Theorem `exists_of_bind_ok`: the result of the first of two steps.
- Theorem `map_bind_bind`: two steps seen through a map of each.
- Theorem `foldlM_invariant`: an invariant of a fold.
- Theorem `foldlM_collects`: what every step of a fold adds is there at its end.
- Theorem `exists_of_foldlM_error`: a fold fails at one of its steps.
- Theorem `ExceptRel.foldlM`: two folds that go in step with each other.
-/

namespace TypeShape

theorem exists_of_bind_ok {ε α β : Type} {x : Except ε α} {f : α → Except ε β} {b : β}
    (h : x >>= f = .ok b) : ∃ a, x = .ok a ∧ f a = .ok b := by
  cases x with
  | error e => cases h
  | ok a => exact ⟨a, rfl, h⟩

/-- A computation whose result passes a test has a result. -/
theorem exists_ok_of_any {ε α : Type} {x : Except ε α} {p : α → Bool}
    (h : x.toOption.any p = true) : ∃ a, x = .ok a ∧ p a = true := by
  cases x with
  | error e => cases h
  | ok a => exact ⟨a, rfl, h⟩

/-- A computation that fails without regard to its result fails. -/
theorem eq_error_of_map {ε α : Type} {x : Except ε α} {e : ε}
    (h : x.map (fun _ => ()) = .error e) : x = .error e := by
  cases x with
  | error e' => exact congrArg _ (Except.error.inj h)
  | ok a => cases h

/-- The second step matters only where the first one succeeds. -/
theorem bind_congr_of_ok {ε α β : Type} {x : Except ε α} {f g : α → Except ε β}
    (h : ∀ a, x = .ok a → f a = g a) : (x >>= f) = (x >>= g) := by
  cases x with
  | error e => rfl
  | ok a => exact h a rfl

/-- Two evaluations in a row can be looked at one by one. -/
theorem map_bind_bind {ε α β γ α' β' γ' : Type} {x : Except ε α} {y : α → Except ε β}
    {y' : α' → Except ε β'} {f : α → α'} {g : β → β'} {h : γ → γ'} {k : α → β → γ}
    {k' : α' → β' → γ'} (hy : ∀ a, y' (f a) = (y a).map g)
    (hk : ∀ a b, k' (f a) (g b) = h (k a b)) :
    (do let a ← x; let b ← y a; return k a b : Except ε γ).map h =
      do let a ← x.map f; let b ← y' a; return k' a b := by
  cases x with
  | error e => rfl
  | ok a =>
    change Except.map h (y a >>= fun b => pure (k a b)) = y' (f a) >>= fun b => pure (k' (f a) b)
    rw [hy]
    cases y a with
    | error e => rfl
    | ok b => exact congrArg Except.ok (hk a b).symm

/-- What every step of a fold keeps holds at its end. -/
theorem foldlM_invariant {ε α β : Type} {P : β → Prop} {f : β → α → Except ε β} {l : List α}
    (hstep : ∀ a ∈ l, ∀ b b', P b → f b a = .ok b' → P b') {b b' : β} (hb : P b)
    (h : l.foldlM f b = .ok b') : P b' := by
  induction l generalizing b with
  | nil =>
    obtain rfl := Except.ok.inj h
    exact hb
  | cons a l ih =>
    rw [List.foldlM_cons] at h
    obtain ⟨b₁, hfirst, hrest⟩ := exists_of_bind_ok h
    exact ih (fun a' ha' => hstep a' (List.mem_cons_of_mem a ha'))
      (hstep a List.mem_cons_self b b₁ hb hfirst) hrest

/-- What each step of a fold brings about, and no later step undoes, holds at its end. -/
theorem foldlM_collects {ε α β : Type} {P : β → Prop} {Q : α → β → Prop} {f : β → α → Except ε β}
    {l : List α}
    (hstep : ∀ a ∈ l, ∀ b b', P b → f b a = .ok b' → P b' ∧ Q a b' ∧ ∀ x, Q x b → Q x b')
    {b b' : β} (hb : P b) (h : l.foldlM f b = .ok b') : P b' ∧ ∀ a ∈ l, Q a b' := by
  -- The fold keeps what held at its start as well, so that the first step's gain is not lost.
  suffices P b' ∧ (∀ a ∈ l, Q a b') ∧ ∀ x, Q x b → Q x b' from ⟨this.1, this.2.1⟩
  induction l generalizing b with
  | nil =>
    obtain rfl := Except.ok.inj h
    exact ⟨hb, by simp, fun _ hx => hx⟩
  | cons a l ih =>
    rw [List.foldlM_cons] at h
    obtain ⟨b₁, hfirst, hrest⟩ := exists_of_bind_ok h
    obtain ⟨hb₁, ha, hkept⟩ := hstep a List.mem_cons_self b b₁ hb hfirst
    obtain ⟨hb', hl, hkept'⟩ := ih (fun a' ha' => hstep a' (List.mem_cons_of_mem a ha')) hb₁ hrest
    refine ⟨hb', fun a' ha' => ?_, fun x hx => hkept' x (hkept x hx)⟩
    rcases List.mem_cons.mp ha' with rfl | ha'
    · exact hkept' _ ha
    · exact hl a' ha'

/-- A fold that fails does so at one of its steps. -/
theorem exists_of_foldlM_error {ε α β : Type} {f : β → α → Except ε β} {l : List α} {b : β} {e : ε}
    (h : l.foldlM f b = .error e) : ∃ a ∈ l, ∃ b', f b' a = .error e := by
  induction l generalizing b with
  | nil => cases h
  | cons a l ih =>
    rw [List.foldlM_cons] at h
    cases hfirst : f b a with
    | error e' =>
      rw [hfirst] at h
      obtain rfl := Except.error.inj h
      exact ⟨a, List.mem_cons_self, b, hfirst⟩
    | ok b₁ =>
      rw [hfirst] at h
      obtain ⟨a', ha', hstep⟩ := ih h
      exact ⟨a', List.mem_cons_of_mem a ha', hstep⟩

/-! ## Two computations -/

/-- Two computations fail alike, or succeed with related results. -/
inductive ExceptRel {ε α β : Type} (R : α → β → Prop) : Except ε α → Except ε β → Prop
  | error (e : ε) : ExceptRel R (.error e) (.error e)
  | ok {a : α} {b : β} (h : R a b) : ExceptRel R (.ok a) (.ok b)

namespace ExceptRel

variable {ε α β : Type}

/-- After one step in common, the rest decides. -/
theorem bind {γ : Type} {R : α → β → Prop} {x : Except ε γ} {f : γ → Except ε α}
    {g : γ → Except ε β} (h : ∀ c, x = .ok c → ExceptRel R (f c) (g c)) :
    ExceptRel R (x >>= f) (x >>= g) := by
  cases x with
  | error e => exact .error e
  | ok c => exact h c rfl

/-- Related results may be related in a weaker sense. -/
theorem imp {R S : α → β → Prop} {x : Except ε α} {y : Except ε β} (h : ExceptRel R x y)
    (hRS : ∀ a b, R a b → S a b) : ExceptRel S x y := by
  cases h with
  | error e => exact .error e
  | ok h => exact .ok (hRS _ _ h)

/-- Equal results are one. -/
theorem eq {x y : Except ε α} (h : ExceptRel Eq x y) : x = y := by
  cases h with
  | error e => rfl
  | ok h => rw [h]

theorem refl (x : Except ε α) : ExceptRel Eq x x := by
  cases x with
  | error e => exact .error e
  | ok a => exact .ok rfl

/-- What is made of related results. -/
theorem map {γ δ : Type} {R : α → β → Prop} {S : γ → δ → Prop} {x : Except ε α} {y : Except ε β}
    {f : α → γ} {g : β → δ} (h : ExceptRel R x y) (hfg : ∀ a b, R a b → S (f a) (g b)) :
    ExceptRel S (x.map f) (y.map g) := by
  cases h with
  | error e => exact .error e
  | ok h => exact .ok (hfg _ _ h)

/-- Folds over one list end alike if their steps do. -/
theorem foldlM {γ : Type} {R : α → β → Prop} {f : α → γ → Except ε α} {g : β → γ → Except ε β}
    {l : List γ} (hstep : ∀ c ∈ l, ∀ a b, R a b → ExceptRel R (f a c) (g b c)) {a : α} {b : β}
    (h : R a b) : ExceptRel R (l.foldlM f a) (l.foldlM g b) := by
  induction l generalizing a b with
  | nil => exact .ok h
  | cons c l ih =>
    rw [List.foldlM_cons, List.foldlM_cons]
    have hfirst := hstep c List.mem_cons_self a b h
    generalize f a c = x at hfirst
    generalize g b c = y at hfirst
    cases hfirst with
    | error e => exact .error e
    | ok h => exact ih (fun c' hc' => hstep c' (List.mem_cons_of_mem c hc')) h

end ExceptRel

end TypeShape
