import TypeShape.Flow.Env
import TypeShape.Proofs.Keyed

/-!
# Environments as maps

An environment is known from what is found in it: after a refinement the new type, and after a join
the union of what both sides know and whatever only one side knows.

Main results:

- Theorem `Env.lookup_refine`: what is found after a refinement.
- Theorem `Env.lookup_join`: what is found after a join.
- Theorem `Env.Ordered.eq_of_lookup_eq`: environments in which the same is found are equal.
-/

namespace TypeShape

instance : Std.LawfulEqOrd EnvKey where
  compare_self := by
    intro a
    cases a with
    | var x => exact Std.ReflOrd.compare_self (a := x)
    | call i => exact Std.ReflOrd.compare_self (a := i)
  eq_of_compare := by
    intro a b h
    cases a <;> cases b
    · exact congrArg EnvKey.var (Std.LawfulEqOrd.eq_of_compare h)
    · cases h
    · cases h
    · exact congrArg EnvKey.call (Std.LawfulEqOrd.eq_of_compare h)

instance : Std.TransOrd EnvKey where
  eq_swap := by
    have hswap : ∀ {α : Type} [Ord α] [Std.OrientedOrd α] (x y : α),
        compare x y = (compare y x).swap := fun _ _ => Std.OrientedCmp.eq_swap
    intro a b
    cases a <;> cases b
    · exact hswap (α := String) _ _
    · rfl
    · rfl
    · exact hswap (α := Nat) _ _
  isLE_trans := by
    have htrans : ∀ {α : Type} [Ord α] [Std.TransOrd α] (x y z : α),
        (compare x y).isLE → (compare y z).isLE → (compare x z).isLE :=
      fun _ _ _ => Std.TransCmp.isLE_trans
    intro a b c hab hbc
    cases a with
    | var x =>
      cases c with
      | call k => rfl
      | var z =>
        cases b with
        | var y => exact htrans x y z hab hbc
        | call j => cases hbc
    | call i =>
      cases b with
      | var y => cases hab
      | call j =>
        cases c with
        | var z => cases hbc
        | call k => exact htrans i j k hab hbc

namespace Env

/-- The entries are in the order of their keys. -/
structure Ordered (env : Env) : Prop where
  vars : Keyed.Sorted env.vars
  calls : Keyed.Sorted env.calls

instance (env : Env) : Decidable env.Ordered :=
  decidable_of_iff (Keyed.Sorted env.vars ∧ Keyed.Sorted env.calls)
    ⟨fun h => ⟨h.1, h.2⟩, fun h => ⟨h.vars, h.calls⟩⟩

variable {env env' : Env}

/-! ## Refinement -/

theorem lookup_refine (env : Env) (key key' : EnvKey) (t : Ty) :
    (env.refine key t).lookup key' = if key = key' then some t else env.lookup key' := by
  cases key <;> cases key' <;> simp [lookup, refine, Keyed.get?_insert]

theorem Ordered.refine (h : env.Ordered) (key : EnvKey) (t : Ty) : (env.refine key t).Ordered := by
  cases key with
  | var x => exact ⟨Keyed.sorted_insert h.vars, h.calls⟩
  | call i => exact ⟨h.vars, Keyed.sorted_insert h.calls⟩

/-! ## Joins -/

/-- What is known where one side knows this and the other that. -/
def joinKnown : Option Ty → Option Ty → Option Ty :=
  Option.merge fun t u => Ty.unionOf [t, u]

section Entries

variable {κ : Type} [DecidableEq κ] [Ord κ] [Std.LawfulEqOrd κ] {es fs : List (κ × Ty)}

theorem get?_joinEntry (k : κ) (f : κ × Ty) :
    Keyed.get? k (joinEntry es f) =
      if f.1 = k then joinKnown (Keyed.get? k es) (some f.2) else Keyed.get? k es := by
  unfold joinEntry
  split <;> rename_i hold <;> rw [Keyed.get?_insert] <;> by_cases hk : f.1 = k
  · rw [if_pos hk, if_pos hk, ← hk, hold]
    rfl
  · rw [if_neg hk, if_neg hk]
  · rw [if_pos hk, if_pos hk, ← hk, hold]
    rfl
  · rw [if_neg hk, if_neg hk]

theorem get?_foldl_joinEntry (hfs : Keyed.Sorted fs) (k : κ) :
    Keyed.get? k (fs.foldl joinEntry es) = joinKnown (Keyed.get? k es) (Keyed.get? k fs) := by
  induction fs generalizing es with
  | nil => cases hes : Keyed.get? k es <;> simp [joinKnown, hes]
  | cons f fs ih =>
    obtain ⟨hf, hfs⟩ := List.pairwise_cons.mp hfs
    rw [List.foldl_cons, ih hfs, get?_joinEntry, Keyed.get?_cons]
    by_cases hk : f.1 = k
    · -- The key stands only once among the entries that are added.
      have hnone : Keyed.get? k fs = none := by
        cases hg : Keyed.get? k fs with
        | none => rfl
        | some t =>
          have hlt := hf _ (Keyed.mem_of_get? hg)
          rw [hk, Std.ReflOrd.compare_self] at hlt
          cases hlt
      rw [if_pos hk, if_pos hk, hnone]
      cases Keyed.get? k es <;> rfl
    · rw [if_neg hk, if_neg hk]

theorem sorted_foldl_joinEntry [Std.TransOrd κ] (hes : Keyed.Sorted es) :
    Keyed.Sorted (fs.foldl joinEntry es) := by
  refine List.foldlRecOn fs _ hes fun es hes f _ => ?_
  unfold joinEntry
  split
  · exact Keyed.sorted_insert hes
  · exact Keyed.sorted_insert hes

end Entries

theorem lookup_join (henv' : env'.Ordered) (key : EnvKey) :
    (env.join env').lookup key = joinKnown (env.lookup key) (env'.lookup key) := by
  cases key with
  | var x => exact get?_foldl_joinEntry henv'.vars x
  | call i => exact get?_foldl_joinEntry henv'.calls i

theorem Ordered.join (h : env.Ordered) (env' : Env) : (env.join env').Ordered :=
  ⟨sorted_foldl_joinEntry h.vars, sorted_foldl_joinEntry h.calls⟩

/-- Environments in which the same is found are equal. -/
theorem Ordered.eq_of_lookup_eq (h : env.Ordered) (h' : env'.Ordered)
    (heq : ∀ key, env.lookup key = env'.lookup key) : env = env' := by
  obtain ⟨vars, calls⟩ := env
  obtain ⟨vars', calls'⟩ := env'
  obtain rfl : vars = vars' := Keyed.eq_of_get?_eq h.vars h'.vars fun x => heq (.var x)
  obtain rfl : calls = calls' := Keyed.eq_of_get?_eq h.calls h'.calls fun i => heq (.call i)
  rfl

end Env
end TypeShape
