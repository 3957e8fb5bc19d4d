import TypeShape.Proofs.Declaration.Unfolding
import TypeShape.Proofs.Deepening

/-!
# Types that open

Splits take a type apart through its unions and aliases and look no further: neither into
intersections nor into arguments.  That this ends is a property of one type, and weaker than that no
alias leads back to itself.

Main results:

- Theorem `Table.opensWithin_iff`: whether a type opens within a number of nested aliases can be
  computed.
- Theorem `Table.Opens.opensIn_openingDepth`: if a type opens, it does so within its opening depth.
- Theorem `Table.AcyclicAliases.opens`: every type opens where no alias leads back to itself.
-/

namespace TypeShape
namespace Table

variable {T : Table}

/-- Taking unions apart and unfolding declared aliases ends, with at most so many aliases inside
each other. -/
inductive OpensIn (T : Table) : Nat → Ty → Prop where
  | union {n : Nat} {ms : List Ty} (h : ∀ m ∈ ms, OpensIn T n m) : OpensIn T n (.union ms)
  | expansion {n : Nat} {t e : Ty} (he : T.expansion? t = some e) (h : OpensIn T n e) :
      OpensIn T (n + 1) t
  | leaf {n : Nat} {t : Ty} (hu : ∀ ms, t ≠ .union ms) (he : T.expansion? t = none) :
      OpensIn T n t

/-- Taking unions apart and unfolding declared aliases ends. -/
def Opens (T : Table) (t : Ty) : Prop :=
  ∃ n, OpensIn T n t

namespace OpensIn

theorem mono {n k : Nat} {t : Ty} (h : OpensIn T n t) (hnk : n ≤ k) : OpensIn T k t := by
  induction h generalizing k with
  | union _ ih => exact .union fun m hm => ih m hm hnk
  | expansion he _ ih =>
    obtain ⟨k, rfl⟩ : ∃ k', k = k' + 1 := ⟨k - 1, by omega⟩
    exact .expansion he (ih (by omega))
  | leaf hu he => exact .leaf hu he

theorem member {n : Nat} {ms : List Ty} {m : Ty} (h : OpensIn T n (.union ms)) (hm : m ∈ ms) :
    OpensIn T n m := by
  cases h with
  | union h => exact h m hm
  | expansion he => cases he
  | leaf hu => exact absurd rfl (hu ms)

end OpensIn

/-- A type that unfolds everywhere opens. -/
theorem UnfoldsIn.opensIn {n : Nat} {t : Ty} (h : UnfoldsIn T n t) : OpensIn T n t := by
  induction h with
  | @members n t ht _ ih =>
    cases t with
    | union ms => exact .union ih
    | inter ms => exact .leaf (by simp) rfl
    | _ => cases ht
  | expansion he _ ih => exact .expansion he ih
  | leaf ht he =>
    refine .leaf ?_ he
    rintro ms rfl
    cases ht

theorem AcyclicAliases.opens (hT : T.AcyclicAliases) (t : Ty) : T.Opens t :=
  ⟨_, (unfoldsIn_unfoldDepth hT t).opensIn⟩

/-! ## Opening as a computation -/

theorem opensMembers_eq_all (onAlias : Ty → Bool) (ts : List Ty) :
    opensMembers onAlias ts = ts.all (opensWith onAlias) := by
  induction ts with
  | nil => rfl
  | cons t ts ih => rw [opensMembers, ih, List.all_cons]

theorem opensWithin_union (n : Nat) (ms : List Ty) :
    T.opensWithin n (.union ms) = ms.all (T.opensWithin n) := by
  cases n <;> rw [opensWithin, opensWith, opensMembers_eq_all]

theorem opensWithin_of_expansion {t e : Ty} (he : T.expansion? t = some e) (n : Nat) :
    T.opensWithin (n + 1) t = T.opensWithin n e := by
  obtain ⟨name, args, rfl⟩ := exists_alias_of_expansion? he
  simp only [opensWithin, opensWith, he]

theorem opensWithin_of_leaf {t : Ty} (hu : ∀ ms, t ≠ .union ms) (he : T.expansion? t = none)
    (n : Nat) : T.opensWithin n t = true := by
  cases t with
  | union ms => exact absurd rfl (hu ms)
  | named kind name args =>
    cases kind with
    | aliasOf => cases n <;> simp only [opensWithin, opensWith, he, Option.isNone_none]
    | _ => cases n <;> rfl
  | _ => cases n <;> rfl

theorem opensIn_of_opensWithin {n : Nat} {t : Ty} (h : T.opensWithin n t = true) :
    OpensIn T n t := by
  induction n using Nat.strongRecOn generalizing t with
  | ind n ihn =>
    induction t using Ty.inductionOnParts with
    | step t ih =>
      by_cases hu : ∃ ms, t = .union ms
      · obtain ⟨ms, rfl⟩ := hu
        rw [opensWithin_union] at h
        exact .union fun m hm => ih m hm (List.all_eq_true.mp h m hm)
      · cases he : T.expansion? t with
        | none => exact .leaf (fun ms heq => hu ⟨ms, heq⟩) he
        | some e =>
          obtain ⟨name, args, rfl⟩ := exists_alias_of_expansion? he
          cases n with
          | zero => simp [opensWithin, opensWith, he] at h
          | succ n =>
            rw [opensWithin_of_expansion he] at h
            exact .expansion he (ihn n (Nat.lt_succ_self n) h)

theorem opensWithin_iff {n : Nat} {t : Ty} : T.opensWithin n t = true ↔ OpensIn T n t := by
  refine ⟨opensIn_of_opensWithin, fun h => ?_⟩
  induction h with
  | union _ ih =>
    rw [opensWithin_union]
    exact List.all_eq_true.mpr ih
  | expansion he _ ih =>
    rw [opensWithin_of_expansion he]
    exact ih
  | leaf hu he => exact opensWithin_of_leaf hu he _

instance (n : Nat) (t : Ty) : Decidable (OpensIn T n t) :=
  decidable_of_iff (T.opensWithin n t = true) opensWithin_iff

theorem run_openingSearch_eq_some {t : Ty} {k depth : Nat} :
    (T.openingSearch t).run k = some depth ↔ k = depth ∧ OpensIn T k t := by
  rw [← opensWithin_iff]
  by_cases h : T.opensWithin k t = true
  · simp [openingSearch, h]
  · simp [openingSearch, h]

/-- If a type opens, it does so within its opening depth. -/
theorem Opens.opensIn_openingDepth {t : Ty} (h : T.Opens t) : OpensIn T (T.openingDepth t) t := by
  obtain ⟨n, hn⟩ := h
  have hfound : ∀ k, n ≤ k → ∃ depth, (T.openingSearch t).run k = some depth :=
    fun k hk => ⟨k, run_openingSearch_eq_some.mpr ⟨rfl, hn.mono hk⟩⟩
  obtain ⟨depth, hdepth⟩ := Deepening.exists_answer hfound (T.unfoldDepth t)
  obtain ⟨k, hk⟩ := Deepening.exists_of_answer hdepth
  obtain ⟨rfl, hopen⟩ := run_openingSearch_eq_some.mp hk
  rw [openingDepth, hdepth]
  exact hopen

end Table
end TypeShape
