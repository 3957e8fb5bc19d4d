import TypeShape.Proofs.Declaration.Opening
import TypeShape.Split.Part

/-!
# Parts below an ancestor

The part of a type below an ancestor is found from head to head: a union behind the aliases of a
type is taken apart, and its members are looked at in the same way.  Where this ends, the depth to
which it is followed does not show.

Main results:

- Theorems `Table.belowPart_of_union` and `Table.belowPart_of_head`: how the part is found.
- Theorem `Table.Opens.headsEnd`: going from head to head ends for every type that opens.
-/

namespace TypeShape
namespace Table

variable {T : Table}

/-- Going from heads to the members of their unions ends. -/
def HeadsEnd (T : Table) (t : Ty) : Prop :=
  ∃ n, T.headsWithin n t = true

/-! ## Where the depth does not matter -/

/-- With a union for a head, going on ends exactly if it does for all members. -/
theorem headsWithin_of_union {t : Ty} {ms : List Ty} (h : T.unfoldHead t = .union ms) (n : Nat) :
    T.headsWithin (n + 1) t = true ↔ ∀ m ∈ ms, T.headsWithin n m = true := by
  simp [headsWithin, h]

/-- With any other head it ends at once. -/
theorem headsWithin_of_head {t : Ty} (h : ∀ ms, T.unfoldHead t ≠ .union ms) (n : Nat) :
    T.headsWithin (n + 1) t = true := by
  unfold headsWithin
  split
  · exact absurd ‹_› (h _)
  · rfl

/-- Any head but a union is kept if it is below the ancestor, and narrows to the ancestor if it is
above it. -/
theorem belowPartWithin_of_head {t : Ty} (h : ∀ ms, T.unfoldHead t ≠ .union ms) (ancestor : Ty)
    (n : Nat) :
    T.belowPartWithin ancestor (n + 1) t =
      if T.isSubtype (T.unfoldHead t) ancestor then T.unfoldHead t
      else if T.isSubtype ancestor (T.unfoldHead t) then ancestor
      else .bot := by
  rw [belowPartWithin]
  split
  · exact absurd ‹_› (h _)
  · rfl

/-- A depth that is enough stays enough when it is raised. -/
theorem headsWithin_mono {t : Ty} {n k : Nat} (h : T.headsWithin n t = true) (hnk : n ≤ k) :
    T.headsWithin k t = true := by
  induction n generalizing k t with
  | zero => simp [headsWithin] at h
  | succ n ih =>
    obtain ⟨k, rfl⟩ : ∃ k', k = k' + 1 := ⟨k - 1, by omega⟩
    by_cases hu : ∃ ms, T.unfoldHead t = .union ms
    · obtain ⟨ms, hms⟩ := hu
      rw [headsWithin_of_union hms] at h ⊢
      exact fun m hm => ih (h m hm) (by omega)
    · exact headsWithin_of_head (fun ms hms => hu ⟨ms, hms⟩) k

/-- A depth that is enough gives the part that any greater one does. -/
theorem belowPartWithin_eq_of_le {ancestor t : Ty} {n k : Nat} (h : T.headsWithin n t = true)
    (hnk : n ≤ k) : T.belowPartWithin ancestor k t = T.belowPartWithin ancestor n t := by
  induction n generalizing k t with
  | zero => simp [headsWithin] at h
  | succ n ih =>
    obtain ⟨k, rfl⟩ : ∃ k', k = k' + 1 := ⟨k - 1, by omega⟩
    by_cases hu : ∃ ms, T.unfoldHead t = .union ms
    · obtain ⟨ms, hms⟩ := hu
      rw [headsWithin_of_union hms] at h
      simp only [belowPartWithin, hms]
      rw [List.map_congr_left fun m hm => ih (h m hm) (show n ≤ k by omega)]
    · have hhead : ∀ ms, T.unfoldHead t ≠ .union ms := fun ms hms => hu ⟨ms, hms⟩
      rw [belowPartWithin_of_head hhead, belowPartWithin_of_head hhead]

/-- A depth at which the search for one stops is that depth, and enough. -/
theorem run_headSearch_eq_some {t : Ty} {k depth : Nat} :
    (T.headSearch t).run k = some depth ↔ k = depth ∧ T.headsWithin k t = true := by
  by_cases h : T.headsWithin k t = true
  · simp [headSearch, h]
  · simp [headSearch, h]

/-- Where going from head to head ends, it does so within the depth that is searched for. -/
theorem HeadsEnd.headsWithin_headDepth {t : Ty} (h : T.HeadsEnd t) :
    T.headsWithin (T.headDepth t) t = true := by
  obtain ⟨n, hn⟩ := h
  have hfound : ∀ k, n ≤ k → ∃ depth, (T.headSearch t).run k = some depth := fun k hk =>
    ⟨k, run_headSearch_eq_some.mpr ⟨rfl, headsWithin_mono hn hk⟩⟩
  obtain ⟨depth, hdepth⟩ := Deepening.exists_answer hfound (T.unfoldDepth t)
  obtain ⟨k, hk⟩ := Deepening.exists_of_answer hdepth
  obtain ⟨rfl, hends⟩ := run_headSearch_eq_some.mp hk
  rw [headDepth, hdepth]
  exact hends

/-- Any depth that is enough gives the part of the type. -/
theorem belowPart_eq {t : Ty} {n : Nat} (h : T.headsWithin n t = true) (ancestor : Ty) :
    T.belowPart t ancestor = T.belowPartWithin ancestor n t := by
  have hdepth := HeadsEnd.headsWithin_headDepth ⟨n, h⟩
  calc T.belowPart t ancestor
      = T.belowPartWithin ancestor (max (T.headDepth t) n) t :=
        (belowPartWithin_eq_of_le hdepth (Nat.le_max_left _ n)).symm
    _ = T.belowPartWithin ancestor n t :=
        belowPartWithin_eq_of_le h (Nat.le_max_right _ n)

/-! ## From head to head -/

/-- A union behind the aliases of a type is narrowed member by member. -/
theorem belowPart_of_union {t : Ty} {ms : List Ty} (hends : T.HeadsEnd t)
    (h : T.unfoldHead t = .union ms) (ancestor : Ty) :
    T.belowPart t ancestor = Ty.unionOf (ms.map fun m => T.belowPart m ancestor) := by
  obtain ⟨n | n, hn⟩ := hends
  · simp [headsWithin] at hn
  · have hmembers := (headsWithin_of_union h n).mp hn
    rw [belowPart_eq hn]
    simp only [belowPartWithin, h]
    rw [List.map_congr_left fun m hm => (belowPart_eq (hmembers m hm) ancestor).symm]

/-- Any other head is compared with the ancestor as it stands. -/
theorem belowPart_of_head {t : Ty} (h : ∀ ms, T.unfoldHead t ≠ .union ms) (ancestor : Ty) :
    T.belowPart t ancestor =
      if T.isSubtype (T.unfoldHead t) ancestor then T.unfoldHead t
      else if T.isSubtype ancestor (T.unfoldHead t) then ancestor
      else .bot := by
  rw [belowPart_eq (headsWithin_of_head h 0), belowPartWithin_of_head h]

/-! ## Types that open -/

/-- Where going on from the members of the head ends, so does going on from the type. -/
theorem HeadsEnd.of_members {t : Ty}
    (h : ∀ ms, T.unfoldHead t = .union ms → ∀ m ∈ ms, T.HeadsEnd m) : T.HeadsEnd t := by
  by_cases hu : ∃ ms, T.unfoldHead t = .union ms
  · obtain ⟨ms, hms⟩ := hu
    obtain ⟨n, hn⟩ : ∃ n, ∀ m ∈ ms, T.headsWithin n m = true :=
      Deepening.exists_common_depth (fun hnk hm => headsWithin_mono hm hnk) (h ms hms)
    exact ⟨n + 1, (headsWithin_of_union hms n).mpr hn⟩
  · exact ⟨1, headsWithin_of_head (fun ms hms => hu ⟨ms, hms⟩) 0⟩

/-- Going from head to head ends for every type that opens. -/
theorem Opens.headsEnd {t : Ty} (h : T.Opens t) : T.HeadsEnd t := by
  obtain ⟨n, hn⟩ := h
  -- A head is behind a bounded number of aliases, so the induction is over any number of them.
  suffices hmembers : ∀ k ms, T.unfoldTimes k t = .union ms → ∀ m ∈ ms, T.HeadsEnd m from
    .of_members (hmembers 32)
  induction hn with
  | union _ ih =>
    intro k ms hms m hm
    have hself : ∀ ms', T.unfoldTimes k (.union ms') = .union ms' := by
      intro ms'
      cases k <;> rfl
    obtain rfl := Ty.union.inj ((hself _).symm.trans hms)
    exact .of_members (ih m hm 32)
  | expansion he _ ih =>
    intro k ms hms
    cases k with
    | zero =>
      obtain rfl : _ = Ty.union ms := hms
      cases he
    | succ k =>
      rw [unfoldTimes, he] at hms
      exact ih k ms hms
  | @leaf _ u hu he =>
    intro k ms hms
    have hself : T.unfoldTimes k u = u := by cases k <;> simp only [unfoldTimes, he]
    exact absurd (hself.symm.trans hms) (hu ms)

end Table
end TypeShape
