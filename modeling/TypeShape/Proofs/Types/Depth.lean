import TypeShape.Proofs.Types.NormalForm

/-!
# How deep types are nested

A type without parts is nested no level deep, any other one level deeper than its parts.  Unions and
intersections that are built add at most one level, and no alias to what they are built from.

Main results:

- Theorem `Ty.nestedBelow_mono`: a bound on the levels can be raised.
- Theorems `Ty.shallow_unionOf` and `Ty.shallow_interOf`: what is built is one level deeper at most,
  and has no aliases if its types have none.
-/

namespace TypeShape
namespace Ty

/-! ## Types without aliases -/

/-- The type is no application of an alias. -/
def notAlias : Ty → Bool
  | named .aliasOf _ _ => false
  | _ => true

/-- No alias is applied anywhere in the type. -/
def AliasFree (t : Ty) : Prop :=
  t.all notAlias = true

instance (t : Ty) : Decidable t.AliasFree :=
  inferInstanceAs (Decidable (_ = true))

/-- Parts of a type without aliases have none. -/
theorem AliasFree.part {t u : Ty} (h : t.AliasFree) (hu : u ∈ t.parts) : u.AliasFree :=
  all_part h hu

/-- A type without aliases is none. -/
theorem AliasFree.notAlias {t : Ty} (h : t.AliasFree) : t.notAlias = true :=
  all_here h

/-- The test for aliases is kept by unions and intersections. -/
theorem stable_notAlias : Stable notAlias :=
  .of_sets rfl rfl rfl (fun _ => rfl) fun _ => rfl

/-! ## Levels -/

/-- The type is nested less than a number of levels deep. -/
def nestedBelow : Nat → Ty → Bool
  | 0, _ => false
  | n + 1, t => t.parts.all (nestedBelow n)

variable {n k : Nat} {t u : Ty} {ts : List Ty}

/-- A type is nested below a depth if its parts are below the next. -/
theorem nestedBelow_succ_iff :
    t.nestedBelow (n + 1) = true ↔ ∀ u ∈ t.parts, u.nestedBelow n = true := by
  rw [nestedBelow, List.all_eq_true]

/-- A type without parts is nested below every depth. -/
theorem nestedBelow_of_parts_eq_nil (h : t.parts = []) (hn : 0 < n) : t.nestedBelow n = true := by
  obtain ⟨n, rfl⟩ : ∃ m, n = m + 1 := ⟨n - 1, by omega⟩
  simp [nestedBelow_succ_iff, h]

/-- Nothing is nested below depth zero. -/
theorem pos_of_nestedBelow (h : t.nestedBelow n = true) : 0 < n := by
  cases n with
  | zero => cases h
  | succ n => exact Nat.succ_pos n

/-- A bound on the levels can be raised. -/
theorem nestedBelow_mono (hnk : n ≤ k) (h : t.nestedBelow n = true) : t.nestedBelow k = true := by
  induction n generalizing k t with
  | zero => cases h
  | succ n ih =>
    obtain ⟨k, rfl⟩ : ∃ m, k = m + 1 := ⟨k - 1, by omega⟩
    rw [nestedBelow_succ_iff] at h ⊢
    exact fun u hu => ih (by omega) (h u hu)

/-- A part is nested less deep than the whole. -/
theorem nestedBelow_part (h : t.nestedBelow n = true) (hu : u ∈ t.parts) :
    u.nestedBelow (n - 1) = true := by
  cases n with
  | zero => cases h
  | succ n => exact nestedBelow_succ_iff.mp h u hu

/-- Parts in a union are nested no deeper. -/
theorem nestedBelow_of_mem_unionParts (h : t.nestedBelow n = true) (hu : u ∈ t.unionParts) :
    u.nestedBelow n = true := by
  rcases mem_unionParts hu with ⟨rfl, -⟩ | ⟨ms, rfl, hu⟩
  · exact h
  · exact nestedBelow_mono (Nat.sub_le n 1) (nestedBelow_part h hu)

/-- Parts in an intersection are nested no deeper. -/
theorem nestedBelow_of_mem_interParts (h : t.nestedBelow n = true) (hu : u ∈ t.interParts) :
    u.nestedBelow n = true := by
  rcases mem_interParts hu with ⟨rfl, -⟩ | ⟨ms, rfl, hu⟩
  · exact h
  · exact nestedBelow_mono (Nat.sub_le n 1) (nestedBelow_part h hu)

/-- A union is nested one deeper than its members. -/
theorem nestedBelow_collapseUnion (h : ∀ t ∈ ts, t.nestedBelow n = true) :
    (collapseUnion ts).nestedBelow (n + 1) = true := by
  rcases collapseUnion_cases ts with ⟨-, hc⟩ | ⟨t, rfl, hc⟩ | ⟨-, hc⟩
  · exact hc ▸ nestedBelow_of_parts_eq_nil rfl (Nat.succ_pos n)
  · exact hc ▸ nestedBelow_mono (Nat.le_succ n) (h t (List.mem_singleton.mpr rfl))
  · exact hc ▸ nestedBelow_succ_iff.mpr h

/-- So is an intersection. -/
theorem nestedBelow_collapseInter (h : ∀ t ∈ ts, t.nestedBelow n = true) :
    (collapseInter ts).nestedBelow (n + 1) = true := by
  rcases collapseInter_cases ts with ⟨-, hc⟩ | ⟨t, rfl, hc⟩ | ⟨-, hc⟩
  · exact hc ▸ nestedBelow_of_parts_eq_nil rfl (Nat.succ_pos n)
  · exact hc ▸ nestedBelow_mono (Nat.le_succ n) (h t (List.mem_singleton.mpr rfl))
  · exact hc ▸ nestedBelow_succ_iff.mpr h

/-- A union is at most one level deeper than the types that it joins. -/
theorem nestedBelow_unionOf (h : ∀ t ∈ ts, t.nestedBelow n = true) :
    (unionOf ts).nestedBelow (n + 1) = true := by
  rw [unionOf_eq]
  split
  · exact nestedBelow_of_parts_eq_nil rfl (Nat.succ_pos n)
  · refine nestedBelow_collapseUnion fun u hu => ?_
    obtain ⟨t, ht, hut⟩ := List.mem_flatMap.mp (mem_of_mem_distinct hu)
    exact nestedBelow_of_mem_unionParts (h t ht) hut

/-- An intersection is at most one level deeper than the types that it meets. -/
theorem nestedBelow_interOf (h : ∀ t ∈ ts, t.nestedBelow n = true) :
    (interOf ts).nestedBelow (n + 1) = true := by
  rw [interOf_eq]
  refine nestedBelow_collapseInter fun u hu => ?_
  obtain ⟨t, ht, hut⟩ := List.mem_flatMap.mp (mem_of_mem_distinct hu)
  exact nestedBelow_of_mem_interParts (h t ht) hut

/-! ## Shallow types -/

/-- The type has no alias and is nested less than a number of levels deep. -/
structure Shallow (n : Nat) (t : Ty) : Prop where
  aliasFree : t.AliasFree
  nested : t.nestedBelow n = true

instance (n : Nat) (t : Ty) : Decidable (t.Shallow n) :=
  decidable_of_iff (t.AliasFree ∧ t.nestedBelow n = true) ⟨fun h => ⟨h.1, h.2⟩, fun h => ⟨h.1, h.2⟩⟩

namespace Shallow

/-- Only a bound above zero is met. -/
theorem exists_succ (h : t.Shallow n) : ∃ k, n = k + 1 :=
  Nat.exists_eq_add_one_of_ne_zero (Nat.ne_of_gt (pos_of_nestedBelow h.nested))

/-- A part of a shallow type is shallower. -/
theorem part (h : t.Shallow (n + 1)) (hu : u ∈ t.parts) : u.Shallow n :=
  ⟨h.aliasFree.part hu, nestedBelow_part h.nested hu⟩

/-- A part in a union is as shallow. -/
theorem of_mem_unionParts (h : t.Shallow n) (hu : u ∈ t.unionParts) : u.Shallow n :=
  ⟨all_of_mem_unionParts hu h.aliasFree, nestedBelow_of_mem_unionParts h.nested hu⟩

/-- So is a part in an intersection. -/
theorem of_mem_interParts (h : t.Shallow n) (hu : u ∈ t.interParts) : u.Shallow n :=
  ⟨all_of_mem_interParts hu h.aliasFree, nestedBelow_of_mem_interParts h.nested hu⟩

end Shallow

/-- A union of shallow types is less shallow by one. -/
theorem shallow_unionOf (h : ∀ t ∈ ts, t.Shallow n) : (unionOf ts).Shallow (n + 1) :=
  ⟨stable_notAlias.unionOf fun t ht => (h t ht).aliasFree,
    nestedBelow_unionOf fun t ht => (h t ht).nested⟩

/-- So is an intersection. -/
theorem shallow_interOf (h : ∀ t ∈ ts, t.Shallow n) : (interOf ts).Shallow (n + 1) :=
  ⟨stable_notAlias.interOf fun t ht => (h t ht).aliasFree,
    nestedBelow_interOf fun t ht => (h t ht).nested⟩

end Ty
end TypeShape
