import Mathlib.Data.Set.Finite.List
import TypeShape.Proofs.Types.Sequence

/-!
# Unions and intersections as monoids

Joining lists of types in normal form is a monoid that does not mind order: a join inside a list can
be opened where it stands, the order of the types matters only for the order of the members, and a
type that comes twice counts once.  Unions have the bottom type for identity and are absorbed by
`untyped`; intersections have the top type for identity and are absorbed by nothing.

Main results:

- Theorems `Ty.unionOf_eq_untyped_iff`, `Ty.unionOf_eq_bot_iff` and `Ty.interOf_eq_top_iff`: when a
  join is one of these types.
- Theorem `Ty.exists_interOf_pair_ne`: no type absorbs all others in an intersection.
- Theorem `Ty.unions_and_intersections_are_monoids`: the laws of both constructions.
-/

namespace TypeShape
namespace Ty

/-! ## Joins that are a bound -/

/-- Only an empty list has no distinct types. -/
theorem distinct_eq_nil_iff {ts : List Ty} : distinct ts = [] ↔ ts = [] := by
  constructor
  · intro h
    rw [List.eq_nil_iff_forall_not_mem]
    intro t ht
    obtain ⟨u, hu, -⟩ := exists_mem_distinct ht
    rw [h] at hu
    cases hu
  · rintro rfl
    rfl

/-- Among types in normal form only the empty type has no parts as a union. -/
theorem Normal.unionParts_eq_nil_iff {t : Ty} (h : t.Normal) : t.unionParts = [] ↔ t = bot := by
  cases t with
  | union ms =>
    have hlen : 2 ≤ ms.length := (normalHere_union.mp (all_here h)).1
    refine iff_of_false (fun hms : ms = [] => ?_) (by simp)
    rw [hms] at hlen
    simp at hlen
  | _ => simp [unionParts]

/-- And only the top type has none as an intersection. -/
theorem Normal.interParts_eq_nil_iff {t : Ty} (h : t.Normal) : t.interParts = [] ↔ t = top := by
  cases t with
  | inter ms =>
    have hlen : 2 ≤ ms.length := (normalHere_inter.mp (all_here h)).1
    refine iff_of_false (fun hms : ms = [] => ?_) (by simp)
    rw [hms] at hlen
    simp at hlen
  | _ => simp [interParts]

section Bounds

variable {ts : List Ty} (hts : ∀ t ∈ ts, t.Normal)

include hts

/-- A union is absorbed exactly if one of its types is `untyped`. -/
theorem unionOf_eq_untyped_iff : unionOf ts = untyped ↔ untyped ∈ ts := by
  refine ⟨fun h => ?_, unionOf_of_mem_untyped⟩
  by_contra hun
  have hparts : untyped ∈ (unionOf ts).unionParts := by rw [h]; exact List.mem_cons_self
  rw [unionParts_unionOf hts hun] at hparts
  cases isUnionMember_of_mem_distinct hts hun hparts

/-- A union is empty exactly if all its types are. -/
theorem unionOf_eq_bot_iff : unionOf ts = bot ↔ ∀ t ∈ ts, t = bot := by
  refine ⟨fun h => ?_, unionOf_eq_bot⟩
  have hun : untyped ∉ ts := by
    intro hmem
    rw [unionOf_of_mem_untyped hmem] at h
    cases h
  have hparts := unionParts_unionOf hts hun
  rw [(normal_unionOf hts).unionParts_eq_nil_iff.mpr h, eq_comm, distinct_eq_nil_iff,
    List.flatMap_eq_nil_iff] at hparts
  exact fun t ht => (hts t ht).unionParts_eq_nil_iff.mp (hparts t ht)

/-- An intersection asks for nothing exactly if none of its types does. -/
theorem interOf_eq_top_iff : interOf ts = top ↔ ∀ t ∈ ts, t = top := by
  rw [← (normal_interOf hts).interParts_eq_nil_iff, interParts_interOf hts, distinct_eq_nil_iff,
    List.flatMap_eq_nil_iff]
  exact forall₂_congr fun t ht => (hts t ht).interParts_eq_nil_iff

end Bounds

/-- No type absorbs all others: with a literal that it does not ask for, an intersection is another
type. -/
theorem exists_interOf_pair_ne {a : Ty} (ha : a.Normal) :
    ∃ b : Ty, b.Normal ∧ (interOf [a, b] == a) = false := by
  -- Texts are infinitely many, and the type has finitely many members.
  have hinj : Function.Injective fun cs : List Char => literal (.string (String.ofList cs)) :=
    fun _ _ h => String.ofList_injective (Literal.string.inj (literal.inj h))
  obtain ⟨_, ⟨cs, rfl⟩, hnew⟩ := (Set.infinite_range_of_injective hinj).exists_notMem_finite
    (List.finite_toSet a.interParts)
  let text := literal (.string (String.ofList cs))
  refine ⟨text, rfl, Bool.eq_false_iff.mpr fun hbeq => hnew ?_⟩
  have hboth : ∀ t ∈ [a, text], t.Normal := by simpa using ⟨ha, rfl⟩
  have hmem : text ∈ [a, text].flatMap interParts := by simp [text, interParts]
  obtain ⟨u, hu, hlit⟩ := exists_mem_distinct hmem
  obtain rfl : u = text := eq_of_head_of_isAtom rfl (head_eq_of_beq hlit)
  rw [← interParts_interOf hboth] at hu
  obtain ⟨v, hv, huv⟩ := covered_interParts hbeq _ hu
  obtain rfl : v = text := eq_of_head_of_isAtom rfl (head_eq_of_beq huv).symm
  exact hv

/-! ## The laws -/

/-- A way to join lists of types in normal form that is a monoid with a given identity, in which
order and repetition do not count.  Opening a nested join and leaving out what comes twice keep even
the order of the members. -/
structure IsMonoid (join : List Ty → Ty) (identity : Ty) : Prop where
  singleton : ∀ t : Ty, t.Normal → join [t] = t
  nested : ∀ xs ys zs : List Ty, (∀ t ∈ xs ++ ys ++ zs, t.Normal) →
    join (xs ++ [join ys] ++ zs) = join (xs ++ ys ++ zs)
  perm : ∀ xs ys : List Ty, (∀ t ∈ xs, t.Normal) → ys.Perm xs → (join ys == join xs) = true
  twice : ∀ xs : List Ty, (∀ t ∈ xs, t.Normal) → join (xs ++ xs) = join xs
  eq_identity_iff : ∀ xs : List Ty, (∀ t ∈ xs, t.Normal) →
    (join xs = identity ↔ ∀ t ∈ xs, t = identity)

/-- A join that opens what it has joined before, and joins to the identity only what is the
identity, is a monoid. -/
theorem Flattens.isMonoid {join : List Ty → Ty} {parts : Ty → List Ty} {identity : Ty}
    (hflat : Flattens join parts) (hjoin : IsJoin join)
    (hidentity : ∀ {xs : List Ty}, (∀ t ∈ xs, t.Normal) →
      (join xs = identity ↔ ∀ t ∈ xs, t = identity)) : IsMonoid join identity where
  singleton _ ht := hjoin.singleton ht
  nested xs ys zs h := by
    have hys : ∀ t ∈ ys, t.Normal := fun t ht => h t (by simp [ht])
    rw [List.append_assoc, List.singleton_append]
    exact hflat.nested xs zs hys
  perm xs ys hxs hperm := by
    have hsame : ∀ {ts us : List Ty}, (∀ t ∈ ts, t ∈ us) → Covered ts us := fun h t ht =>
      ⟨t, h t ht, beq_refl t⟩
    exact hjoin.congr (fun t ht => (hxs t (hperm.subset ht)).wellFormed)
      (fun t ht => (hxs t ht).wellFormed) (hsame fun t ht => hperm.subset ht)
      (hsame fun t ht => hperm.symm.subset ht)
  twice xs _ := hflat.congr (by rw [List.flatMap_append, distinct_append_self])
  eq_identity_iff _ hxs := hidentity hxs

/-- Unions and intersections of types in normal form are monoids that do not mind order.  A union
is `untyped` exactly if one of its types is, and the bottom type exactly if all are; an intersection
is the top type exactly if all its types are, and no type absorbs the others. -/
theorem unions_and_intersections_are_monoids :
    IsMonoid unionOf bot ∧
    (∀ xs : List Ty, (∀ t ∈ xs, t.Normal) → (unionOf xs = untyped ↔ untyped ∈ xs)) ∧
    IsMonoid interOf top ∧
    ∀ a : Ty, a.Normal → ∃ b : Ty, b.Normal ∧ (interOf [a, b] == a) = false :=
  ⟨flattens_unionOf.isMonoid isJoin_unionOf unionOf_eq_bot_iff,
    fun _ hxs => unionOf_eq_untyped_iff hxs,
    flattens_interOf.isMonoid isJoin_interOf interOf_eq_top_iff,
    fun _ ha => exists_interOf_pair_ne ha⟩

/-- Two unions of `nil` and an array that are written in different orders, one inside the other
list, next to a type that adds nothing. -/
theorem monoid_laws_of_arrays :
    let xs : List Ty := [.union [.named .instanceOf .array [.var "T"], .nil]]
    let ys : List Ty := [.bot, .union [.nil, .named .instanceOf .array [.var "T"]], .bool]
    unionOf (xs ++ [unionOf ys] ++ [.top]) = unionOf (xs ++ ys ++ [.top]) ∧
      (unionOf ys.reverse == unionOf ys) = true ∧ unionOf (ys ++ ys) = unionOf ys ∧
      unionOf ys ≠ .untyped ∧ unionOf ys ≠ .bot ∧
      interOf (xs ++ [interOf ys] ++ [.top]) = interOf (xs ++ ys ++ [.top]) ∧
      interOf ys ≠ .top ∧ ∃ b : Ty, b.Normal ∧ (interOf [interOf ys, b] == interOf ys) = false := by
  intro xs ys
  obtain ⟨hunion, habsorbed, hinter, hfree⟩ := unions_and_intersections_are_monoids
  have hys : ∀ t ∈ ys, t.Normal := by decide
  refine ⟨hunion.nested xs ys [.top] (by decide), hunion.perm ys _ hys (List.reverse_perm ys),
    hunion.twice ys hys, fun h => ?_, fun h => ?_, hinter.nested xs ys [.top] (by decide),
    fun h => ?_, hfree _ (by decide)⟩
  · simpa [ys] using (habsorbed ys hys).mp h
  · simpa [ys] using (hunion.eq_identity_iff ys hys).mp h
  · simpa [ys] using (hinter.eq_identity_iff ys hys).mp h

end Ty
end TypeShape
