import Mathlib.Data.List.Induction
import TypeShape.Proofs.Types.Flattening

/-!
# Nested unions

A union inside a list of types can be replaced by what it is the union of, and the result stays the
same to the order of its members.  Full normal form is not needed for that, only that no union has a
single member, or several that repeat each other: what such a union collapses to would be opened
once more than its neighbours.

Main results:

- Theorem `Ty.distinct_append_distinct`: dropping repeated types early changes nothing.
- Theorem `Ty.unionOf_nested`: a nested union is opened.
- Theorem `Ty.unionOf_pair_self`: a type adds nothing to itself.
- Theorem `Ty.MadeOf.unionOf`: a union of types made of parts with a property is made of such parts.
-/

namespace TypeShape
namespace Ty

/-! ## Repeated types -/

/-- Where equal types are one type, no type is left out. -/
theorem mem_distinct_iff {ts : List Ty} {t : Ty}
    (h : ∀ a ∈ ts, ∀ b ∈ ts, (a == b) = true → a = b) : t ∈ distinct ts ↔ t ∈ ts := by
  refine ⟨mem_of_mem_distinct, fun ht => ?_⟩
  obtain ⟨u, hu, hbeq⟩ := exists_mem_distinct ht
  exact h u (mem_of_mem_distinct hu) t ht hbeq ▸ hu

/-- Types that are all there already are not added again. -/
theorem foldl_pushNew_eq_self {ms ts : List Ty} (h : ∀ t ∈ ts, ∃ m ∈ ms, (m == t) = true) :
    ts.foldl pushNew ms = ms := by
  induction ts with
  | nil => rfl
  | cons t ts ih =>
    rw [List.foldl_cons, pushNew_of_any (List.any_eq_true.mpr (h t List.mem_cons_self))]
    exact ih fun u hu => h u (List.mem_cons_of_mem t hu)

/-- A list that is appended to itself has no more distinct types. -/
theorem distinct_append_self (ts : List Ty) : distinct (ts ++ ts) = distinct ts := by
  have hkept : ts.foldl pushNew (distinct ts) = distinct ts :=
    foldl_pushNew_eq_self fun _ ht => exists_mem_distinct ht
  rwa [distinct, List.foldl_append]

/-- Repeated types may be dropped from the front of a list first. -/
theorem distinct_distinct_append (ts us : List Ty) :
    distinct (distinct ts ++ us) = distinct (ts ++ us) := by
  unfold distinct
  rw [List.foldl_append, List.foldl_append]
  exact congrArg (us.foldl pushNew) (distinct_eq_self (pairwise_distinct ts))

/-- Equality is transitive on all types, also on those with repeated members, where it is not
symmetric. -/
theorem beq_of_beq_of_beq {t u v : Ty} (h : (t == u) = true) (h' : (u == v) = true) :
    (t == v) = true := by
  induction t using inductionOnParts generalizing u v with
  | step t ih =>
    have hhead := head_eq_of_beq h
    have hset := isSet_eq_of_head_eq hhead
    cases hs : t.isSet with
    | false =>
      obtain ⟨-, hf⟩ := (beq_iff_of_not_isSet hs).mp h
      obtain ⟨hhead', hf'⟩ := (beq_iff_of_not_isSet (hset ▸ hs)).mp h'
      rw [beq_iff_of_not_isSet hs]
      refine ⟨hhead.trans hhead', ?_⟩
      rw [List.forall₂_iff_get] at hf hf' ⊢
      refine ⟨hf.1.trans hf'.1, fun i hi hi'' => ?_⟩
      have hi' : i < u.parts.length := hf.1 ▸ hi
      exact ih _ (List.get_mem t.parts ⟨i, hi⟩) (hf.2 i hi hi') (hf'.2 i hi' hi'')
    | true =>
      obtain ⟨-, hlen, htotal⟩ := (beq_iff_of_isSet hs).mp h
      obtain ⟨hhead', hlen', htotal'⟩ := (beq_iff_of_isSet (hset ▸ hs)).mp h'
      rw [beq_iff_of_isSet hs]
      refine ⟨hhead.trans hhead', hlen.trans hlen', fun a ha => ?_⟩
      obtain ⟨b, hb, hab⟩ := htotal a ha
      obtain ⟨c, hc, hbc⟩ := htotal' b hb
      exact ⟨c, hc, ih a ha hab hbc⟩

/-- Dropping repeated types early changes nothing. -/
theorem foldl_pushNew_distinct (ms ts : List Ty) :
    (distinct ts).foldl pushNew ms = ts.foldl pushNew ms := by
  -- The types are added from the left, so the induction takes the last one away.
  induction ts using List.reverseRecOn with
  | nil => rfl
  | append_singleton ts t ih =>
    have hlast : distinct (ts ++ [t]) = pushNew (distinct ts) t := by
      simp [distinct, List.foldl_append]
    rw [List.foldl_append, ← ih, hlast]
    cases hany : (distinct ts).any (· == t) with
    | false =>
      rw [pushNew_of_not_any hany, List.foldl_append]
    | true =>
      obtain ⟨u, hu, hut⟩ := List.any_eq_true.mp hany
      obtain ⟨v, hv, hvu⟩ : ∃ v ∈ (distinct ts).foldl pushNew ms, (v == u) = true :=
        exists_mem_foldl_pushNew hu
      have hvt : (v == t) = true := beq_of_beq_of_beq hvu hut
      rw [pushNew_of_any hany, List.foldl_cons, List.foldl_nil,
        pushNew_of_any (List.any_eq_true.mpr ⟨v, hv, hvt⟩)]

/-- And from its back. -/
theorem distinct_append_distinct (ts us : List Ty) :
    distinct (ts ++ distinct us) = distinct (ts ++ us) := by
  unfold distinct
  rw [List.foldl_append, List.foldl_append]
  exact foldl_pushNew_distinct _ us

/-- The first type is kept. -/
theorem eq_of_distinct_cons_eq_singleton {t m : Ty} {ts : List Ty} (h : distinct (t :: ts) = [m]) :
    m = t := by
  have hmem : t ∈ ts.foldl pushNew [t] := mem_foldl_pushNew_of_mem List.mem_cons_self
  rw [show ts.foldl pushNew [t] = [m] from h] at hmem
  exact (List.mem_singleton.mp hmem).symm

/-! ## Unions without single members -/

/-- A type that is no union of fewer than two members, or of members that repeat each other. -/
def Steady (t : Ty) : Prop :=
  ∀ ms, t = union ms → 2 ≤ ms.length ∧ ms.Pairwise fun a b => (a == b) = false

/-- A type in normal form is steady. -/
theorem Normal.steady {t : Ty} (h : t.Normal) : t.Steady := by
  rintro ms rfl
  exact ⟨(normalHere_union.mp (all_here h)).1, h.wellFormed.pairwise rfl⟩

/-- Equal members of a type in normal form are one member. -/
theorem Normal.eq_of_beq_of_mem {t a b : Ty} (h : t.Normal) (ha : a ∈ t.unionParts)
    (hb : b ∈ t.unionParts) (hbeq : (a == b) = true) : a = b := by
  cases t with
  | union ms =>
    have hpair := (normalHere_union.mp (all_here h)).2.1
    have hwf : ∀ m ∈ ms, m.WellFormed := fun m hm => h.wellFormed.part hm
    have hone : ms.Pairwise fun a b => (a == b) = true → a = b := by
      refine hpair.imp fun hne hbeq => ?_
      rw [hne] at hbeq
      cases hbeq
    have hother : ms.Pairwise fun a b => (b == a) = true → b = a := by
      refine hpair.imp_of_mem fun ha hb hne hbeq => ?_
      rw [beq_symm (hwf _ hb) (hwf _ ha) hbeq] at hne
      cases hne
    exact hone.forall_of_forall_of_flip (fun _ _ _ => rfl) hother ha hb hbeq
  | bot => cases ha
  | _ => rw [List.mem_singleton.mp ha, List.mem_singleton.mp hb]

/-- A type that is no union is steady. -/
theorem Steady.of_not_union {t : Ty} (h : ∀ ms, t ≠ union ms) : t.Steady :=
  fun ms heq => absurd heq (h ms)

/-- A union is known from the distinct members that its types contribute. -/
theorem unionOf_congr {ts us : List Ty}
    (h : distinct (ts.flatMap unionParts) = distinct (us.flatMap unionParts)) :
    unionOf ts = unionOf us := by
  rw [unionOf_eq ts, unionOf_eq us, h]

/-- A union with an untyped part is untyped. -/
theorem unionOf_eq_untyped {ts : List Ty} (h : untyped ∈ ts.flatMap unionParts) :
    unionOf ts = untyped := by
  obtain ⟨u, hu, hbeq⟩ := exists_mem_distinct h
  have hany : (distinct (ts.flatMap unionParts)).any isUntyped = true :=
    List.any_eq_true.mpr ⟨u, hu, isUntyped_iff.mpr (eq_untyped_of_head (head_eq_of_beq hbeq))⟩
  rw [unionOf_eq, if_pos hany]

/-- A union without untyped parts collapses to its distinct parts. -/
theorem unionOf_eq_collapse {ts : List Ty} (h : untyped ∉ ts.flatMap unionParts) :
    unionOf ts = collapseUnion (distinct (ts.flatMap unionParts)) := by
  rw [unionOf_eq, if_neg]
  intro hany
  obtain ⟨u, hu, hunt⟩ := List.any_eq_true.mp hany
  exact h (isUntyped_iff.mp hunt ▸ mem_of_mem_distinct hu)

/-- A union of empty types is empty. -/
theorem unionOf_eq_bot {ts : List Ty} (h : ∀ t ∈ ts, t = bot) : unionOf ts = bot := by
  have hparts : ts.flatMap unionParts = [] := by
    rw [List.flatMap_eq_nil_iff]
    intro t ht
    rw [h t ht]
    rfl
  rw [unionOf_eq, hparts]
  rfl

/-- A union of types is steady unless a single member is left over that is a union itself. -/
theorem steady_unionOf_of {ts : List Ty}
    (h : ∀ m, distinct (ts.flatMap unionParts) = [m] → ∀ ms, m ≠ union ms) :
    (unionOf ts).Steady := by
  intro ms heq
  by_cases hun : untyped ∈ ts.flatMap unionParts
  · rw [unionOf_eq_untyped hun] at heq
    cases heq
  · rw [unionOf_eq_collapse hun] at heq
    rcases collapseUnion_cases (distinct (ts.flatMap unionParts)) with
      ⟨-, hc⟩ | ⟨m, hd, hc⟩ | ⟨hlen, hc⟩
    · rw [hc] at heq
      cases heq
    · exact absurd (hc.symm.trans heq) (h m hd ms)
    · obtain rfl := union.inj (hc.symm.trans heq)
      exact ⟨hlen, pairwise_distinct _⟩

/-- A single member that is left over from steady types is no union. -/
theorem Steady.ne_of_distinct_eq_singleton {ts : List Ty} (hts : ∀ t ∈ ts, t.Steady) {m : Ty}
    (h : distinct (ts.flatMap unionParts) = [m]) : (∀ ms, m ≠ union ms) ∧ m ≠ bot := by
  -- The member comes from the first type that contributes any.
  induction ts with
  | nil => cases h
  | cons t ts ih =>
    obtain ⟨ht, hrest⟩ := List.forall_mem_cons.mp hts
    rw [List.flatMap_cons] at h
    cases t with
    | bot => exact ih hrest h
    | union ms =>
      obtain ⟨htwo, hpairwise⟩ := ht ms rfl
      rcases ms with _ | ⟨a, _ | ⟨b, ms⟩⟩
      · simp at htwo
      · simp at htwo
      · obtain rfl : m = a := eq_of_distinct_cons_eq_singleton h
        have hb : b ∈ (union (m :: b :: ms)).unionParts ++ ts.flatMap unionParts := by
          simp [unionParts]
        obtain ⟨u, hu, hub⟩ := exists_mem_distinct hb
        rw [h] at hu
        rw [List.mem_singleton.mp hu, (List.pairwise_cons.mp hpairwise).1 b (by simp)] at hub
        cases hub
    | _ =>
      obtain rfl := eq_of_distinct_cons_eq_singleton h
      simp

section Steady

variable {ts : List Ty} (hts : ∀ t ∈ ts, t.Steady)

include hts

/-- The parts of a union of steady types are their distinct parts. -/
theorem Steady.unionParts_unionOf (hun : untyped ∉ ts.flatMap unionParts) :
    (Ty.unionOf ts).unionParts = distinct (ts.flatMap unionParts) := by
  rw [unionOf_eq_collapse hun]
  rcases collapseUnion_cases (distinct (ts.flatMap unionParts)) with
    ⟨hd, hc⟩ | ⟨m, hd, hc⟩ | ⟨-, hc⟩
  · rw [hc, hd]
    rfl
  · obtain ⟨hm, hbot⟩ := Steady.ne_of_distinct_eq_singleton hts hd
    rw [hc, hd, unionParts_eq_of_ne hm hbot]
  · rw [hc]
    rfl

/-- A union of steady types is steady. -/
theorem Steady.unionOf : (Ty.unionOf ts).Steady :=
  steady_unionOf_of fun _ hd => (Steady.ne_of_distinct_eq_singleton hts hd).1

end Steady

/-! ## Nested unions -/

/-- A union inside a list of types can be replaced by what it is the union of. -/
theorem unionOf_nested (xs : List Ty) {ys : List Ty} (zs : List Ty) (hys : ∀ t ∈ ys, t.Steady) :
    unionOf (xs ++ unionOf ys :: zs) = unionOf (xs ++ ys ++ zs) := by
  by_cases hun : untyped ∈ (xs ++ ys ++ zs).flatMap unionParts
  · rw [unionOf_eq_untyped hun]
    refine unionOf_eq_untyped ?_
    simp only [List.flatMap_append, List.mem_append, List.flatMap_cons] at hun ⊢
    rcases hun with (hun | hun) | hun
    · exact Or.inl hun
    · rw [unionOf_eq_untyped hun]
      simp [unionParts]
    · exact Or.inr (Or.inr hun)
  · have hyun : untyped ∉ ys.flatMap unionParts := fun h => hun (by simp [h])
    refine unionOf_congr ?_
    rw [List.flatMap_append, List.flatMap_cons, Steady.unionParts_unionOf hys hyun,
      ← List.append_assoc, ← distinct_distinct_append, distinct_append_distinct,
      distinct_distinct_append, List.flatMap_append, List.flatMap_append]

/-- The union of two unions is the union of all that they join. -/
theorem unionOf_pair_unionOf {ts us : List Ty} (hts : ∀ t ∈ ts, t.Steady)
    (hus : ∀ t ∈ us, t.Steady) : unionOf [unionOf ts, unionOf us] = unionOf (ts ++ us) := by
  have hleft : unionOf [unionOf ts, unionOf us] = unionOf (ts ++ [unionOf us]) :=
    unionOf_nested [] [unionOf us] hts
  rw [hleft, unionOf_nested ts [] hus, List.append_nil]

/-- It does not matter how three types are joined. -/
theorem unionOf_pair_assoc {t u v : Ty} (ht : t.Steady) (hu : u.Steady) (hv : v.Steady) :
    unionOf [unionOf [t, u], v] = unionOf [t, unionOf [u, v]] := by
  have hleft : unionOf [unionOf [t, u], v] = unionOf [t, u, v] :=
    unionOf_nested [] [v] (by simp [ht, hu])
  have hright : unionOf [t, unionOf [u, v]] = unionOf [t, u, v] :=
    unionOf_nested [t] [] (by simp [hu, hv])
  rw [hleft, hright]

/-- A type or `nil` is steady, whatever the type. -/
theorem steady_optional (t : Ty) : t.optional.Steady := by
  refine steady_unionOf_of fun m hd ms heq => ?_
  have hnil : nil ∈ [t, nil].flatMap unionParts := by simp [unionParts]
  obtain ⟨u, hu, hbeq⟩ := exists_mem_distinct hnil
  rw [hd, List.mem_singleton] at hu
  subst hu heq
  cases head_eq_of_beq hbeq

/-- A type adds nothing to itself. -/
theorem unionOf_pair_self {t : Ty} (h : t.Normal) : unionOf [t, t] = t := by
  have hpair : unionOf [t, t] = unionOf [t] :=
    unionOf_congr (by simpa using distinct_append_self t.unionParts)
  rw [hpair, unionOf_singleton h]

/-! ## Types made of parts -/

/-- The type is the union of its parts, none of which is a union itself, and the parts have a
property. -/
structure MadeOf (P : Ty → Prop) (t : Ty) : Prop where
  joined : Ty.unionOf t.unionParts = t
  part : ∀ p ∈ t.unionParts, (∀ ms, p ≠ .union ms) ∧ p ≠ .bot ∧ P p

namespace MadeOf

variable {P : Ty → Prop}

/-- The empty type is made of no parts. -/
theorem bot : MadeOf P .bot :=
  ⟨rfl, by simp [unionParts]⟩

/-- A type with the property that is no union is made of itself. -/
theorem of_part {t : Ty} (hu : ∀ ms, t ≠ .union ms) (h : P t) : MadeOf P t := by
  by_cases hb : t = .bot
  · exact hb ▸ bot
  · have hself : t.unionParts = [t] := unionParts_eq_of_ne hu hb
    refine ⟨?_, by simpa [hself] using ⟨hu, hb, h⟩⟩
    have hflat : [t].flatMap unionParts = [t] := by simp [hself]
    rw [hself, unionOf_eq, hflat]
    cases t with
    | union ms => exact absurd rfl (hu ms)
    | _ => rfl

/-- A type made of parts with a property is made of parts with every weaker one. -/
theorem mono {Q : Ty → Prop} {t : Ty} (h : MadeOf P t) (hPQ : ∀ p ∈ t.unionParts, P p → Q p) :
    MadeOf Q t where
  joined := h.joined
  part p hp := by
    obtain ⟨hu, hb, hP⟩ := h.part p hp
    exact ⟨hu, hb, hPQ p hp hP⟩

/-- A type made of parts is the bottom type, a part, or a union of parts. -/
theorem cases {t : Ty} (h : MadeOf P t) :
    t = .bot ∨ ((∀ ms, t ≠ .union ms) ∧ P t) ∨
      ∃ ms, t = .union ms ∧ Ty.unionOf ms = t ∧ ∀ m ∈ ms, P m := by
  by_cases hu : ∃ ms, t = .union ms
  · obtain ⟨ms, rfl⟩ := hu
    exact Or.inr (Or.inr ⟨ms, rfl, h.joined, fun m hm => (h.part m hm).2.2⟩)
  · have hu' : ∀ ms, t ≠ .union ms := fun ms heq => hu ⟨ms, heq⟩
    by_cases hb : t = .bot
    · exact Or.inl hb
    · refine Or.inr (Or.inl ⟨hu', (h.part t ?_).2.2⟩)
      simp [unionParts_eq_of_ne hu' hb]

/-- A union of types made of parts with a property is made of such parts. -/
theorem unionOf {ts : List Ty} (h : ∀ t ∈ ts, MadeOf P t) : MadeOf P (Ty.unionOf ts) := by
  have hpart : ∀ p ∈ distinct (ts.flatMap unionParts),
      (∀ ms, p ≠ .union ms) ∧ p ≠ .bot ∧ P p := by
    intro p hp
    obtain ⟨t, ht, hpt⟩ := List.mem_flatMap.mp (mem_of_mem_distinct hp)
    exact (h t ht).part p hpt
  have hself : ∀ p ∈ distinct (ts.flatMap unionParts), p.unionParts = [p] :=
    fun p hp => unionParts_eq_of_ne (hpart p hp).1 (hpart p hp).2.1
  by_cases hun : untyped ∈ ts.flatMap unionParts
  · obtain ⟨t, ht, hut⟩ := List.mem_flatMap.mp hun
    rw [unionOf_eq_untyped hun]
    exact of_part (by simp) ((h t ht).part _ hut).2.2
  · have hparts : (Ty.unionOf ts).unionParts = distinct (ts.flatMap unionParts) := by
      rw [unionOf_eq_collapse hun]
      rcases collapseUnion_cases (distinct (ts.flatMap unionParts)) with
        ⟨hd, hc⟩ | ⟨p, hd, hc⟩ | ⟨-, hc⟩
      · rw [hc, hd]
        rfl
      · rw [hc, hd, hself p (by simp [hd])]
      · rw [hc]
        rfl
    refine ⟨?_, hparts ▸ hpart⟩
    rw [hparts]
    refine unionOf_congr ?_
    rw [flatMap_eq_self hself, distinct_eq_self (pairwise_distinct _)]

end MadeOf

end Ty
end TypeShape
