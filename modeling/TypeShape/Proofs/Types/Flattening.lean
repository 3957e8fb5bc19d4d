import TypeShape.Proofs.Types.NormalForm

/-!
# Unions of unions

A type in normal form is determined by what it contributes to a union, and likewise to an
intersection.  So a union of one type is that type, and a union of unions is equal to the union of
all that they are made of.

Main results:

- Theorems `Ty.unionOf_singleton` and `Ty.interOf_singleton`: one type is left as it is.
- Theorems `Ty.beq_unionOf_flatMap` and `Ty.beq_interOf_flatMap`: nested unions and intersections
  flatten.
- Theorem `Ty.IsJoin.beq_append`: unions and intersections of many types are made one type after the
  other.
-/

namespace TypeShape
namespace Ty

/-! ## Contributions up to equality -/

/-- The distinct types of a list are covered by it. -/
theorem covered_distinct (ts : List Ty) : Covered (distinct ts) ts :=
  fun a ha => ⟨a, mem_of_mem_distinct ha, beq_refl a⟩

/-- They cover a list of well-formed types. -/
theorem covered_of_distinct {ts : List Ty} (hts : ∀ t ∈ ts, t.WellFormed) :
    Covered ts (distinct ts) := by
  intro a ha
  obtain ⟨b, hb, hba⟩ := exists_mem_distinct ha
  exact ⟨b, hb, beq_symm (hts b (mem_of_mem_distinct hb)) (hts a ha) hba⟩

/-- Lists made elementwise are covered if their elements' lists are. -/
theorem covered_flatMap {α : Type} {f g : α → List Ty} {xs : List α}
    (h : ∀ x ∈ xs, Covered (f x) (g x)) : Covered (xs.flatMap f) (xs.flatMap g) := by
  intro a ha
  obtain ⟨x, hx, hax⟩ := List.mem_flatMap.mp ha
  obtain ⟨b, hb, hab⟩ := h x hx a hax
  exact ⟨b, List.mem_flatMap.mpr ⟨x, hx, hb⟩, hab⟩

/-! ## Unions -/

/-- A type in normal form contributes members of a union, unless it is `untyped`. -/
theorem Normal.isUnionMember {t u : Ty} (h : t.Normal) (hne : t ≠ untyped)
    (hu : u ∈ t.unionParts) : u.isUnionMember = true := by
  cases t with
  | union ms => exact (normalHere_union.mp (all_here h)).2.2 u hu
  | untyped => exact absurd rfl hne
  | bot => cases hu
  | _ =>
    obtain rfl := List.mem_singleton.mp hu
    rfl

/-- A member of a union is not untyped. -/
theorem isUntyped_eq_false {t : Ty} (h : t.isUnionMember = true) : t.isUntyped = false := by
  cases t with
  | untyped => cases h
  | _ => rfl

/-- A union with an untyped member is untyped. -/
theorem unionOf_of_mem_untyped {ts : List Ty} (h : untyped ∈ ts) : unionOf ts = untyped := by
  have hflat : untyped ∈ ts.flatMap Ty.unionParts :=
    List.mem_flatMap.mpr ⟨untyped, h, List.mem_singleton_self untyped⟩
  obtain ⟨u, hu, hbeq⟩ := exists_mem_distinct hflat
  have hany : (distinct (ts.flatMap Ty.unionParts)).any isUntyped = true :=
    List.any_eq_true.mpr ⟨u, hu, isUntyped_iff.mpr (eq_untyped_of_head (head_eq_of_beq hbeq))⟩
  rw [unionOf_eq, if_pos hany]

section Union

variable {ts : List Ty} (hts : ∀ t ∈ ts, t.Normal) (hun : untyped ∉ ts)

include hts hun

/-- The distinct contributions of types in normal form can stand in a union. -/
theorem isUnionMember_of_mem_distinct {u : Ty} (hu : u ∈ distinct (ts.flatMap Ty.unionParts)) :
    u.isUnionMember = true := by
  obtain ⟨t, ht, hut⟩ := List.mem_flatMap.mp (mem_of_mem_distinct hu)
  refine (hts t ht).isUnionMember ?_ hut
  rintro rfl
  exact hun ht

/-- A union without untyped members collapses to its distinct parts. -/
theorem unionOf_eq_collapseUnion :
    unionOf ts = collapseUnion (distinct (ts.flatMap Ty.unionParts)) := by
  rw [unionOf_eq, if_neg]
  intro hany
  obtain ⟨u, hu, hunt⟩ := List.any_eq_true.mp hany
  rw [isUntyped_eq_false (isUnionMember_of_mem_distinct hts hun hu)] at hunt
  cases hunt

/-- A union contributes to another one what its types contribute. -/
theorem unionParts_unionOf : (unionOf ts).unionParts = distinct (ts.flatMap Ty.unionParts) := by
  have hmember := fun u => isUnionMember_of_mem_distinct (u := u) hts hun
  rw [unionOf_eq_collapseUnion hts hun]
  rcases collapseUnion_cases (distinct (ts.flatMap Ty.unionParts)) with
    ⟨hd, hc⟩ | ⟨u, hd, hc⟩ | ⟨-, hc⟩
  · rw [hc, hd]
    rfl
  · rw [hc, unionParts_of_isUnionMember (hmember u (by simp [hd])), hd]
  · rw [hc]
    rfl

end Union

/-- The union of one type is the type. -/
theorem unionOf_singleton {t : Ty} (h : t.Normal) : unionOf [t] = t := by
  cases t with
  | union ms =>
    have hself := unionOf_eq_self (all_here h)
    rw [unionOf_eq] at hself ⊢
    have hflat : [union ms].flatMap Ty.unionParts = ms.flatMap Ty.unionParts := by
      rw [flatMap_eq_self fun m hm =>
        unionParts_of_isUnionMember ((normalHere_union.mp (all_here h)).2.2 m hm)]
      simp [Ty.unionParts]
    rw [hflat]
    exact hself
  | _ => rfl

/-- A union of unions is the union of all that they are made of. -/
theorem beq_unionOf_flatMap {α : Type} {f : α → List Ty} {xs : List α}
    (h : ∀ x ∈ xs, ∀ t ∈ f x, t.Normal) :
    (unionOf (xs.map fun x => unionOf (f x)) == unionOf (xs.flatMap f)) = true := by
  by_cases hun : untyped ∈ xs.flatMap f
  · obtain ⟨x, hx, hxu⟩ := List.mem_flatMap.mp hun
    have hmap : untyped ∈ xs.map fun x => unionOf (f x) :=
      List.mem_map.mpr ⟨x, hx, unionOf_of_mem_untyped hxu⟩
    rw [unionOf_of_mem_untyped hun, unionOf_of_mem_untyped hmap]
    exact beq_refl untyped
  · have hun' : ∀ x ∈ xs, untyped ∉ f x :=
      fun x hx hxu => hun (List.mem_flatMap.mpr ⟨x, hx, hxu⟩)
    have hflat : ∀ t ∈ xs.flatMap f, t.Normal := by
      intro t ht
      obtain ⟨x, hx, htx⟩ := List.mem_flatMap.mp ht
      exact h x hx t htx
    have hmap : ∀ t ∈ xs.map fun x => unionOf (f x), t.Normal := by
      intro t ht
      obtain ⟨x, hx, rfl⟩ := List.mem_map.mp ht
      exact normal_unionOf (h x hx)
    have hparts : (xs.map fun x => unionOf (f x)).flatMap Ty.unionParts =
        xs.flatMap fun x => distinct ((f x).flatMap Ty.unionParts) := by
      rw [List.flatMap_map]
      exact List.flatMap_congr fun x hx => unionParts_unionOf (h x hx) (hun' x hx)
    refine beq_unionOf_of_covered (fun t ht => (hmap t ht).wellFormed)
      (fun t ht => (hflat t ht).wellFormed) ?_ ?_
    · rw [hparts, List.flatMap_assoc]
      exact covered_flatMap fun x _ => covered_distinct _
    · rw [hparts, List.flatMap_assoc]
      exact covered_flatMap fun x hx => covered_of_distinct <|
        WellFormed.of_mem_flatMap (fun _ _ => WellFormed.unionParts)
          fun t ht => (h x hx t ht).wellFormed

/-! ## Intersections -/

/-- A type in normal form contributes members of an intersection. -/
theorem Normal.isInterMember {t u : Ty} (h : t.Normal) (hu : u ∈ t.interParts) :
    u.isInterMember = true := by
  cases t with
  | inter ms => exact (normalHere_inter.mp (all_here h)).2.2 u hu
  | top => cases hu
  | _ =>
    obtain rfl := List.mem_singleton.mp hu
    rfl

/-- An intersection contributes to another one what its types contribute. -/
theorem interParts_interOf {ts : List Ty} (hts : ∀ t ∈ ts, t.Normal) :
    (interOf ts).interParts = distinct (ts.flatMap Ty.interParts) := by
  rw [interOf_eq]
  rcases collapseInter_cases (distinct (ts.flatMap Ty.interParts)) with
    ⟨hd, hc⟩ | ⟨u, hd, hc⟩ | ⟨-, hc⟩
  · rw [hc, hd]
    rfl
  · have hu : u ∈ distinct (ts.flatMap Ty.interParts) := by simp [hd]
    obtain ⟨t, ht, hut⟩ := List.mem_flatMap.mp (mem_of_mem_distinct hu)
    rw [hc, interParts_of_isInterMember ((hts t ht).isInterMember hut), hd]
  · rw [hc]
    rfl

/-- The intersection of one type is the type. -/
theorem interOf_singleton {t : Ty} (h : t.Normal) : interOf [t] = t := by
  cases t with
  | inter ms =>
    have hself := interOf_eq_self (all_here h)
    rw [interOf_eq] at hself ⊢
    have hflat : [inter ms].flatMap Ty.interParts = ms.flatMap Ty.interParts := by
      rw [flatMap_eq_self fun m hm =>
        interParts_of_isInterMember ((normalHere_inter.mp (all_here h)).2.2 m hm)]
      simp [Ty.interParts]
    rw [hflat]
    exact hself
  | _ => rfl

/-- An intersection of intersections is the intersection of all that they are made of. -/
theorem beq_interOf_flatMap {α : Type} {f : α → List Ty} {xs : List α}
    (h : ∀ x ∈ xs, ∀ t ∈ f x, t.Normal) :
    (interOf (xs.map fun x => interOf (f x)) == interOf (xs.flatMap f)) = true := by
  have hflat : ∀ t ∈ xs.flatMap f, t.Normal := by
    intro t ht
    obtain ⟨x, hx, htx⟩ := List.mem_flatMap.mp ht
    exact h x hx t htx
  have hmap : ∀ t ∈ xs.map fun x => interOf (f x), t.Normal := by
    intro t ht
    obtain ⟨x, hx, rfl⟩ := List.mem_map.mp ht
    exact normal_interOf (h x hx)
  have hparts : (xs.map fun x => interOf (f x)).flatMap Ty.interParts =
      xs.flatMap fun x => distinct ((f x).flatMap Ty.interParts) := by
    rw [List.flatMap_map]
    exact List.flatMap_congr fun x hx => interParts_interOf (h x hx)
  refine beq_interOf_of_covered (fun t ht => (hmap t ht).wellFormed)
    (fun t ht => (hflat t ht).wellFormed) ?_ ?_
  · rw [hparts, List.flatMap_assoc]
    exact covered_flatMap fun x _ => covered_distinct _
  · rw [hparts, List.flatMap_assoc]
    exact covered_flatMap fun x hx => covered_of_distinct <|
      WellFormed.of_mem_flatMap (fun _ _ => WellFormed.interParts)
        fun t ht => (h x hx t ht).wellFormed

/-! ## Joins -/

/-- What unions and intersections have in common: one type is left as it is, lists with equal
members have equal joins, and joins of joins flatten. -/
structure IsJoin (join : List Ty → Ty) : Prop where
  normal : ∀ {ts : List Ty}, (∀ t ∈ ts, t.Normal) → (join ts).Normal
  singleton : ∀ {t : Ty}, t.Normal → join [t] = t
  congr : ∀ {ts us : List Ty}, (∀ t ∈ ts, t.WellFormed) → (∀ u ∈ us, u.WellFormed) →
    Covered ts us → Covered us ts → (join ts == join us) = true
  flatten : ∀ {tss : List (List Ty)}, (∀ ts ∈ tss, ∀ t ∈ ts, t.Normal) →
    (join (tss.map join) == join (tss.flatMap id)) = true

/-- Unions join types. -/
theorem isJoin_unionOf : IsJoin unionOf :=
  ⟨normal_unionOf, unionOf_singleton, beq_unionOf, beq_unionOf_flatMap⟩

/-- So do intersections. -/
theorem isJoin_interOf : IsJoin interOf :=
  ⟨normal_interOf, interOf_singleton, beq_interOf, beq_interOf_flatMap⟩

namespace IsJoin

variable {join : List Ty → Ty} (hjoin : IsJoin join)

include hjoin

/-- A type is the join of itself and an equal one. -/
theorem beq_pair {t u : Ty} (ht : t.Normal) (hu : u.Normal) (h : (t == u) = true) :
    (t == join [t, u]) = true := by
  have hut : (u == t) = true := beq_symm ht.wellFormed hu.wellFormed h
  have hcongr : (join [t] == join [t, u]) = true :=
    hjoin.congr (by simpa using ht.wellFormed) (by simp [ht.wellFormed, hu.wellFormed])
      (by simp [Covered, h]) (by simp [Covered, hut])
  rwa [hjoin.singleton ht] at hcongr

/-- The join of a join with one more type is the join of all of them. -/
theorem beq_append {t u v : Ty} {us : List Ty} (ht : t.Normal) (hu : u.Normal) (hv : v.Normal)
    (hus : ∀ u ∈ us, u.Normal) (h : (t == join [u, v]) = true) (h' : (u == join us) = true) :
    (t == join (us ++ [v])) = true := by
  have hall : ∀ w ∈ us ++ [v], w.Normal := by
    simpa [or_imp, forall_and] using ⟨hus, hv⟩
  have hjus : (join us).Normal := hjoin.normal hus
  have huv : ∀ w ∈ [u, v], w.Normal := by simp [hu, hv]
  have hjv : ∀ w ∈ [join us, v], w.Normal := by simp [hjus, hv]
  have hinner : (join [u, v] == join [join us, v]) = true :=
    hjoin.congr (fun w hw => (huv w hw).wellFormed) (fun w hw => (hjv w hw).wellFormed)
      (by simp [Covered, h'])
      (by simp [Covered, beq_symm hu.wellFormed hjus.wellFormed h'])
  have hflat : (join [join us, v] == join (us ++ [v])) = true := by
    have hflatten := @hjoin.flatten [us, [v]] (by simpa using ⟨hus, hv⟩)
    simpa [hjoin.singleton hv] using hflatten
  have hwf := (hjoin.normal hall).wellFormed
  have hwf' := (hjoin.normal hjv).wellFormed
  have hrest := beq_trans (hjoin.normal huv).wellFormed hwf' hwf hinner hflat
  exact beq_trans ht.wellFormed (hjoin.normal huv).wellFormed hwf h hrest

end IsJoin

end Ty
end TypeShape
