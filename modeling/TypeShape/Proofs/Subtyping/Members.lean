import TypeShape.Proofs.Budget
import TypeShape.Proofs.Subtyping.Settled
import TypeShape.Proofs.Types.Nesting

/-!
# Unions and intersections as bounds

A type in normal form is below another when each member of it is below some member of the other.  So
a union is above what it joins.  An intersection is below each of its members that is no union; but
against a union the members of the union are tried before those of the intersection, and so an
intersection is below a union only if it is below one of its members, also where the union itself is
a member of the intersection.

Main results:

- Theorems `Table.isSubtype_iff_forall_unionParts` and `Table.isSubtype_iff_exists_unionParts`:
  subtyping member by member.
- Theorem `Table.isSubtype_inter_iff`: what is above an intersection.
- Theorem `Table.union_inter_bounds`: unions are above what they join, and when intersections are
  below what they meet.
-/

namespace TypeShape

namespace Ty

/-- What is left of a type in normal form when it meets another: all of it, or an intersection with
its members. -/
theorem Normal.interOf_pair_cases {x : Ty} (hx : x.Normal) (y : Ty) :
    x = top ∨ interOf [x, y] = x ∨
      ∃ ms, interOf [x, y] = inter ms ∧ ∀ c ∈ x.interParts, ∃ m ∈ ms, (m == c) = true := by
  have hparts : [x, y].flatMap interParts = x.interParts ++ y.interParts := by simp
  rw [interOf_eq, hparts]
  have hkept : ∀ c ∈ x.interParts, ∃ m ∈ distinct (x.interParts ++ y.interParts), (m == c) = true :=
    fun c hc => exists_mem_distinct (List.mem_append_left _ hc)
  rcases collapseInter_cases (distinct (x.interParts ++ y.interParts)) with
    ⟨hd, -⟩ | ⟨m, hd, hc⟩ | ⟨-, hc⟩
  · rw [hd] at hkept
    cases x with
    | top => exact Or.inl rfl
    | inter xs =>
      obtain ⟨hlen, -⟩ := normalHere_inter.mp (all_here hx)
      obtain ⟨c, hcmem⟩ := List.exists_mem_of_length_pos (by omega : 0 < xs.length)
      simpa using hkept c hcmem
    | _ => simp [interParts] at hkept
  · rw [hd] at hkept
    cases x with
    | top => exact Or.inl rfl
    | inter xs =>
      -- Two distinct members are not both equal to the only one that is left.
      obtain ⟨hlen, hdist, -⟩ := normalHere_inter.mp (all_here hx)
      rcases xs with _ | ⟨c, _ | ⟨d, xs⟩⟩
      · simp at hlen
      · simp at hlen
      · obtain rfl : m = c := eq_of_distinct_cons_eq_singleton hd
        obtain ⟨u, hu, hbeq⟩ := hkept d (by simp [interParts])
        rw [List.mem_singleton.mp hu, (List.pairwise_cons.mp hdist).1 d List.mem_cons_self] at hbeq
        cases hbeq
    | _ => exact Or.inr (Or.inl (hc.trans (eq_of_distinct_cons_eq_singleton hd)))
  · exact Or.inr (Or.inr ⟨_, hc, hkept⟩)

end Ty

namespace Table

variable {T : Table} {n i j : Nat} {a b : Ty}

theorem isSubtypeWithin_of_isCeiling (h : isCeiling b = true) :
    T.isSubtypeWithin (n + 1) a b = true := by
  simp [isSubtypeWithin, rule, h]

theorem isSubtypeWithin_of_isFloor (h : isFloor a = true) :
    T.isSubtypeWithin (n + 1) a b = true := by
  simp [isSubtypeWithin, rule, h]

/-! ## One rule at a time -/

/-- A member is below a union when it is below one of its members. -/
theorem isSubtypeWithin_union_right_iff {ms : List Ty} (ha : a.isUnionMember = true)
    (hna : a.notAlias = true) :
    T.isSubtypeWithin (n + 1) a (.union ms) = true ↔ ∃ m ∈ ms, T.isSubtypeWithin n a m = true := by
  rw [← List.any_eq_true]
  cases a with
  | named kind name args =>
    cases kind with
    | aliasOf => cases hna
    | _ => rfl
  | union | bot | untyped => cases ha
  | _ => rfl

/-- A union is below another type when it is equal to it or all its members are below it. -/
theorem isSubtypeWithin_union_left_iff {ms : List Ty} (hb : isCeiling b = false)
    (hnb : b.notAlias = true) :
    T.isSubtypeWithin (n + 1) (.union ms) b = true ↔
      (Ty.union ms == b) = true ∨ ∀ m ∈ ms, T.isSubtypeWithin n m b = true := by
  rw [← List.all_eq_true, ← Bool.or_eq_true, isSubtypeWithin, rule, hb,
    aliasRule_of_notAlias rfl hnb]
  rfl

/-- An intersection is below another when they are equal or it is below all members of the other. -/
theorem isSubtypeWithin_inter_inter_iff {ms cs : List Ty} :
    T.isSubtypeWithin (n + 1) (.inter ms) (.inter cs) = true ↔
      (Ty.inter ms == .inter cs) = true ∨ ∀ c ∈ cs, T.isSubtypeWithin n (.inter ms) c = true := by
  rw [← List.all_eq_true, ← Bool.or_eq_true]
  rfl

/-- An intersection is below its members, apart from unions. -/
theorem isSubtypeWithin_inter_of_mem {ms : List Ty} {m c : Ty} (hm : m ∈ ms)
    (hbeq : (m == c) = true) (hc : c.isInterMember = true) (hu : ∀ us, c ≠ .union us)
    (hnc : c.notAlias = true) : T.isSubtypeWithin (n + 1) (.inter ms) c = true := by
  have hany : (ms.any fun m => T.isSubtypeWithin n m c) = true :=
    List.any_eq_true.mpr ⟨m, hm, isSubtypeWithin_of_beq hbeq⟩
  rw [isSubtypeWithin, rule, aliasRule_of_notAlias rfl hnc, Bool.or_eq_true, Bool.or_eq_true]
  cases c with
  | inter | top => cases hc
  | union us => exact absurd rfl (hu us)
  | _ => exact Or.inr (Or.inr hany)

/-! ## All members -/

section Shallow

variable (hij : i + j ≤ 62)

include hij

/-- A type in normal form is below another when its members are. -/
theorem isSubtype_iff_forall_unionParts (ha : a.Normal) (has : a.Shallow i) (hbs : b.Shallow j) :
    T.isSubtype a b = true ↔ ∀ m ∈ a.unionParts, T.isSubtype m b = true := by
  cases a with
  | bot => exact iff_of_true (isSubtypeWithin_of_isFloor rfl) (by simp [Ty.unionParts])
  | union ms =>
    obtain ⟨i, rfl⟩ := has.exists_succ
    have hsettled : ∀ m ∈ ms, T.isSubtypeWithin 63 m b = T.isSubtype m b :=
      fun m hm => isSubtypeWithin_eq_isSubtype (has.part hm) hbs (by omega) (by decide)
    by_cases hceiling : isCeiling b = true
    · exact iff_of_true (isSubtypeWithin_of_isCeiling hceiling)
        fun m _ => isSubtypeWithin_of_isCeiling hceiling
    · rw [isSubtype, subtypeBudget, isSubtypeWithin_union_left_iff (by simpa using hceiling)
        hbs.aliasFree.notAlias, or_iff_right_of_imp]
      · exact forall₂_congr fun m hm => by rw [hsettled m hm]
      · intro hbeq m hm
        obtain ⟨rs, rfl⟩ := Ty.eq_union_of_head (Ty.head_eq_of_beq hbeq).symm
        obtain ⟨r, hr, hmr⟩ := Ty.exists_part_of_beq hbeq hm
        have hmember := (Ty.normalHere_union.mp (Ty.all_here ha)).2.2 m hm
        exact (isSubtypeWithin_union_right_iff hmember (has.part hm).aliasFree.notAlias).mpr
          ⟨r, hr, isSubtypeWithin_of_beq hmr⟩
  | _ => simp [Ty.unionParts]

/-- A member is below another type when it is below one of its members. -/
theorem isSubtype_iff_exists_unionParts (ha : a.isUnionMember = true) (has : a.Shallow i)
    (hbs : b.Shallow j) (hb : b ≠ .bot) :
    T.isSubtype a b = true ↔ ∃ r ∈ b.unionParts, T.isSubtype a r = true := by
  cases b with
  | bot => exact absurd rfl hb
  | union rs =>
    obtain ⟨j, rfl⟩ := hbs.exists_succ
    rw [isSubtype, subtypeBudget, isSubtypeWithin_union_right_iff ha has.aliasFree.notAlias]
    refine exists_congr fun r => and_congr_right fun hr => ?_
    rw [isSubtypeWithin_eq_isSubtype has (hbs.part hr) (by omega) (by decide)]
  | _ => simp [Ty.unionParts]

/-- An intersection is below a type when they are equal or it is below all that the type meets. -/
theorem isSubtype_inter_iff {ms : List Ty} (has : (Ty.inter ms).Shallow i) (hbs : b.Shallow j) :
    T.isSubtype (.inter ms) b = true ↔
      (Ty.inter ms == b) = true ∨ ∀ c ∈ b.interParts, T.isSubtype (.inter ms) c = true := by
  cases b with
  | top => exact iff_of_true (isSubtypeWithin_of_isCeiling rfl) (by simp [Ty.interParts])
  | inter cs =>
    obtain ⟨j, rfl⟩ := hbs.exists_succ
    rw [isSubtype, subtypeBudget, isSubtypeWithin_inter_inter_iff]
    refine or_congr_right (forall₂_congr fun c hc => ?_)
    rw [isSubtypeWithin_eq_isSubtype has (hbs.part hc) (by omega) (by decide)]
  | _ =>
    simp only [Ty.interParts, List.mem_singleton, forall_eq]
    exact (or_iff_right_of_imp isSubtypeWithin_of_beq).symm

end Shallow

/-! ## Bounds -/

section Bounds

variable {x y : Ty} (hx : x.Normal) (hy : y.Normal) (hxs : x.Shallow 30) (hys : y.Shallow 30)

include hx hy hxs hys

/-- A union is above what it joins. -/
theorem isSubtype_unionOf_pair : T.isSubtype x (Ty.unionOf [x, y]) = true := by
  by_cases hun : .untyped ∈ [x, y]
  · rw [Ty.unionOf_of_mem_untyped hun]
    exact isSubtypeWithin_of_isCeiling rfl
  have hts : ∀ t ∈ [x, y], t.Normal := by simp [hx, hy]
  have hshallow : (Ty.unionOf [x, y]).Shallow 31 := Ty.shallow_unionOf (by simp [hxs, hys])
  have hparts := Ty.unionParts_unionOf hts hun
  rw [isSubtype_iff_forall_unionParts (by decide) hx hxs hshallow]
  intro m hm
  have hwf := Ty.WellFormed.of_mem_flatMap (fun _ _ => Ty.WellFormed.unionParts)
    fun t ht => (hts t ht).wellFormed
  have hmem : m ∈ [x, y].flatMap Ty.unionParts := by simp [hm]
  obtain ⟨u, hu, hbeq⟩ := Ty.exists_mem_distinct hmem
  have hmu := Ty.beq_symm (hwf u (Ty.mem_of_mem_distinct hu)) (hwf m hmem) hbeq
  rw [← hparts] at hu
  have hne : Ty.unionOf [x, y] ≠ .bot := by
    intro hbot
    rw [hbot] at hu
    cases hu
  have hxun : x ≠ .untyped := by
    rintro rfl
    exact hun List.mem_cons_self
  exact (isSubtype_iff_exists_unionParts (by decide) (hx.isUnionMember hxun hm)
    (hxs.of_mem_unionParts hm) hshallow hne).mpr ⟨u, hu, isSubtypeWithin_of_beq hmu⟩

omit hy in
/-- An intersection is below a type that it meets when they are equal, or when it is below a member
of every union that the type meets. -/
theorem isSubtype_interOf_pair_iff :
    T.isSubtype (Ty.interOf [x, y]) x = true ↔
      (Ty.interOf [x, y] == x) = true ∨
        ∀ us, .union us ∈ x.interParts → ∃ u ∈ us, T.isSubtype (Ty.interOf [x, y]) u = true := by
  have hshallow : (Ty.interOf [x, y]).Shallow 31 := Ty.shallow_interOf (by simp [hxs, hys])
  rcases hx.interOf_pair_cases y with rfl | heq | ⟨ms, heq, hkept⟩
  · exact iff_of_true (isSubtypeWithin_of_isCeiling rfl) (Or.inr (by simp [Ty.interParts]))
  · have hrefl : (Ty.interOf [x, y] == x) = true := by
      rw [heq]
      exact Ty.beq_refl x
    exact iff_of_true (isSubtypeWithin_of_beq hrefl) (Or.inl hrefl)
  · rw [heq] at hshallow ⊢
    have hunion : ∀ us, .union us ∈ x.interParts → (T.isSubtype (.inter ms) (.union us) = true ↔
        ∃ u ∈ us, T.isSubtype (.inter ms) u = true) := fun us hus =>
      isSubtype_iff_exists_unionParts (by decide) rfl hshallow (hxs.of_mem_interParts hus) (by simp)
    rw [isSubtype_inter_iff (by decide) hshallow hxs]
    refine or_congr_right ⟨fun h us hus => (hunion us hus).mp (h _ hus), fun h c hc => ?_⟩
    by_cases hc' : ∃ us, c = .union us
    · obtain ⟨us, rfl⟩ := hc'
      exact (hunion us hc).mpr (h us hc)
    · obtain ⟨m, hm, hbeq⟩ := hkept c hc
      exact isSubtypeWithin_inter_of_mem hm hbeq (hx.isInterMember hc) (fun us h => hc' ⟨us, h⟩)
        (hxs.of_mem_interParts hc).aliasFree.notAlias

end Bounds

/-- Unions are above what they join.  An intersection is below a type that it meets if neither this
type nor a member of it is a union; if one is, exactly when they are equal or the intersection is
below a member of each such union. -/
theorem union_inter_bounds (T : Table) {x y : Ty} (hx : x.Normal) (hy : y.Normal)
    (hxs : x.Shallow 30) (hys : y.Shallow 30) :
    T.isSubtype x (Ty.unionOf [x, y]) = true ∧
      ((∀ us, .union us ∉ x.interParts) → T.isSubtype (Ty.interOf [x, y]) x = true) ∧
      (T.isSubtype (Ty.interOf [x, y]) x = true ↔
        (Ty.interOf [x, y] == x) = true ∨
          ∀ us, .union us ∈ x.interParts →
            ∃ u ∈ us, T.isSubtype (Ty.interOf [x, y]) u = true) := by
  have hiff := isSubtype_interOf_pair_iff (T := T) hx hxs hys
  refine ⟨isSubtype_unionOf_pair hx hy hxs hys, fun hno => hiff.mpr (Or.inr ?_), hiff⟩
  exact fun us hus => absurd hus (hno us)

/-- A class below another, and one that has nothing to do with them. -/
def cats : Table where
  modules := [
    (⟨"::Animal"⟩, { name := ⟨"::Animal"⟩, kind := .classDecl }),
    (⟨"::Cat"⟩,
      { name := ⟨"::Cat"⟩, kind := .classDecl, superclass := some (.ofClass ⟨"::Animal"⟩) }),
    (⟨"::Tree"⟩, { name := ⟨"::Tree"⟩, kind := .classDecl })]

/-- An animal or a tree that is a cat is an animal or a tree, but one that is `nil` or a string is
not found to be one. -/
theorem bounds_of_cats :
    let x : Ty := .union [.ofClass ⟨"::Animal"⟩, .ofClass ⟨"::Tree"⟩]
    let cat : Ty := .ofClass ⟨"::Cat"⟩
    let other : Ty := .union [.nil, .ofClass .string]
    cats.isSubtype x (Ty.unionOf [x, other]) = true ∧
      cats.isSubtype (Ty.interOf [x, cat]) x = true ∧
      cats.isSubtype (Ty.interOf [x, other]) x = false := by
  intro x cat other
  have hbounds := fun (y : Ty) (hy : y.Normal) (hys : y.Shallow 30) =>
    union_inter_bounds cats (x := x) (by decide) hy (by decide) hys
  obtain ⟨hunion, -, hother⟩ := hbounds other (by decide) (by decide)
  obtain ⟨-, -, hcat⟩ := hbounds cat (by decide) (by decide)
  refine ⟨hunion, hcat.mpr (Or.inr ?_), ?_⟩
  · intro us hus
    obtain rfl := Ty.union.inj (List.mem_singleton.mp hus)
    exact ⟨.ofClass ⟨"::Animal"⟩, by simp, by decide⟩
  · rw [Bool.eq_false_iff, Ne, hother]
    rintro (h | h)
    · exact absurd h (by decide)
    · obtain ⟨u, hu, h⟩ := h _ (List.mem_singleton.mpr rfl)
      rcases List.mem_pair.mp hu with rfl | rfl <;> exact absurd h (by decide)

end Table
end TypeShape
