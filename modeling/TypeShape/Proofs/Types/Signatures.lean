import TypeShape.Proofs.Types.Overloads

/-!
# Equal overloads

Overloads are compared by their signatures.  A signature is a frame without types and the types
that stand in it, so two of them are equal when they have one frame and their types are equal one
by one.  On well-formed types this is an equivalence, as it is for types.

Main results:

- Theorem `Overload.beq_iff`: equal overloads have one frame and equal types.
- Theorems `Overload.beq_symm` and `Overload.beq_trans`: the equality of overloads is an
  equivalence.
-/

namespace TypeShape

/-! ## Lists of equal types -/

namespace Ty

/-- Types that are equal one by one. -/
abbrev AllEqual (ts us : List Ty) : Prop :=
  List.Forall₂ (fun a b => (a == b) = true) ts us

/-- A list of types is equal to itself. -/
theorem AllEqual.refl (ts : List Ty) : AllEqual ts ts :=
  List.forall₂_same.mpr fun t _ => beq_refl t

/-- Equality of lists of well-formed types is symmetric. -/
theorem AllEqual.symm {ts us : List Ty} (h : AllEqual ts us) (ht : ∀ t ∈ ts, t.WellFormed)
    (hu : ∀ u ∈ us, u.WellFormed) : AllEqual us ts := by
  induction h with
  | nil => exact .nil
  | cons hab _ ih =>
    obtain ⟨ha, has⟩ := List.forall_mem_cons.mp ht
    obtain ⟨hb, hbs⟩ := List.forall_mem_cons.mp hu
    exact .cons (beq_symm ha hb hab) (ih has hbs)

/-- It is transitive. -/
theorem AllEqual.trans {ts us vs : List Ty} (h : AllEqual ts us) (h' : AllEqual us vs)
    (ht : ∀ t ∈ ts, t.WellFormed) (hu : ∀ u ∈ us, u.WellFormed) (hv : ∀ v ∈ vs, v.WellFormed) :
    AllEqual ts vs := by
  induction h generalizing vs with
  | nil => exact h'
  | cons hab _ ih =>
    obtain ⟨ha, has⟩ := List.forall_mem_cons.mp ht
    obtain ⟨hb, hbs⟩ := List.forall_mem_cons.mp hu
    cases h' with
    | cons hbc hbcs =>
      obtain ⟨hc, hcs⟩ := List.forall_mem_cons.mp hv
      exact .cons (beq_trans ha hb hc hab hbc) (ih hbcs has hbs hcs)

end Ty

/-! ## Signatures -/

/-- Blocks with one frame have equally many types. -/
theorem Block.length_toList {b d : Block Ty} (h : b.frame = d.frame) :
    b.toList.length = d.toList.length := by
  simp only [frame, Prod.mk.injEq] at h
  simp [toList, Arrow.length_toList h.1, Option.length_toList, h.2.2]

/-- So have callables. -/
theorem Callable.length_toList {c d : Callable Ty} (h : c.frame = d.frame) :
    c.toList.length = d.toList.length := by
  obtain ⟨a, b⟩ := c
  obtain ⟨a', b'⟩ := d
  obtain ⟨hlayout, hblock⟩ := Prod.mk.inj h
  rw [toList, toList, List.length_append, List.length_append, Arrow.length_toList hlayout]
  cases b with
  | none => cases b' <;> simp_all
  | some b =>
    cases b' with
    | none => simp at hblock
    | some b' =>
      have hlength := Block.length_toList (Option.some.inj hblock)
      simp [hlength]

namespace TypeParam

/-- A type parameter without its bound. -/
def frame (p : TypeParam) : String × Bool × Variance × Bool :=
  (p.name, p.bound.isSome, p.variance, p.unchecked)

/-- Type parameters are equal if their frames are and their bounds are. -/
theorem beq_iff {p q : TypeParam} :
    (p == q) = true ↔ p.frame = q.frame ∧ Ty.AllEqual p.bound.toList q.bound.toList := by
  obtain ⟨name, bound, variance, unchecked⟩ := p
  obtain ⟨name', bound', variance', unchecked'⟩ := q
  change (name == name' && bound == bound' && variance == variance' &&
    unchecked == unchecked') = true ↔ _
  cases bound <;> cases bound' <;> simp [frame, and_assoc]
  tauto

/-- The same for lists of type parameters. -/
theorem listBEq_iff {ps qs : List TypeParam} :
    (ps == qs) = true ↔
      ps.map frame = qs.map frame ∧
        Ty.AllEqual (ps.flatMap (·.bound.toList)) (qs.flatMap (·.bound.toList)) := by
  induction ps generalizing qs with
  | nil => cases qs <;> simp
  | cons p ps ih =>
    cases qs with
    | nil => simp
    | cons q qs =>
      rw [List.cons_beq_cons, Bool.and_eq_true, beq_iff, ih]
      simp only [List.map_cons, List.cons.injEq, List.flatMap_cons]
      constructor
      · rintro ⟨⟨hp, hbound⟩, hps, hbounds⟩
        exact ⟨⟨hp, hps⟩, List.rel_append hbound hbounds⟩
      · rintro ⟨⟨hp, hps⟩, hbounds⟩
        have hsome : p.bound.isSome = q.bound.isSome := congrArg (·.2.1) hp
        have hlength : p.bound.toList.length = q.bound.toList.length := by
          rw [Option.length_toList, Option.length_toList, hsome]
        obtain ⟨hbound, hbounds⟩ := (forall₂_append_iff hlength).mp hbounds
        exact ⟨⟨hp, hbound⟩, hps, hbounds⟩

end TypeParam

namespace Overload

variable {o p q : Overload}

/-- The types of an overload are well formed. -/
def WellFormed (o : Overload) : Prop :=
  ∀ t ∈ o.types, t.WellFormed

/-- An overload in normal form is well-formed. -/
theorem Normal.wellFormed (h : o.Normal) : o.WellFormed :=
  fun t ht => (h t ht).wellFormed

/-- An overload without its types and origins. -/
def frame (o : Overload) :
    (Layout × Option (Layout × Bool × Bool)) × List (String × Bool × Variance × Bool) :=
  (o.callable.frame, o.typeParams.map TypeParam.frame)

/-- Equal overloads have one frame and equal types. -/
theorem beq_iff : (o == p) = true ↔ o.frame = p.frame ∧ Ty.AllEqual o.types p.types := by
  change (o.typeParams == p.typeParams && o.callable == p.callable) = true ↔ _
  rw [Bool.and_eq_true, TypeParam.listBEq_iff, frame, frame, Prod.mk.injEq, types, types]
  have hcallable : (o.callable == p.callable) = true ↔ _ := Ty.beqCallable_iff
  rw [hcallable]
  constructor
  · rintro ⟨⟨hparams, hbounds⟩, hframe, htypes⟩
    exact ⟨⟨hframe, hparams⟩, List.rel_append htypes hbounds⟩
  · rintro ⟨⟨hframe, hparams⟩, htypes⟩
    obtain ⟨htypes, hbounds⟩ := (forall₂_append_iff (Callable.length_toList hframe)).mp htypes
    exact ⟨⟨hparams, hbounds⟩, hframe, htypes⟩

/-- An overload is equal to itself. -/
theorem beq_refl (o : Overload) : (o == o) = true :=
  beq_iff.mpr ⟨rfl, .refl _⟩

/-- Equality of well-formed overloads is symmetric. -/
theorem beq_symm (ho : o.WellFormed) (hp : p.WellFormed) (h : (o == p) = true) :
    (p == o) = true := by
  obtain ⟨hframe, htypes⟩ := beq_iff.mp h
  exact beq_iff.mpr ⟨hframe.symm, htypes.symm ho hp⟩

/-- It is transitive. -/
theorem beq_trans (ho : o.WellFormed) (hp : p.WellFormed) (hq : q.WellFormed)
    (h : (o == p) = true) (h' : (p == q) = true) : (o == q) = true := by
  obtain ⟨hframe, htypes⟩ := beq_iff.mp h
  obtain ⟨hframe', htypes'⟩ := beq_iff.mp h'
  exact beq_iff.mpr ⟨hframe.trans hframe', htypes.trans htypes' ho hp hq⟩

end Overload
end TypeShape
