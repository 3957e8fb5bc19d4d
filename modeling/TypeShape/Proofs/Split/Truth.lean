import TypeShape.Proofs.Split.Leaves
import TypeShape.Proofs.Types.Nesting

/-!
# Exact splits by truth and by nil

A split by truth and one by `nil` differ only in which types they pick out.  Both take a type apart
to its leaves, and both see a boolean as its two literals: what is put together again as a boolean
on one side stands for both.  Leaves that may hold any value go to both sides.

Main results:

- Theorem `Table.gathers_splitWithin`: each side has the leaves that the leaves of the type
  contribute to it.
- Theorem `Table.Picks.exactSplit`: which leaves each side has, booleans taken apart, for every
  placement that picks out some types.
- Theorem `Table.splitByTruth_splitByNil_exact`: the same for the splits by truth and by `nil`.
-/

namespace TypeShape
namespace Ty

/-- What a type stands for when booleans are taken apart: the boolean type and the answers to
questions stand for both literals, all other types for themselves. -/
def grains : Ty → List Ty
  | .bool => [.trueType, .falseType]
  | .logic _ => [.trueType, .falseType]
  | t => [t]

theorem grains_eq_singleton {t : Ty} (hbool : t ≠ .bool) (hlogic : ∀ q, t ≠ .logic q) :
    t.grains = [t] := by
  cases t with
  | bool => exact absurd rfl hbool
  | logic q => exact absurd rfl (hlogic q)
  | _ => rfl

/-- Equal types stand for equal types. -/
theorem Same.exists_grain {t u g : Ty} (h : Same t u) (hg : g ∈ t.grains) :
    ∃ g' ∈ u.grains, (g == g') = true := by
  by_cases hatom : t.isAtom = true ∨ u.isAtom = true
  · have heq : t = u := by
      rcases hatom with hatom | hatom
      · exact (eq_of_head_of_isAtom hatom h.head_eq).symm
      · exact eq_of_head_of_isAtom hatom h.head_eq.symm
    exact ⟨g, heq ▸ hg, beq_refl g⟩
  · rw [not_or] at hatom
    have hself : ∀ v : Ty, ¬ v.isAtom = true → v.grains = [v] := by
      intro v hv
      refine grains_eq_singleton ?_ ?_
      · rintro rfl
        exact hv rfl
      · rintro q rfl
        exact hv rfl
    rw [hself t hatom.1] at hg
    obtain rfl := List.mem_singleton.mp hg
    exact ⟨u, by rw [hself u hatom.2]; exact List.mem_singleton.mpr rfl, h.beq⟩

end Ty

namespace Table

open Ty (Same)

variable {T : Table}

/-- A leaf of a type, with booleans taken apart. -/
def Grain (T : Table) (t g : Ty) : Prop :=
  ∃ l, Leaf T t l ∧ g ∈ l.grains

/-- A leaf has the grains that it stands for. -/
theorem Leaf.grain_iff {t l g : Ty} (h : Leaf T t l) : Grain T l g ↔ g ∈ l.grains := by
  constructor
  · rintro ⟨k, hk, hg⟩
    exact h.eq_of_leaf hk ▸ hg
  · exact fun hg => ⟨l, h.own, hg⟩

theorem not_grain_bot (g : Ty) : ¬ Grain T .bot g := by
  rintro ⟨l, hl, -⟩
  exact not_leaf_bot l hl

theorem grain_untyped_iff {t : Ty} : Grain T t .untyped ↔ Leaf T t .untyped := by
  constructor
  · rintro ⟨l, hl, hg⟩
    cases l with
    | untyped => exact hl
    | _ => simp [Ty.grains, Ty.trueType, Ty.falseType] at hg
  · exact fun h => ⟨.untyped, h, List.mem_singleton.mpr rfl⟩

/-! ## What is picked out -/

/-- The type is `nil` or an instance of its class. -/
def IsNil (t : Ty) : Prop :=
  t = .nil ∨ ∃ args, t = .named .instanceOf .nilClass args

/-- The type is `nil` or `false`, or an instance of the class of one of them. -/
def IsFalsy (t : Ty) : Prop :=
  IsNil t ∨ t = .falseType ∨ ∃ args, t = .named .instanceOf .falseClass args

/-- The type may hold any value, and it is not `untyped`. -/
def Uncertain (T : Table) (t : Ty) : Prop :=
  t = .top ∨ t = .void ∨ (∃ x, t = .var x) ∨ (∃ ms, t = .inter ms) ∨ Undeclared T t

theorem isUndecided_iff {t : Ty} :
    isUndecided t = true ↔
      t = .untyped ∨ t = .top ∨ t = .void ∨ (∃ x, t = .var x) ∨ ∃ ms, t = .inter ms := by
  cases t <;> simp [isUndecided]

/-- A placement that puts the types picked out to the right, and those that may hold any value to
both sides. -/
structure Picks (placement : Ty → Placement) (picked : Ty → Prop) : Prop where
  right_iff : ∀ t, placement t = .right ↔ picked t
  both_iff : ∀ t, placement t = .both ↔ isUndecided t = true
  not_alias : ∀ name args, ¬ picked (.named .aliasOf name args)

theorem picks_nilPlacement : Picks nilPlacement IsNil where
  right_iff t := by
    cases t with
    | named kind name args =>
      cases kind with
      | instanceOf => by_cases h : name = .nilClass <;> simp [nilPlacement, IsNil, h]
      | _ => simp [nilPlacement, IsNil, isUndecided]
    | _ => simp [nilPlacement, IsNil, isUndecided]
  both_iff t := by
    cases t with
    | named kind name args =>
      cases kind with
      | instanceOf => by_cases h : name = .nilClass <;> simp [nilPlacement, isUndecided, h]
      | _ => simp [nilPlacement, isUndecided]
    | _ => simp [nilPlacement, isUndecided]
  not_alias name args := by simp [IsNil]

theorem picks_truthPlacement : Picks truthPlacement IsFalsy where
  right_iff t := by
    cases t with
    | named kind name args =>
      cases kind with
      | instanceOf =>
        by_cases h : name = .nilClass ∨ name = .falseClass <;>
          simp [truthPlacement, IsFalsy, IsNil, Ty.falseType, h]
      | _ => simp [truthPlacement, IsFalsy, IsNil, Ty.falseType, isUndecided]
    | literal value =>
      cases value with
      | boolean b => cases b <;> simp [truthPlacement, IsFalsy, IsNil, Ty.falseType, isUndecided]
      | _ => simp [truthPlacement, IsFalsy, IsNil, Ty.falseType, isUndecided]
    | _ => simp [truthPlacement, IsFalsy, IsNil, Ty.falseType, isUndecided]
  both_iff t := by
    cases t with
    | named kind name args =>
      cases kind with
      | instanceOf =>
        by_cases h : name = .nilClass ∨ name = .falseClass <;>
          simp [truthPlacement, isUndecided, h]
      | _ => simp [truthPlacement, isUndecided]
    | literal value =>
      cases value with
      | boolean b => cases b <;> simp [truthPlacement, isUndecided]
      | _ => simp [truthPlacement, isUndecided]
    | _ => simp [truthPlacement, isUndecided]
  not_alias name args := by simp [IsFalsy, IsNil, Ty.falseType]

/-! ## From types to their leaves -/

section Leaves

variable {placement : Ty → Placement}

theorem splitWithin_union (n : Nat) (ms : List Ty) :
    T.splitWithin placement n (.union ms) =
      (Ty.unionOf (ms.map fun m => (T.splitWithin placement n m).1),
        Ty.unionOf (ms.map fun m => (T.splitWithin placement n m).2)) := by
  cases n <;> rw [splitWithin, splitWith, splitMembers_eq_map]

theorem splitWithin_of_expansion {t e : Ty} (he : T.expansion? t = some e) (n : Nat) :
    T.splitWithin placement (n + 1) t = T.splitWithin placement n e := by
  obtain ⟨name, args, rfl⟩ := exists_alias_of_expansion? he
  simp only [splitWithin, splitWith, he]

/-- How a leaf is split does not depend on how many aliases may be looked through, as long as it
is one: at none, an undeclared alias is placed and not kept on both sides. -/
theorem splitWithin_of_leaf {t : Ty} (hu : ∀ ms, t ≠ .union ms) (he : T.expansion? t = none)
    (n : Nat) : T.splitWithin placement (n + 1) t = T.splitWithin placement 1 t := by
  cases t with
  | union ms => exact absurd rfl (hu ms)
  | named kind name args =>
    cases kind with
    | aliasOf => simp only [splitWithin, splitWith, he]
    | _ => rfl
  | _ => rfl

/-- With an `untyped` leaf, both sides are `untyped`. -/
theorem splitWithin_eq_untyped (hplace : placement .untyped = .both) {n k : Nat} {t : Ty}
    (hopen : OpensIn T n t) (hnk : n < k) (hun : Leaf T t .untyped) :
    T.splitWithin placement k t = (.untyped, .untyped) := by
  induction hopen generalizing k with
  | @union n ms _ ih =>
    obtain ⟨m, hm, hun⟩ := leaf_union_iff.mp hun
    have hside : ∀ side : Ty × Ty → Ty, side (.untyped, .untyped) = .untyped →
        Ty.unionOf (ms.map fun m => side (T.splitWithin placement k m)) = .untyped := by
      intro side hside
      refine Ty.unionOf_eq_untyped (List.mem_flatMap.mpr ⟨.untyped, ?_, List.mem_singleton.mpr rfl⟩)
      exact List.mem_map.mpr ⟨m, hm, by rw [ih m hm hnk hun, hside]⟩
    rw [splitWithin_union, hside Prod.fst rfl, hside Prod.snd rfl]
  | expansion he _ ih =>
    obtain ⟨k, rfl⟩ : ∃ k', k = k' + 1 := ⟨k - 1, by omega⟩
    rw [splitWithin_of_expansion he]
    exact ih (by omega) ((leaf_iff_of_expansion he).mp hun)
  | leaf hu he =>
    obtain ⟨k, rfl⟩ : ∃ k', k = k' + 1 := ⟨k - 1, by omega⟩
    obtain ⟨rfl, -⟩ := (leaf_iff_of_none hu he).mp hun
    simp only [splitWithin, splitWith, place, hplace]

/-- Each side of a split has the leaves that the leaves of the type contribute to it. -/
theorem gathers_splitWithin (hT : T.TypesWellFormed) {side : Ty × Ty → Ty}
    (hside : side = Prod.fst ∨ side = Prod.snd) {n k : Nat} {t : Ty} (hopen : OpensIn T n t)
    (hnk : n < k) (ht : t.WellFormed)
    (hun : ∀ l, Leaf T t l → ¬ Leaf T (side (T.splitWithin placement 1 l)) .untyped) :
    Gathers T (fun l => side (T.splitWithin placement 1 l)) t
      (side (T.splitWithin placement k t)) := by
  have hwf : ∀ {u : Ty}, u.WellFormed → (side (T.splitWithin placement 1 u)).WellFormed := by
    intro u hu
    have hsides : BothSides Ty.WellFormed (T.splitWithin placement 1 u) :=
      hT.handsDown.bothSides_splitWithin 1 hu
    rcases hside with rfl | rfl
    · exact hsides.1
    · exact hsides.2
  induction hopen generalizing k with
  | @union n ms _ ih =>
    have hjoin : side (T.splitWithin placement k (.union ms)) =
        Ty.unionOf (ms.map fun m => side (T.splitWithin placement k m)) := by
      rw [splitWithin_union]
      rcases hside with rfl | rfl <;> rfl
    rw [hjoin]
    exact .of_members hT hun fun m hm =>
      ih m hm hnk (ht.part hm) fun l hl => hun l (.member hm hl)
  | expansion he _ ih =>
    obtain ⟨k, rfl⟩ : ∃ k', k = k' + 1 := ⟨k - 1, by omega⟩
    rw [splitWithin_of_expansion he]
    exact .of_expansion he
      (ih (by omega) (wellFormed_of_expansion? hT ht he) fun l hl => hun l (.expansion he hl))
  | @leaf n t hu he =>
    obtain ⟨k, rfl⟩ : ∃ k', k = k' + 1 := ⟨k - 1, by omega⟩
    rw [splitWithin_of_leaf hu he]
    refine .of_leaf hT hu he (hwf ht) ?_
    rintro rfl
    have hbot : T.splitWithin placement 1 .bot = (.bot, .bot) := by
      simp only [splitWithin, splitWith, place]
      split <;> rfl
    rw [hbot]
    rcases hside with rfl | rfl <;> rfl

end Leaves

/-! ## What a leaf contributes -/

theorem grain_iff_of_leaf {t g : Ty} (hu : ∀ ms, t ≠ .union ms) (hb : t ≠ .bot)
    (he : T.expansion? t = none) : Grain T t g ↔ g ∈ t.grains :=
  Leaf.grain_iff (.self hu hb he)

/-- A leaf is split through the boolean literals, kept on both sides, or placed. -/
theorem Leaf.splitWithin_cases (placement : Ty → Placement) {t l : Ty} (h : Leaf T t l) :
    (l.grains = Ty.bool.grains ∧ T.splitWithin placement 1 l = placeBool placement) ∨
      (Undeclared T l ∧ T.splitWithin placement 1 l = (l, l)) ∨
      (l.grains = [l] ∧ ¬ Undeclared T l ∧ T.splitWithin placement 1 l = place placement l) := by
  cases l with
  | union ms => exact absurd rfl (h.isLeaf.1 ms)
  | bool => exact Or.inl ⟨rfl, rfl⟩
  | logic question => exact Or.inl ⟨rfl, rfl⟩
  | named kind name args =>
    cases kind with
    | aliasOf =>
      refine Or.inr (Or.inl ⟨⟨name, args, rfl, h.alias?_eq_none⟩, ?_⟩)
      simp only [splitWithin, splitWith, h.isLeaf.2.2]
    | _ => exact Or.inr (Or.inr ⟨rfl, by simp [Undeclared], rfl⟩)
  | _ => exact Or.inr (Or.inr ⟨rfl, by simp [Undeclared], rfl⟩)

theorem Undeclared.grains_eq {t : Ty} (h : Undeclared T t) : t.grains = [t] := by
  obtain ⟨name, args, rfl, -⟩ := h
  rfl

theorem not_uncertain_literal (value : Literal) : ¬ Uncertain T (.literal value) := by
  simp [Uncertain, Undeclared]

/-- Apart from `untyped` and aliases, what is uncertain is what is not decided. -/
theorem uncertain_iff {t : Ty} (hun : t ≠ .untyped) (hno : ¬ Undeclared T t) :
    Uncertain T t ↔ isUndecided t = true := by
  rw [isUndecided_iff, Uncertain]
  simp [hun, hno]

theorem grain_literal_iff {value : Literal} {g : Ty} :
    Grain T (.literal value) g ↔ g = .literal value :=
  (grain_iff_of_leaf (by simp) (by simp) rfl).trans List.mem_singleton

/-- Literals that are joined as a boolean stand for the same. -/
theorem grain_fuseBool {t f g : Ty} (ht : t = .trueType ∨ t = .bot)
    (hf : f = .falseType ∨ f = .bot) :
    Grain T (fuseBool (Ty.unionOf [t, f])) g ↔ Grain T t g ∨ Grain T f g := by
  have hbot : ¬ Grain T .bot g := not_grain_bot g
  rcases ht with rfl | rfl <;> rcases hf with rfl | rfl
  · have hfused : fuseBool (Ty.unionOf [.trueType, .falseType]) = .bool := rfl
    have hbool : Grain T .bool g ↔ g ∈ Ty.bool.grains := grain_iff_of_leaf (by simp) (by simp) rfl
    rw [hfused, hbool]
    simp [Ty.grains, Ty.trueType, Ty.falseType, grain_literal_iff]
  · have hfused : fuseBool (Ty.unionOf [.trueType, .bot]) = .trueType := rfl
    rw [hfused, or_iff_left hbot]
  · have hfused : fuseBool (Ty.unionOf [.bot, .falseType]) = .falseType := rfl
    rw [hfused, or_iff_right hbot]
  · have hfused : fuseBool (Ty.unionOf [.bot, .bot]) = .bot := rfl
    rw [hfused, or_self]

namespace Picks

variable {placement : Ty → Placement} {picked : Ty → Prop} (h : Picks placement picked)

include h

theorem place_literal_cases (value : Literal) :
    (place placement (.literal value) = (.literal value, .bot) ∧ ¬ picked (.literal value)) ∨
      (place placement (.literal value) = (.bot, .literal value) ∧ picked (.literal value)) := by
  unfold place
  cases hplace : placement (.literal value) with
  | left =>
    refine Or.inl ⟨rfl, fun hpicked => ?_⟩
    cases hplace.symm.trans ((h.right_iff _).mpr hpicked)
  | right => exact Or.inr ⟨rfl, (h.right_iff _).mp hplace⟩
  | both => cases (h.both_iff _).mp hplace

theorem grain_place_literal (value : Literal) (g : Ty) :
    (Grain T (place placement (.literal value)).1 g ↔ g = .literal value ∧ ¬ picked g) ∧
      (Grain T (place placement (.literal value)).2 g ↔ g = .literal value ∧ picked g) := by
  have hbot : ¬ Grain T .bot g := not_grain_bot g
  rcases h.place_literal_cases value with ⟨hplace, hpicked⟩ | ⟨hplace, hpicked⟩ <;>
    rw [hplace, grain_literal_iff] <;> grind

/-- The literals of a boolean are split, whether or not they are joined again. -/
theorem grain_placeBool (g : Ty) :
    (Grain T (placeBool placement).1 g ↔ g ∈ Ty.bool.grains ∧ ¬ picked g) ∧
      (Grain T (placeBool placement).2 g ↔ g ∈ Ty.bool.grains ∧ picked g) := by
  have hmem : g ∈ Ty.bool.grains ↔ g = .trueType ∨ g = .falseType := by simp [Ty.grains]
  have hsides : ∀ value, BothSides (fun t => t = .literal value ∨ t = .bot)
      (place placement (.literal value)) := by
    intro value
    rcases h.place_literal_cases value with ⟨hplace, -⟩ | ⟨hplace, -⟩ <;> simp [hplace, BothSides]
  obtain ⟨htrue₁, htrue₂⟩ := h.grain_place_literal (T := T) (.boolean true) g
  obtain ⟨hfalse₁, hfalse₂⟩ := h.grain_place_literal (T := T) (.boolean false) g
  rw [hmem, or_and_right, or_and_right]
  constructor
  · exact (grain_fuseBool (hsides _).1 (hsides _).1).trans (or_congr htrue₁ hfalse₁)
  · exact (grain_fuseBool (hsides _).2 (hsides _).2).trans (or_congr htrue₂ hfalse₂)

/-- A leaf contributes to the left side what is not picked out. -/
theorem grain_left {t l : Ty} (hl : Leaf T t l) (g : Ty) :
    Grain T (T.splitWithin placement 1 l).1 g ↔ g ∈ l.grains ∧ ¬ picked g := by
  rcases hl.splitWithin_cases placement with
    ⟨hgrains, hsplit⟩ | ⟨hno, hsplit⟩ | ⟨hgrains, -, hsplit⟩
  · rw [hsplit, hgrains]
    exact (h.grain_placeBool g).1
  · rw [hsplit, hl.grain_iff, hno.grains_eq, List.mem_singleton]
    obtain ⟨name, args, rfl, -⟩ := hno
    exact ⟨fun hg => ⟨hg, hg ▸ h.not_alias name args⟩, And.left⟩
  · have hpicked := h.right_iff l
    rw [hsplit, hgrains, List.mem_singleton, place]
    cases hp : placement l with
    | right =>
      refine iff_of_false (not_grain_bot g) ?_
      rintro ⟨rfl, hno⟩
      exact hno (hpicked.mp hp)
    | _ =>
      rw [hp] at hpicked
      simp only [hl.grain_iff, hgrains, List.mem_singleton, iff_self_and]
      rintro rfl hpick
      cases hpicked.mpr hpick

/-- A leaf contributes to the right side what is picked out and what is uncertain. -/
theorem grain_right {t l : Ty} (hl : Leaf T t l) (hun : l ≠ .untyped) (g : Ty) :
    Grain T (T.splitWithin placement 1 l).2 g ↔ g ∈ l.grains ∧ (picked g ∨ Uncertain T g) := by
  rcases hl.splitWithin_cases placement with
    ⟨hgrains, hsplit⟩ | ⟨hno, hsplit⟩ | ⟨hgrains, hdecl, hsplit⟩
  · rw [hsplit, hgrains, (h.grain_placeBool g).2]
    have hcertain : g ∈ Ty.bool.grains → ¬ Uncertain T g := by
      intro hg
      rcases List.mem_pair.mp hg with rfl | rfl <;> exact not_uncertain_literal _
    grind
  · rw [hsplit, hl.grain_iff, hno.grains_eq, List.mem_singleton]
    refine ⟨?_, And.left⟩
    rintro rfl
    exact ⟨rfl, Or.inr (Or.inr (Or.inr (Or.inr (Or.inr hno))))⟩
  · have hpicked := h.right_iff l
    have huncertain := (uncertain_iff hun hdecl).trans (h.both_iff l).symm
    rw [hsplit, hgrains, List.mem_singleton, place]
    cases hp : placement l with
    | left =>
      rw [hp] at hpicked huncertain
      refine iff_of_false (not_grain_bot g) ?_
      rintro ⟨rfl, hpick | hunc⟩
      · cases hpicked.mpr hpick
      · cases huncertain.mp hunc
    | right =>
      simp only [hl.grain_iff, hgrains, List.mem_singleton, iff_self_and]
      rintro rfl
      exact Or.inl (hpicked.mp hp)
    | both =>
      simp only [hl.grain_iff, hgrains, List.mem_singleton, iff_self_and]
      rintro rfl
      exact Or.inr (huncertain.mpr hp)

end Picks

/-! ## Exact splits -/

/-- What is gathered has, up to equality, the grains that the leaves contribute. -/
theorem Gathers.sameTypes_grain {share : Ty → Ty} {t s : Ty} {keeps : Ty → Prop}
    (h : Gathers T share t s)
    (hshare : ∀ l, Leaf T t l → ∀ g, Grain T (share l) g ↔ g ∈ l.grains ∧ keeps g) :
    Ty.SameTypes (Grain T s) fun g => Grain T t g ∧ keeps g := by
  constructor
  · rintro g ⟨l, hl, hg⟩
    obtain ⟨k, hk, hkl⟩ := h.exists_share l hl
    obtain ⟨hgk, hkeeps⟩ := (hshare k hk g).mp ⟨l, hkl, hg⟩
    exact ⟨g, ⟨⟨k, hk, hgk⟩, hkeeps⟩, Ty.beq_refl g⟩
  · rintro g ⟨⟨k, hk, hgk⟩, hkeeps⟩
    obtain ⟨l, hkl, hg⟩ := (hshare k hk g).mpr ⟨hgk, hkeeps⟩
    obtain ⟨l', hsame, hl'⟩ := h.exists_leaf k l hk hkl
    obtain ⟨g', hg', hbeq⟩ := hsame.exists_grain hg
    exact ⟨g', ⟨l', hl', hg'⟩, hbeq⟩

/-- How a type is split into what is picked out and the rest.  An `untyped` leaf leaves nothing
known on both sides.  Otherwise the rest has exactly the leaves that are not picked out, and the
part picked out exactly those that are and those that may hold any value. -/
structure ExactSplit (T : Table) (picked : Ty → Prop) (t rest part : Ty) : Prop where
  untyped : Grain T t .untyped → rest = .untyped ∧ part = .untyped
  rest : ¬ Grain T t .untyped → Ty.SameTypes (Grain T rest) fun g => Grain T t g ∧ ¬ picked g
  part : ¬ Grain T t .untyped →
    Ty.SameTypes (Grain T part) fun g => Grain T t g ∧ (picked g ∨ Uncertain T g)

section Exact

variable (hT : T.TypesWellFormed) {placement : Ty → Placement} {picked : Ty → Prop}
  (h : Picks placement picked) {n k : Nat} {t : Ty} (hopen : OpensIn T n t) (hnk : n < k)
  (ht : t.WellFormed)

include hT h hopen hnk ht

theorem Picks.gathers_left (hun : ¬ Grain T t .untyped) :
    Gathers T (fun l => (T.splitWithin placement 1 l).1) t (T.splitWithin placement k t).1 := by
  refine gathers_splitWithin hT (Or.inl rfl) hopen hnk ht fun l hl huntyped => ?_
  exact hun ⟨l, hl, ((h.grain_left hl _).mp (grain_untyped_iff.mpr huntyped)).1⟩

theorem Picks.gathers_right (hun : ¬ Grain T t .untyped) :
    Gathers T (fun l => (T.splitWithin placement 1 l).2) t (T.splitWithin placement k t).2 := by
  refine gathers_splitWithin hT (Or.inr rfl) hopen hnk ht fun l hl huntyped => ?_
  have hne : l ≠ .untyped := by
    rintro rfl
    exact hun (grain_untyped_iff.mpr hl)
  exact hun ⟨l, hl, ((h.grain_right hl hne _).mp (grain_untyped_iff.mpr huntyped)).1⟩

/-- A placement that picks out some types splits exactly, if it may look through more aliases than
are inside each other. -/
theorem Picks.exactSplit :
    ExactSplit T picked t (T.splitWithin placement k t).1 (T.splitWithin placement k t).2 where
  untyped hun := by
    rw [splitWithin_eq_untyped ((h.both_iff _).mpr rfl) hopen hnk (grain_untyped_iff.mp hun)]
    exact ⟨rfl, rfl⟩
  rest hun := (h.gathers_left hT hopen hnk ht hun).sameTypes_grain fun l hl => h.grain_left hl
  part hun := by
    refine (h.gathers_right hT hopen hnk ht hun).sameTypes_grain fun l hl => h.grain_right hl ?_
    rintro rfl
    exact hun (grain_untyped_iff.mpr hl)

end Exact

/-- Splits by truth and by `nil` are exact: no leaf is lost, doubled or on the wrong side, for every
type with fewer than 64 aliases inside each other. -/
theorem splitByTruth_splitByNil_exact (hT : T.Built) {t : Ty} (ht : t.Built) {n : Nat}
    (hopen : OpensIn T n t) (hn : n < 64) :
    ExactSplit T IsFalsy t (T.splitByTruth t).1 (T.splitByTruth t).2 ∧
      ExactSplit T IsNil t (T.splitByNil t).2 (T.splitByNil t).1 :=
  ⟨picks_truthPlacement.exactSplit hT.typesWellFormed hopen hn ht.wellFormed,
    picks_nilPlacement.exactSplit hT.typesWellFormed hopen hn ht.wellFormed⟩

/-! ### A switch that may be missing -/

/-- An alias for what may be `nil`. -/
def switches : Table where
  aliases := [
    (⟨"::maybe"⟩, { name := ⟨"::maybe"⟩, typeParams := [{ name := "T" }],
                    body := .union [.var "T", .nil] })]

/-- A boolean that may be missing, an instance of the class of `false`, a variable, and an alias
that is not declared. -/
def switchType : Ty :=
  .union [.named .aliasOf ⟨"::maybe"⟩ [.bool], .ofClass .falseClass, .var "T",
    .named .aliasOf ⟨"::lost"⟩ []]

theorem grain_switchType_iff {g : Ty} :
    switches.Grain switchType g ↔
      g = .trueType ∨ g = .falseType ∨ g = .nil ∨ g = .ofClass .falseClass ∨ g = .var "T" ∨
        g = .named .aliasOf ⟨"::lost"⟩ [] := by
  have hmaybe : switches.expansion? (.named .aliasOf ⟨"::maybe"⟩ [.bool]) =
      some (.union [.bool, .nil]) := rfl
  have hleaf : ∀ l, switches.Leaf switchType l ↔
      l ∈ [.bool, .nil, .ofClass .falseClass, .var "T", .named .aliasOf ⟨"::lost"⟩ []] := by
    intro l
    have hbool : switches.Leaf .bool l ↔ l = .bool := leaf_iff_eq (by simp) (by simp) rfl
    have hnil : switches.Leaf .nil l ↔ l = .nil := leaf_iff_eq (by simp) (by simp) rfl
    have hfalse : switches.Leaf (.ofClass .falseClass) l ↔ l = .ofClass .falseClass :=
      leaf_iff_eq (by simp [Ty.ofClass]) (by simp [Ty.ofClass]) rfl
    have hvar : switches.Leaf (.var "T") l ↔ l = .var "T" := leaf_iff_eq (by simp) (by simp) rfl
    have hlost : switches.Leaf (.named .aliasOf ⟨"::lost"⟩ []) l ↔
        l = .named .aliasOf ⟨"::lost"⟩ [] := leaf_iff_eq (by simp) (by simp) rfl
    simp [switchType, leaf_union_iff, leaf_iff_of_expansion hmaybe, hbool, hnil, hfalse, hvar,
      hlost, or_assoc]
  simp [Grain, hleaf, Ty.grains, Ty.ofClass, or_assoc]

/-- The boolean is taken apart by truth and kept by `nil`. -/
theorem splits_of_switchType :
    switches.Built ∧ switchType.Built ∧ OpensIn switches 1 switchType ∧
      Ty.SameTypes (switches.Grain (switches.splitByTruth switchType).1) (fun g =>
        g = .trueType ∨ g = .var "T" ∨ g = .named .aliasOf ⟨"::lost"⟩ []) ∧
      Ty.SameTypes (switches.Grain (switches.splitByTruth switchType).2) (fun g =>
        g = .falseType ∨ g = .nil ∨ g = .ofClass .falseClass ∨ g = .var "T" ∨
          g = .named .aliasOf ⟨"::lost"⟩ []) ∧
      Ty.SameTypes (switches.Grain (switches.splitByNil switchType).1) (fun g =>
        g = .nil ∨ g = .var "T" ∨ g = .named .aliasOf ⟨"::lost"⟩ []) ∧
      Ty.SameTypes (switches.Grain (switches.splitByNil switchType).2) (fun g =>
        g = .trueType ∨ g = .falseType ∨ g = .ofClass .falseClass ∨ g = .var "T" ∨
          g = .named .aliasOf ⟨"::lost"⟩ []) := by
  have hT : switches.Built := by
    have haliases : ∀ e ∈ switches.aliases, e.2.body.WellFormed := by decide
    exact ⟨by simp [switches], fun e he => Ty.built_iff_wellFormed.mpr (haliases e he)⟩
  have ht : switchType.Built := Ty.built_iff_wellFormed.mpr (by decide)
  have hopen : OpensIn switches 1 switchType := by decide
  have hun : ¬ switches.Grain switchType .untyped := by
    simp [grain_switchType_iff, Ty.trueType, Ty.falseType, Ty.ofClass]
  have huncertain : ∀ g, switches.Grain switchType g →
      (Uncertain switches g ↔ g = .var "T" ∨ g = .named .aliasOf ⟨"::lost"⟩ []) := by
    intro g hg
    have hlost : switches.alias? ⟨"::lost"⟩ = none := rfl
    rcases grain_switchType_iff.mp hg with rfl | rfl | rfl | rfl | rfl | rfl <;>
      simp [Uncertain, Undeclared, Ty.trueType, Ty.falseType, Ty.ofClass, hlost]
  have hfalsy : ∀ g, switches.Grain switchType g →
      (IsFalsy g ↔ g = .falseType ∨ g = .nil ∨ g = .ofClass .falseClass) := by
    intro g hg
    rcases grain_switchType_iff.mp hg with rfl | rfl | rfl | rfl | rfl | rfl <;>
      simp [IsFalsy, IsNil, Ty.trueType, Ty.falseType, Ty.ofClass]
  have hisNil : ∀ g, switches.Grain switchType g → (IsNil g ↔ g = .nil) := by
    intro g hg
    rcases grain_switchType_iff.mp hg with rfl | rfl | rfl | rfl | rfl | rfl <;>
      simp [IsNil, Ty.trueType, Ty.falseType, Ty.ofClass, TypeName.nilClass, TypeName.falseClass]
  obtain ⟨htruth, hnil⟩ := splitByTruth_splitByNil_exact hT ht hopen (by decide)
  have htruthy : ∀ g, switches.Grain switchType g ∧ ¬ IsFalsy g ↔
      g = .trueType ∨ g = .var "T" ∨ g = .named .aliasOf ⟨"::lost"⟩ [] := by
    grind [grain_switchType_iff, Ty.trueType, Ty.falseType, Ty.ofClass]
  have hfalse : ∀ g, switches.Grain switchType g ∧ (IsFalsy g ∨ Uncertain switches g) ↔
      g = .falseType ∨ g = .nil ∨ g = .ofClass .falseClass ∨ g = .var "T" ∨
        g = .named .aliasOf ⟨"::lost"⟩ [] := by
    grind [grain_switchType_iff]
  have hpart : ∀ g, switches.Grain switchType g ∧ (IsNil g ∨ Uncertain switches g) ↔
      g = .nil ∨ g = .var "T" ∨ g = .named .aliasOf ⟨"::lost"⟩ [] := by
    grind [grain_switchType_iff]
  have hrest : ∀ g, switches.Grain switchType g ∧ ¬ IsNil g ↔
      g = .trueType ∨ g = .falseType ∨ g = .ofClass .falseClass ∨ g = .var "T" ∨
        g = .named .aliasOf ⟨"::lost"⟩ [] := by
    grind [grain_switchType_iff, Ty.trueType, Ty.falseType, Ty.ofClass]
  simp only [← htruthy, ← hfalse, ← hpart, ← hrest]
  exact ⟨hT, ht, hopen, htruth.rest hun, htruth.part hun, hnil.part hun, hnil.rest hun⟩

end Table
end TypeShape
