import TypeShape.Proofs.Budget
import TypeShape.Proofs.Split.Truth

/-!
# Falsy values and the hierarchy

A split by truth tells by the form of a leaf whether it can be `nil` or `false`, and subtyping by
the declared hierarchy.  The two differ on one kind of leaf: an application of a class, module or
interface other than the classes of the two values counts as true, although `nil` and `false` are
below it if their classes are.

Main results:

- Theorem `Table.FalsyValue.form_above`: the forms of the types above `nil` and `false`.
- Theorem `Table.FalsyValue.exists_leaf`: what is above one of them has such a leaf.
- Theorem `Table.splitByTruth_hides_otherClass`: what the falsy part keeps of the types above `nil`
  and `false`, and what it loses.
-/

namespace TypeShape
namespace Table

variable {T : Table}

/-- The two types whose values count as false. -/
def FalsyValue (x : Ty) : Prop :=
  x = .nil ∨ x = .falseType

/-- An application of a class, module or interface, but not of the classes of `nil` and `false`. -/
def OtherClass (t : Ty) : Prop :=
  (∃ kind name args, t = .named kind name args ∧ kind ≠ .aliasOf) ∧ ¬ IsFalsy t

/-! ## Types above a falsy value -/

/-- The forms of the types above an instance of a class. -/
theorem form_above_ofClass {n : Nat} {name : TypeName} {t : Ty}
    (h : T.isSubtypeWithin n (.ofClass name) t = true) :
    isCeiling t = true ∨ (∃ ms, t = .inter ms) ∨ (∃ ms, t = .union ms) ∨
      (∃ kind target args, t = .named kind target args) ∨ t = .bool ∨ t = .nil := by
  cases n with
  | zero =>
    obtain ⟨args, rfl⟩ := Ty.eq_named_of_head (Ty.head_eq_of_beq h).symm
    exact Or.inr (Or.inr (Or.inr (Or.inl ⟨_, _, _, rfl⟩)))
  | succ n =>
    cases t with
    | untyped | top | void => exact Or.inl rfl
    | inter ms => exact Or.inr (Or.inl ⟨ms, rfl⟩)
    | union ms => exact Or.inr (Or.inr (Or.inl ⟨ms, rfl⟩))
    | named kind target args => exact Or.inr (Or.inr (Or.inr (Or.inl ⟨_, _, _, rfl⟩)))
    | bool => simp
    | nil => simp
    | _ => cases h

namespace FalsyValue

variable {x : Ty} (hx : FalsyValue x)

include hx

theorem isAtom : x.isAtom = true := by
  rcases hx with rfl | rfl <;> rfl

theorem isFalsy : IsFalsy x := by
  rcases hx with rfl | rfl <;> simp [IsFalsy, IsNil]

/-- The forms of the types above `nil` or `false`. -/
theorem form_above {n : Nat} {t : Ty} (h : T.isSubtypeWithin n x t = true) :
    t = x ∨ isCeiling t = true ∨ (∃ ms, t = .inter ms) ∨ (∃ ms, t = .union ms) ∨
      (∃ kind name args, t = .named kind name args) ∨ (x = .falseType ∧ t = .bool) := by
  by_cases hbeq : (x == t) = true
  · exact Or.inl (Ty.eq_of_head_of_isAtom hx.isAtom (Ty.head_eq_of_beq hbeq).symm)
  cases n with
  | zero => exact absurd h hbeq
  | succ n =>
    rw [isSubtypeWithin, Bool.or_eq_true] at h
    replace h := h.resolve_left hbeq
    -- Against a single type that differs from it, a value is compared through its class.
    have hclass : ∀ {name}, T.isSubtypeWithin n (.ofClass name) t = true → t ≠ .bool → t ≠ .nil →
        isCeiling t = true ∨ (∃ ms, t = .inter ms) ∨ (∃ ms, t = .union ms) ∨
          ∃ kind name args, t = .named kind name args := by
      intro name hbelow hbool hnil
      simpa [hbool, hnil] using form_above_ofClass hbelow
    cases t with
    | untyped | top | void => simp [isCeiling]
    | inter | union | named => simp
    | bool =>
      rcases hx with rfl | rfl
      · cases h
      · simp
    | nil =>
      rcases hx with rfl | rfl
      · simp
      · cases h
    | literal value =>
      rcases hx with rfl | rfl
      · simpa using hclass h
      · cases h
    | _ =>
      rcases hx with rfl | rfl
      · simpa [isCeiling] using hclass h
      · simpa [isCeiling] using hclass h

/-! ## Leaves above a falsy value -/

theorem isSubtypeWithin_union {n : Nat} {ms : List Ty} :
    T.isSubtypeWithin (n + 1) x (.union ms) = true ↔
      ∃ m ∈ ms, T.isSubtypeWithin n x m = true := by
  rw [← List.any_eq_true]
  rcases hx with rfl | rfl <;> rfl

theorem isSubtypeWithin_of_expansion {n : Nat} {t e : Ty} (he : T.expansion? t = some e) :
    T.isSubtypeWithin (n + 1) x t = T.isSubtypeWithin n x e := by
  obtain ⟨name, args, rfl⟩ := exists_alias_of_expansion? he
  rcases hx with rfl | rfl <;>
    simp [isSubtypeWithin, rule, isCeiling, isFloor, aliasRule, he, Ty.falseType, BEq.beq, Ty.beq]

/-- What is above a falsy value has a leaf that is.  Only unions and aliases are between the two,
and each of them costs a unit of the budget. -/
theorem exists_leaf {n : Nat} {t : Ty} (h : T.isSubtypeWithin n x t = true) :
    ∃ l k, Leaf T t l ∧ T.isSubtypeWithin k x l = true ∧ (l = t ∧ k = n ∨ k < n) := by
  induction n generalizing t with
  | zero =>
    obtain rfl := Ty.eq_of_head_of_isAtom hx.isAtom (Ty.head_eq_of_beq h).symm
    refine ⟨t, 0, ?_, h, Or.inl ⟨rfl, rfl⟩⟩
    rcases hx with rfl | rfl <;> exact .self (by simp [Ty.falseType]) (by simp [Ty.falseType]) rfl
  | succ n ih =>
    by_cases hu : ∃ ms, t = .union ms
    · obtain ⟨ms, rfl⟩ := hu
      obtain ⟨m, hm, hbelow⟩ := hx.isSubtypeWithin_union.mp h
      obtain ⟨l, k, hl, hk, hcase⟩ := ih hbelow
      exact ⟨l, k, .member hm hl, hk, Or.inr (by omega)⟩
    · cases he : T.expansion? t with
      | some e =>
        rw [hx.isSubtypeWithin_of_expansion he] at h
        obtain ⟨l, k, hl, hk, hcase⟩ := ih h
        exact ⟨l, k, .expansion he hl, hk, Or.inr (by omega)⟩
      | none =>
        refine ⟨t, n + 1, .self (fun ms heq => hu ⟨ms, heq⟩) ?_ he, h, Or.inl ⟨rfl, rfl⟩⟩
        rintro rfl
        have hform := hx.form_above h
        rcases hx with rfl | rfl <;> simp [isCeiling, Ty.falseType] at hform

/-- A leaf above a falsy value stands for one that is: `false` is below both booleans. -/
theorem exists_grain {n : Nat} {l : Ty} (h : T.isSubtypeWithin n x l = true) :
    ∃ g ∈ l.grains, T.isSubtypeWithin n x g = true := by
  by_cases hbool : l = .bool
  · have hfalse : x = .falseType := by
      rcases hx with rfl | rfl
      · have hform := (FalsyValue.form_above (Or.inl rfl) h)
        simp [hbool, isCeiling, Ty.falseType] at hform
      · rfl
    refine ⟨.falseType, by simp [hbool, Ty.grains], ?_⟩
    rw [hfalse]
    exact isSubtypeWithin_mono (Nat.zero_le n) _ _ (Ty.beq_refl _)
  · refine ⟨l, ?_, h⟩
    have hlogic : ∀ question, l ≠ .logic question := by
      rintro question rfl
      have hform := hx.form_above h
      rcases hx with rfl | rfl <;> simp [isCeiling, Ty.falseType] at hform
    simp [Ty.grains_eq_singleton hbool hlogic]

end FalsyValue

/-! ## The falsy part -/

theorem placeBool_truthPlacement : placeBool truthPlacement = (.trueType, .falseType) :=
  rfl

theorem isUndecided_of_isCeiling {t : Ty} (h : isCeiling t = true) : isUndecided t = true := by
  cases t with
  | untyped | top | void => rfl
  | _ => cases h

theorem not_otherClass_of_isUndecided {t : Ty} (h : isUndecided t = true) : ¬ OtherClass t := by
  rintro ⟨⟨kind, name, args, rfl, -⟩, -⟩
  cases h

theorem Undeclared.not_otherClass {t : Ty} (h : Undeclared T t) : ¬ OtherClass t := by
  obtain ⟨name, args, rfl, -⟩ := h
  rintro ⟨⟨kind, name', args', heq, hkind⟩, -⟩
  cases heq
  exact hkind rfl

/-- The falsy part of a leaf has what the leaf stands for, but no other class. -/
theorem Leaf.mem_grains_of_falsy {t l p : Ty} (hl : Leaf T t l)
    (hp : Leaf T (T.splitWithin truthPlacement 1 l).2 p) : p ∈ l.grains ∧ ¬ OtherClass p := by
  rcases hl.splitWithin_cases truthPlacement with
    ⟨hgrains, hsplit⟩ | ⟨hno, hsplit⟩ | ⟨hgrains, -, hsplit⟩
  · rw [hsplit, placeBool_truthPlacement] at hp
    obtain rfl := (leaf_iff_eq (by simp [Ty.falseType]) (by simp [Ty.falseType]) rfl).mp hp
    refine ⟨?_, by simp [OtherClass, Ty.falseType]⟩
    rw [hgrains]
    simp [Ty.grains]
  · rw [hsplit] at hp
    obtain rfl := hl.eq_of_leaf hp
    exact ⟨by simp [hno.grains_eq], hno.not_otherClass⟩
  · rw [hsplit, place] at hp
    cases hplace : truthPlacement l with
    | left =>
      rw [hplace] at hp
      exact absurd hp (not_leaf_bot p)
    | right =>
      rw [hplace] at hp
      obtain rfl := hl.eq_of_leaf hp
      have hfalsy : IsFalsy p := (picks_truthPlacement.right_iff p).mp hplace
      exact ⟨by simp [hgrains], fun hother => hother.2 hfalsy⟩
    | both =>
      rw [hplace] at hp
      obtain rfl := hl.eq_of_leaf hp
      exact ⟨by simp [hgrains],
        not_otherClass_of_isUndecided ((picks_truthPlacement.both_iff p).mp hplace)⟩

/-- The falsy part is made of leaves. -/
theorem madeOf_falsy {n k : Nat} {t : Ty} (hopen : OpensIn T n t) (hnk : n < k) :
    Ty.MadeOf (fun p => T.expansion? p = none) (T.splitWithin truthPlacement k t).2 := by
  induction hopen generalizing k with
  | union _ ih =>
    rw [splitWithin_union]
    refine .unionOf fun u hu => ?_
    obtain ⟨m, hm, rfl⟩ := List.mem_map.mp hu
    exact ih m hm hnk
  | expansion he _ ih =>
    obtain ⟨k, rfl⟩ : ∃ k', k = k' + 1 := ⟨k - 1, by omega⟩
    rw [splitWithin_of_expansion he]
    exact ih (by omega)
  | @leaf n t hu he =>
    obtain ⟨k, rfl⟩ : ∃ k', k = k' + 1 := ⟨k - 1, by omega⟩
    rw [splitWithin_of_leaf hu he]
    by_cases hb : t = .bot
    · subst hb
      exact .bot
    · have hl : Leaf T t t := .self hu hb he
      rcases hl.splitWithin_cases truthPlacement with
        ⟨-, hsplit⟩ | ⟨-, hsplit⟩ | ⟨-, -, hsplit⟩ <;> rw [hsplit]
      · exact .of_part (by simp [placeBool_truthPlacement, Ty.falseType]) rfl
      · exact .of_part hu he
      · unfold place
        split
        · exact .bot
        · exact .of_part hu he
        · exact .of_part hu he

namespace FalsyValue

variable {x : Ty} (hx : FalsyValue x)

include hx

/-- The falsy part of a leaf is above a falsy value if what the leaf stands for is, unless this is
another class. -/
theorem below_falsy {n : Nat} {t l g : Ty} (hl : Leaf T t l) (hg : g ∈ l.grains)
    (hother : ¬ OtherClass g) (h : T.isSubtypeWithin n x g = true) :
    T.isSubtypeWithin n x (T.splitWithin truthPlacement 1 l).2 = true := by
  have hform := hx.form_above h
  rcases hl.splitWithin_cases truthPlacement with
    ⟨hgrains, hsplit⟩ | ⟨hno, hsplit⟩ | ⟨hgrains, hdecl, hsplit⟩
  · rw [hsplit, placeBool_truthPlacement]
    have hfalse : g = .falseType := by
      rw [hgrains] at hg
      rcases List.mem_pair.mp hg with rfl | rfl
      · rcases hx with rfl | rfl <;> simp [isCeiling, Ty.trueType, Ty.falseType] at hform
      · rfl
    exact hfalse ▸ h
  · rw [hno.grains_eq, List.mem_singleton] at hg
    rw [hsplit]
    exact hg ▸ h
  · rw [hgrains, List.mem_singleton] at hg
    subst hg
    have hright := (picks_truthPlacement.right_iff g).mpr
    have hboth := (picks_truthPlacement.both_iff g).mpr
    rw [hsplit, place]
    cases hplace : truthPlacement g with
    | right => exact h
    | both => exact h
    | left =>
      -- Of all types above a falsy value, only applications of classes go to the left alone.
      rw [hplace] at hright hboth
      rcases hform with rfl | hceiling | ⟨ms, rfl⟩ | ⟨ms, rfl⟩ | ⟨kind, name, args, rfl⟩ | ⟨-, rfl⟩
      · cases hright hx.isFalsy
      · cases hboth (isUndecided_of_isCeiling hceiling)
      · cases hboth rfl
      · exact absurd rfl (hl.isLeaf.1 ms)
      · by_cases hkind : kind = .aliasOf
        · subst hkind
          exact absurd ⟨name, args, rfl, hl.alias?_eq_none⟩ hdecl
        · refine absurd ⟨⟨kind, name, args, rfl, hkind⟩, fun hfalsy => ?_⟩ hother
          cases hright hfalsy
      · cases hgrains

/-- What has a leaf above a falsy value is above it, at the price of one union. -/
theorem below_of_leaf {n : Nat} {s p : Ty} (hs : Ty.MadeOf (fun p => T.expansion? p = none) s)
    (hp : Leaf T s p) (h : T.isSubtypeWithin n x p = true) :
    T.isSubtypeWithin (n + 1) x s = true := by
  by_cases hu : ∃ ms, s = .union ms
  · obtain ⟨ms, rfl⟩ := hu
    obtain ⟨m, hm, hp⟩ := leaf_union_iff.mp hp
    obtain ⟨hu, -, he⟩ := hs.part m hm
    obtain ⟨rfl, -⟩ := (leaf_iff_of_none hu he).mp hp
    exact hx.isSubtypeWithin_union.mpr ⟨p, hm, h⟩
  · have hu' : ∀ ms, s ≠ .union ms := fun ms heq => hu ⟨ms, heq⟩
    have hb : s ≠ .bot := by
      rintro rfl
      exact not_leaf_bot p hp
    have hself : s ∈ s.unionParts := by simp [Ty.unionParts_eq_of_ne hu' hb]
    obtain ⟨rfl, -⟩ := (leaf_iff_of_none hu' (hs.part s hself).2.2).mp hp
    exact isSubtypeWithin_mono (Nat.le_succ n) _ _ h

/-- The falsy part is above a falsy value if a leaf of the type is that is not another class. -/
theorem below_splitByTruth (hT : T.TypesWellFormed) {n k : Nat} {t g : Ty} (ht : t.WellFormed)
    (hopen : OpensIn T n t) (hn : n < splitDepth) (hg : Grain T t g) (hother : ¬ OtherClass g)
    (h : T.isSubtypeWithin k x g = true) :
    T.isSubtypeWithin (k + 1) x (T.splitByTruth t).2 = true := by
  by_cases hun : Grain T t .untyped
  · have huntyped := (picks_truthPlacement.exactSplit hT hopen hn ht).untyped hun
    rw [splitByTruth, huntyped.2]
    exact Bool.or_eq_true_iff.mpr (Or.inr rfl)
  · obtain ⟨l, hl, hgl⟩ := hg
    have hgathers := picks_truthPlacement.gathers_right hT hopen hn ht hun
    obtain ⟨p, k', hp, hbelow, hk'⟩ := hx.exists_leaf (hx.below_falsy hl hgl hother h)
    obtain ⟨p', hsame, hp'⟩ := hgathers.exists_leaf l p hl hp
    refine hx.below_of_leaf (madeOf_falsy hopen hn) hp' ?_
    rw [← isSubtypeWithin_congr hT k x x p p' (.refl ?_) hsame]
    · exact isSubtypeWithin_mono (by omega) _ _ hbelow
    · exact (Ty.normal_of_isAtom hx.isAtom).wellFormed

/-- A falsy value below a type is below its falsy part, or below another class among its leaves. -/
theorem below_splitByTruth_or (hT : T.TypesWellFormed) {n : Nat} {t : Ty} (ht : t.WellFormed)
    (hopen : OpensIn T n t) (hn : n < splitDepth) (h : T.isSubtype x t = true) :
    T.isSubtype x (T.splitByTruth t).2 = true ∨
      ∃ g, Grain T t g ∧ OtherClass g ∧ T.isSubtype x g = true := by
  obtain ⟨l, k, hl, hk, hcase⟩ := hx.exists_leaf h
  obtain ⟨g, hg, hgk⟩ := hx.exists_grain hk
  by_cases hother : OtherClass g
  · refine Or.inr ⟨g, ⟨l, hl, hg⟩, hother, isSubtypeWithin_mono ?_ _ _ hgk⟩
    omega
  · refine Or.inl ?_
    rcases hcase with ⟨rfl, rfl⟩ | hlt
    · -- The type is a leaf, and the falsy part of a leaf is not joined to others.
      obtain ⟨hu, -, he⟩ := hl.isLeaf
      rw [splitByTruth, splitDepth, splitWithin_of_leaf hu he]
      exact hx.below_falsy hl hg hother hgk
    · obtain ⟨k', hk'⟩ : ∃ k', subtypeBudget = k' + 1 := ⟨63, rfl⟩
      rw [isSubtype, hk']
      refine hx.below_splitByTruth hT ht hopen hn ⟨l, hl, hg⟩ hother ?_
      exact isSubtypeWithin_mono (by omega) _ _ hgk

/-- A falsy value below the falsy part is below a leaf of the type that is not another class. -/
theorem exists_of_below_splitByTruth (hT : T.TypesWellFormed) {n : Nat} {t : Ty}
    (ht : t.WellFormed) (hopen : OpensIn T n t) (hn : n < splitDepth)
    (h : T.isSubtype x (T.splitByTruth t).2 = true) :
    ∃ g, Grain T t g ∧ ¬ OtherClass g ∧ T.isSubtype x g = true := by
  by_cases hun : Grain T t .untyped
  · refine ⟨.untyped, hun, not_otherClass_of_isUndecided rfl, ?_⟩
    exact Bool.or_eq_true_iff.mpr (Or.inr rfl)
  · obtain ⟨p, k, hp, hk, hcase⟩ := hx.exists_leaf h
    have hgathers := picks_truthPlacement.gathers_right hT hopen hn ht hun
    obtain ⟨l, hl, hlp⟩ := hgathers.exists_share p hp
    obtain ⟨hmem, hother⟩ := hl.mem_grains_of_falsy hlp
    refine ⟨p, ⟨l, hl, hmem⟩, hother, isSubtypeWithin_mono ?_ _ _ hk⟩
    omega

end FalsyValue

/-- How the falsy part of a type agrees with subtyping.  If `nil` or `false` is below a type, it is
below its falsy part unless another class above it is among the leaves.  It is below the falsy part
only if it is below a leaf of another kind, and it is then, if one unit of the budget is left for
joining this leaf with others. -/
theorem splitByTruth_hides_otherClass (hT : T.Built) {t : Ty} (ht : t.Built) {n : Nat}
    (hopen : OpensIn T n t) (hn : n < 64) {x : Ty} (hx : FalsyValue x) :
    (T.isSubtype x t = true → T.isSubtype x (T.splitByTruth t).2 = true ∨
      ∃ g, Grain T t g ∧ OtherClass g ∧ T.isSubtype x g = true) ∧
    (T.isSubtype x (T.splitByTruth t).2 = true →
      ∃ g, Grain T t g ∧ ¬ OtherClass g ∧ T.isSubtype x g = true) ∧
    ∀ g, Grain T t g → ¬ OtherClass g → T.isSubtypeWithin 63 x g = true →
      T.isSubtype x (T.splitByTruth t).2 = true :=
  ⟨hx.below_splitByTruth_or hT.typesWellFormed ht.wellFormed hopen hn,
    hx.exists_of_below_splitByTruth hT.typesWellFormed ht.wellFormed hopen hn,
    fun _ hg => hx.below_splitByTruth hT.typesWellFormed ht.wellFormed hopen hn hg⟩

/-! ### A value of any class -/

/-- The classes of `nil` and `false` below the root of the hierarchy, and an alias for what is an
instance of the root or `true`. -/
def rooted : Table where
  modules := [
    (.falseClass, { name := .falseClass, kind := .classDecl,
                    superclass := some (.ofClass .object) }),
    (.nilClass, { name := .nilClass, kind := .classDecl,
                  superclass := some (.ofClass .object) }),
    (.object, { name := .object, kind := .classDecl })]
  aliases := [
    (⟨"::value"⟩, { name := ⟨"::value"⟩, body := .union [.ofClass .object, .trueType] })]

theorem grain_rooted_value_iff {g : Ty} :
    rooted.Grain (.named .aliasOf ⟨"::value"⟩ []) g ↔ g = .ofClass .object ∨ g = .trueType := by
  have hvalue : rooted.expansion? (.named .aliasOf ⟨"::value"⟩ []) =
      some (.union [.ofClass .object, .trueType]) := rfl
  have hleaf : ∀ l, rooted.Leaf (.named .aliasOf ⟨"::value"⟩ []) l ↔
      l = .ofClass .object ∨ l = .trueType := by
    intro l
    have hobject : rooted.Leaf (.ofClass .object) l ↔ l = .ofClass .object :=
      leaf_iff_eq (by simp [Ty.ofClass]) (by simp [Ty.ofClass]) rfl
    have htrue : rooted.Leaf .trueType l ↔ l = .trueType :=
      leaf_iff_eq (by simp [Ty.trueType]) (by simp [Ty.trueType]) rfl
    simp [leaf_iff_of_expansion hvalue, leaf_union_iff, hobject, htrue]
  simp [Grain, hleaf, Ty.grains, Ty.ofClass, Ty.trueType]

/-- Both `nil` and `false` are below the type, and neither is below its falsy part. -/
theorem rooted_value_hides_falsy :
    let t : Ty := .named .aliasOf ⟨"::value"⟩ []
    rooted.Built ∧ t.Built ∧ OpensIn rooted 1 t ∧
      ∀ x, FalsyValue x → rooted.isSubtype x t = true ∧
        rooted.isSubtype x (rooted.splitByTruth t).2 = false := by
  intro t
  have hT : rooted.Built := by
    have hmodules : ∀ e ∈ rooted.modules, ∀ t ∈ e.2.parents, t.WellFormed := by decide
    have haliases : ∀ e ∈ rooted.aliases, e.2.body.WellFormed := by decide
    exact ⟨fun e he t ht => Ty.built_iff_wellFormed.mpr (hmodules e he t ht),
      fun e he => Ty.built_iff_wellFormed.mpr (haliases e he)⟩
  have ht : t.Built := Ty.built_iff_wellFormed.mpr (by decide)
  have hopen : OpensIn rooted 1 t := by decide
  have hobject : OtherClass (.ofClass .object) := by
    refine ⟨⟨_, _, _, rfl, by simp⟩, ?_⟩
    simp [IsFalsy, IsNil, Ty.ofClass, Ty.falseType, TypeName.object, TypeName.nilClass,
      TypeName.falseClass]
  refine ⟨hT, ht, hopen, fun x hx => ⟨?_, ?_⟩⟩
  · rcases hx with rfl | rfl <;> decide
  · rw [Bool.eq_false_iff]
    intro hbelow
    obtain ⟨-, hfalsy, -⟩ := splitByTruth_hides_otherClass hT ht hopen (by decide) hx
    obtain ⟨g, hg, hother, hsub⟩ := hfalsy hbelow
    rcases grain_rooted_value_iff.mp hg with rfl | rfl
    · exact hother hobject
    · rcases hx with rfl | rfl <;> revert hsub <;> decide

end Table
end TypeShape
