import TypeShape.Proofs.Declaration.Opening
import TypeShape.Proofs.Split.NormalForm
import TypeShape.Proofs.Subtyping

/-!
# The leaves of a type

The leaves of a type are what is left when its unions are taken apart and its aliases unfolded, over
and over.  Unions drop equal members, so leaves are found again up to equality.  A split takes a
type apart to its leaves, does something to each of them and joins what comes out: each side has the
leaves that the leaves of the type contribute to it.

Main results:

- Theorem `Table.Leaf.congr`: equal types have equal leaves.
- Theorem `Table.exists_leaf_unionOf`: the leaves of a union are those of its members.
- Theorem `Table.Gathers.of_members`: what is gathered from the members of a union is joined.
- Theorem `Table.Separates.andThen`: one separation of leaves after another.
- Theorem `Table.onlyLiteral_equalPart`: what can equal a literal has no leaf but this literal.
-/

namespace TypeShape

/-- Two collections hold the same types, up to equality. -/
def Ty.SameTypes (P Q : Ty → Prop) : Prop :=
  (∀ a, P a → ∃ b, Q b ∧ (a == b) = true) ∧ ∀ b, Q b → ∃ a, P a ∧ (b == a) = true

namespace Table

open Ty (Same)

variable {T : Table}

/-- A leaf of a type: what is left when unions are taken apart and declared aliases unfolded.  The
bottom type has none. -/
inductive Leaf (T : Table) : Ty → Ty → Prop where
  | member {ms : List Ty} {m l : Ty} (hm : m ∈ ms) (h : Leaf T m l) : Leaf T (.union ms) l
  | expansion {t e l : Ty} (he : T.expansion? t = some e) (h : Leaf T e l) : Leaf T t l
  | self {l : Ty} (hu : ∀ ms, l ≠ .union ms) (hb : l ≠ .bot) (he : T.expansion? l = none) :
      Leaf T l l

theorem leaf_union_iff {ms : List Ty} {l : Ty} :
    Leaf T (.union ms) l ↔ ∃ m ∈ ms, Leaf T m l := by
  constructor
  · intro h
    cases h with
    | member hm h => exact ⟨_, hm, h⟩
    | expansion he => cases he
    | self hu => exact absurd rfl (hu ms)
  · rintro ⟨m, hm, h⟩
    exact .member hm h

theorem leaf_iff_of_expansion {t e l : Ty} (he : T.expansion? t = some e) :
    Leaf T t l ↔ Leaf T e l := by
  refine ⟨fun h => ?_, .expansion he⟩
  cases h with
  | member => cases he
  | expansion he' h => exact Option.some.inj (he.symm.trans he') ▸ h
  | self _ _ he' => cases he.symm.trans he'

theorem leaf_iff_of_none {t l : Ty} (hu : ∀ ms, t ≠ .union ms) (he : T.expansion? t = none) :
    Leaf T t l ↔ l = t ∧ t ≠ .bot := by
  constructor
  · intro h
    cases h with
    | member => exact absurd rfl (hu _)
    | expansion he' => cases he.symm.trans he'
    | self _ hb => exact ⟨rfl, hb⟩
  · rintro ⟨rfl, hb⟩
    exact .self hu hb he

theorem leaf_iff_eq {t l : Ty} (hu : ∀ ms, t ≠ .union ms) (hb : t ≠ .bot)
    (he : T.expansion? t = none) : Leaf T t l ↔ l = t := by
  rw [leaf_iff_of_none hu he, and_iff_left hb]

theorem not_leaf_bot (l : Ty) : ¬ Leaf T .bot l := by
  rw [leaf_iff_of_none (by simp) rfl]
  exact fun h => h.2 rfl

/-- A leaf is no union, not the bottom type and no declared alias. -/
theorem Leaf.isLeaf {t l : Ty} (h : Leaf T t l) :
    (∀ ms, l ≠ .union ms) ∧ l ≠ .bot ∧ T.expansion? l = none := by
  induction h with
  | member _ _ ih => exact ih
  | expansion _ _ ih => exact ih
  | self hu hb he => exact ⟨hu, hb, he⟩

/-- A leaf is its own leaf. -/
theorem Leaf.own {t l : Ty} (h : Leaf T t l) : Leaf T l l := by
  obtain ⟨hu, hb, he⟩ := h.isLeaf
  exact .self hu hb he

/-- A leaf has no other leaf. -/
theorem Leaf.eq_of_leaf {t l k : Ty} (h : Leaf T t l) (hk : Leaf T l k) : k = l := by
  obtain ⟨hu, -, he⟩ := h.isLeaf
  exact ((leaf_iff_of_none hu he).mp hk).1

/-- The type is an alias that is not declared. -/
def Undeclared (T : Table) (t : Ty) : Prop :=
  ∃ name args, t = .named .aliasOf name args ∧ T.alias? name = none

/-- An alias is a leaf only if it is not declared. -/
theorem Leaf.alias?_eq_none {t : Ty} {name : TypeName} {args : List Ty}
    (h : Leaf T t (.named .aliasOf name args)) : T.alias? name = none := by
  obtain ⟨-, -, he⟩ := h.isLeaf
  cases hdecl : T.alias? name with
  | none => rfl
  | some decl => simp [expansion?, Table.expansion, hdecl, Except.toOption] at he

theorem exists_expansion_of_same (hT : T.TypesWellFormed) {t u e : Ty} (hs : Same t u)
    (he : T.expansion? t = some e) : ∃ e', T.expansion? u = some e' ∧ Same e e' := by
  have hrel := expansion?_rel hT hs
  rw [he] at hrel
  generalize T.expansion? u = o at hrel
  cases hrel with
  | some hsame => exact ⟨_, rfl, hsame⟩

theorem expansion?_eq_none_of_same (hT : T.TypesWellFormed) {t u : Ty} (hs : Same t u)
    (he : T.expansion? t = none) : T.expansion? u = none := by
  cases hu : T.expansion? u with
  | none => rfl
  | some e =>
    obtain ⟨e', he', -⟩ := exists_expansion_of_same hT hs.symm hu
    cases he.symm.trans he'

theorem wellFormed_of_expansion? (hT : T.TypesWellFormed) {t e : Ty} (ht : t.WellFormed)
    (he : T.expansion? t = some e) : e.WellFormed := by
  obtain ⟨_, _, hsame⟩ := exists_expansion_of_same hT (.refl ht) he
  exact hsame.left

theorem Leaf.wellFormed (hT : T.TypesWellFormed) {t l : Ty} (h : Leaf T t l) (ht : t.WellFormed) :
    l.WellFormed := by
  induction h with
  | member hm _ ih => exact ih (ht.part hm)
  | expansion he _ ih => exact ih (wellFormed_of_expansion? hT ht he)
  | self => exact ht

/-- A split of well-formed types into parts gives well-formed parts. -/
theorem TypesWellFormed.handsDown (hT : T.TypesWellFormed) :
    T.HandsDown Ty.WellFormed Ty.WellFormed where
  member h hm := h.part hm
  expansion := wellFormed_of_expansion? hT
  whole h _ := h
  atom h := (Ty.normal_of_isAtom h).wellFormed
  unionOf := Ty.stable_distinctHere.unionOf

/-- Equal types have equal leaves. -/
theorem Leaf.congr (hT : T.TypesWellFormed) {t u l : Ty} (h : Leaf T t l) (hs : Same t u) :
    ∃ l', Same l l' ∧ Leaf T u l' := by
  induction h generalizing u with
  | member hm _ ih =>
    obtain ⟨ms', rfl⟩ := Ty.eq_union_of_head hs.head_eq
    obtain ⟨m', hm', hsame⟩ := hs.exists_part hm
    obtain ⟨l', hl, hleaf⟩ := ih hsame
    exact ⟨l', hl, .member hm' hleaf⟩
  | expansion he _ ih =>
    obtain ⟨e', he', hsame⟩ := exists_expansion_of_same hT hs he
    obtain ⟨l', hl, hleaf⟩ := ih hsame
    exact ⟨l', hl, .expansion he' hleaf⟩
  | @self l hnot hb he =>
    refine ⟨u, hs, .self ?_ ?_ (expansion?_eq_none_of_same hT hs he)⟩
    · rintro ms rfl
      obtain ⟨ms', rfl⟩ := Ty.eq_union_of_head hs.head_eq.symm
      exact hnot ms' rfl
    · rintro rfl
      exact hb (Ty.eq_bot_of_head hs.head_eq.symm)

/-! ## Leaves of unions -/

theorem leaf_of_mem_unionParts {t u l : Ty} (hu : u ∈ t.unionParts) (h : Leaf T u l) :
    Leaf T t l := by
  rcases Ty.mem_unionParts hu with ⟨rfl, -⟩ | ⟨ms, rfl, hu⟩
  · exact h
  · exact .member hu h

theorem exists_leaf_unionParts {t l : Ty} (h : Leaf T t l) : ∃ u ∈ t.unionParts, Leaf T u l := by
  by_cases hu : ∃ ms, t = .union ms
  · obtain ⟨ms, rfl⟩ := hu
    exact leaf_union_iff.mp h
  · have hb : t ≠ .bot := by
      rintro rfl
      exact not_leaf_bot l h
    refine ⟨t, ?_, h⟩
    rw [Ty.unionParts_eq_of_ne (fun ms heq => hu ⟨ms, heq⟩) hb]
    exact List.mem_singleton.mpr rfl

theorem leaf_collapseUnion_iff {ms : List Ty} {l : Ty} :
    Leaf T (Ty.collapseUnion ms) l ↔ ∃ m ∈ ms, Leaf T m l := by
  rcases Ty.collapseUnion_cases ms with ⟨rfl, heq⟩ | ⟨t, rfl, heq⟩ | ⟨-, heq⟩ <;> rw [heq]
  · simp [not_leaf_bot]
  · simp
  · exact leaf_union_iff

/-- The leaves of a union are leaves of its members. -/
theorem exists_of_leaf_unionOf {ts : List Ty} {l : Ty} (h : Leaf T (Ty.unionOf ts) l) :
    ∃ t ∈ ts, Leaf T t l := by
  have hparts : ∃ u ∈ Ty.distinct (ts.flatMap Ty.unionParts), Leaf T u l := by
    rw [Ty.unionOf_eq] at h
    split at h
    · rename_i hany
      obtain ⟨u, hu, hun⟩ := List.any_eq_true.mp hany
      exact ⟨u, hu, Ty.isUntyped_iff.mp hun ▸ h⟩
    · exact leaf_collapseUnion_iff.mp h
  obtain ⟨u, hu, hl⟩ := hparts
  obtain ⟨t, ht, hut⟩ := List.mem_flatMap.mp (Ty.mem_of_mem_distinct hu)
  exact ⟨t, ht, leaf_of_mem_unionParts hut hl⟩

/-- Every leaf of a member is, up to equality, a leaf of the union, if none is `untyped`. -/
theorem exists_leaf_unionOf (hT : T.TypesWellFormed) {ts : List Ty}
    (hwf : ∀ t ∈ ts, t.WellFormed) (hun : ∀ t ∈ ts, ¬ Leaf T t .untyped) {t l : Ty} (ht : t ∈ ts)
    (h : Leaf T t l) : ∃ l', Same l l' ∧ Leaf T (Ty.unionOf ts) l' := by
  have hpart : ∀ u ∈ ts.flatMap Ty.unionParts, u.WellFormed := by
    intro u hu
    obtain ⟨v, hv, huv⟩ := List.mem_flatMap.mp hu
    exact (hwf v hv).unionParts huv
  obtain ⟨u, hu, hl⟩ := exists_leaf_unionParts h
  have hmem : u ∈ ts.flatMap Ty.unionParts := List.mem_flatMap.mpr ⟨t, ht, hu⟩
  obtain ⟨v, hv, hbeq⟩ := Ty.exists_mem_distinct hmem
  have hsame : Same v u := ⟨hpart v (Ty.mem_of_mem_distinct hv), hpart u hmem, hbeq⟩
  obtain ⟨l', hl', hleaf⟩ := hl.congr hT hsame.symm
  refine ⟨l', hl', ?_⟩
  have hnone : (Ty.distinct (ts.flatMap Ty.unionParts)).any Ty.isUntyped = false := by
    rw [List.any_eq_false]
    intro w hw huntyped
    obtain ⟨t', ht', hwt⟩ := List.mem_flatMap.mp (Ty.mem_of_mem_distinct hw)
    obtain rfl := Ty.isUntyped_iff.mp huntyped
    exact hun t' ht' (leaf_of_mem_unionParts hwt (.self (by simp) (by simp) rfl))
  rw [Ty.unionOf_eq, hnone]
  exact leaf_collapseUnion_iff.mpr ⟨v, hv, hleaf⟩

/-! ## Gathering leaves -/

/-- The leaves of a type are, up to equality, those of what each leaf of another type
contributes. -/
structure Gathers (T : Table) (share : Ty → Ty) (t s : Ty) : Prop where
  wellFormed : s.WellFormed
  exists_share : ∀ l, Leaf T s l → ∃ k, Leaf T t k ∧ Leaf T (share k) l
  exists_leaf : ∀ k l, Leaf T t k → Leaf T (share k) l → ∃ l', Same l l' ∧ Leaf T s l'

namespace Gathers

variable {share : Ty → Ty} {t s : Ty}

/-- A type without parts contributes for itself. -/
theorem of_leaf (hT : T.TypesWellFormed) (hu : ∀ ms, t ≠ .union ms) (he : T.expansion? t = none)
    (hshare : (share t).WellFormed) (hbot : t = .bot → share t = .bot) :
    Gathers T share t (share t) where
  wellFormed := hshare
  exists_share l hl := by
    refine ⟨t, .self hu ?_ he, hl⟩
    intro hb
    exact not_leaf_bot l (hbot hb ▸ hl)
  exists_leaf k l hk hl := by
    obtain rfl := ((leaf_iff_of_none hu he).mp hk).1
    exact ⟨l, .refl (hl.wellFormed hT hshare), hl⟩

/-- A type whose leaves contribute themselves gathers what it has. -/
theorem of_kept (hT : T.TypesWellFormed) (ht : t.WellFormed)
    (hkept : ∀ k, Leaf T t k → share k = k) : Gathers T share t t where
  wellFormed := ht
  exists_share l hl := ⟨l, hl, (hkept l hl).symm ▸ hl.own⟩
  exists_leaf k l hk hl := by
    rw [hkept k hk] at hl
    obtain rfl := hk.eq_of_leaf hl
    exact ⟨l, .refl (hk.wellFormed hT ht), hk⟩

/-- What is gathered from an expansion is gathered from the alias. -/
theorem of_expansion {e : Ty} (he : T.expansion? t = some e) (h : Gathers T share e s) :
    Gathers T share t s where
  wellFormed := h.wellFormed
  exists_share l hl := by
    obtain ⟨k, hk, hkl⟩ := h.exists_share l hl
    exact ⟨k, .expansion he hk, hkl⟩
  exists_leaf k l hk hl := h.exists_leaf k l ((leaf_iff_of_expansion he).mp hk) hl

/-- What is gathered from the members of a union is joined, unless `untyped` is among it. -/
theorem of_members (hT : T.TypesWellFormed) {part : Ty → Ty} {ms : List Ty}
    (hun : ∀ k, Leaf T (.union ms) k → ¬ Leaf T (share k) .untyped)
    (h : ∀ m ∈ ms, Gathers T share m (part m)) :
    Gathers T share (.union ms) (Ty.unionOf (ms.map part)) where
  wellFormed := by
    refine Ty.stable_distinctHere.unionOf fun u hu => ?_
    obtain ⟨m, hm, rfl⟩ := List.mem_map.mp hu
    exact (h m hm).wellFormed
  exists_share l hl := by
    obtain ⟨u, hu, hl⟩ := exists_of_leaf_unionOf hl
    obtain ⟨m, hm, rfl⟩ := List.mem_map.mp hu
    obtain ⟨k, hk, hkl⟩ := (h m hm).exists_share l hl
    exact ⟨k, .member hm hk, hkl⟩
  exists_leaf k l hk hl := by
    obtain ⟨m, hm, hk⟩ := leaf_union_iff.mp hk
    obtain ⟨l₁, hsame₁, hl₁⟩ := (h m hm).exists_leaf k l hk hl
    have hparts : ∀ u ∈ ms.map part, u.WellFormed ∧ ¬ Leaf T u .untyped := by
      intro u hu
      obtain ⟨m', hm', rfl⟩ := List.mem_map.mp hu
      refine ⟨(h m' hm').wellFormed, fun huntyped => ?_⟩
      obtain ⟨k', hk', hshare⟩ := (h m' hm').exists_share _ huntyped
      exact hun k' (.member hm' hk') hshare
    obtain ⟨l₂, hsame₂, hl₂⟩ := exists_leaf_unionOf hT (fun u hu => (hparts u hu).1)
      (fun u hu => (hparts u hu).2) (List.mem_map_of_mem hm) hl₁
    exact ⟨l₂, hsame₁.trans hsame₂, hl₂⟩

end Gathers

/-! ## Separating leaves -/

/-- The leaves of a type that are taken are, up to equality, among those of the matched types, and
the rest has exactly the others.  What is matched brings in no `untyped`. -/
structure Separates (T : Table) (takes : Ty → Prop) (t : Ty) (matched : List Ty) (rest : Ty) :
    Prop where
  wellFormed : ∀ u ∈ matched, u.WellFormed
  clean : ∀ u ∈ matched, ¬ Leaf T u .untyped
  taken : ∀ l, Leaf T t l → takes l → ∃ u ∈ matched, ∃ l', Same l l' ∧ Leaf T u l'
  wellFormed_rest : rest.WellFormed
  kept : ∀ l, Leaf T t l → ¬ takes l → ∃ l', Same l l' ∧ Leaf T rest l'
  of_rest : ∀ l, Leaf T rest l → Leaf T t l ∧ ¬ takes l

namespace Separates

variable {takes : Ty → Prop} {t : Ty}

/-- Where no leaf is taken, the type is the rest. -/
theorem of_none (hT : T.TypesWellFormed) (ht : t.WellFormed)
    (hno : ∀ l, Leaf T t l → ¬ takes l) {matched : List Ty} (hwf : ∀ u ∈ matched, u.WellFormed)
    (hclean : ∀ u ∈ matched, ¬ Leaf T u .untyped) : Separates T takes t matched t where
  wellFormed := hwf
  clean := hclean
  taken l hl htakes := absurd htakes (hno l hl)
  wellFormed_rest := ht
  kept l hl _ := ⟨l, .refl (hl.wellFormed hT ht), hl⟩
  of_rest l hl := ⟨hl, hno l hl⟩

/-- What is matched can be joined. -/
theorem join (hT : T.TypesWellFormed) {matched : List Ty} {rest : Ty}
    (h : Separates T takes t matched rest) : Separates T takes t [Ty.unionOf matched] rest where
  wellFormed u hu := by
    obtain rfl := List.mem_singleton.mp hu
    exact Ty.stable_distinctHere.unionOf h.wellFormed
  clean u hu hl := by
    obtain rfl := List.mem_singleton.mp hu
    obtain ⟨v, hv, hl⟩ := exists_of_leaf_unionOf hl
    exact h.clean v hv hl
  taken l hl htakes := by
    obtain ⟨u, hu, l₁, hsame₁, hl₁⟩ := h.taken l hl htakes
    obtain ⟨l₂, hsame₂, hl₂⟩ := exists_leaf_unionOf hT h.wellFormed h.clean hu hl₁
    exact ⟨_, List.mem_singleton.mpr rfl, l₂, hsame₁.trans hsame₂, hl₂⟩
  wellFormed_rest := h.wellFormed_rest
  kept := h.kept
  of_rest := h.of_rest

/-- One separation after another takes what either of them takes. -/
theorem andThen {takes' : Ty → Prop} {rest rest' : Ty} {matched matched' : List Ty}
    (h : Separates T takes t matched rest) (h' : Separates T takes' rest matched' rest')
    (hcongr : ∀ l l', Same l l' → takes' l → takes' l') :
    Separates T (fun l => takes l ∨ takes' l) t (matched ++ matched') rest' where
  wellFormed := List.forall_mem_append.mpr ⟨h.wellFormed, h'.wellFormed⟩
  clean := List.forall_mem_append.mpr ⟨h.clean, h'.clean⟩
  taken l hl htakes := by
    by_cases hfirst : takes l
    · obtain ⟨u, hu, hfound⟩ := h.taken l hl hfirst
      exact ⟨u, List.mem_append_left _ hu, hfound⟩
    · obtain ⟨l₁, hsame₁, hl₁⟩ := h.kept l hl hfirst
      have hsecond := hcongr l l₁ hsame₁ (htakes.resolve_left hfirst)
      obtain ⟨u, hu, l₂, hsame₂, hl₂⟩ := h'.taken l₁ hl₁ hsecond
      exact ⟨u, List.mem_append_right _ hu, l₂, hsame₁.trans hsame₂, hl₂⟩
  wellFormed_rest := h'.wellFormed_rest
  kept l hl hno := by
    obtain ⟨l₁, hsame₁, hl₁⟩ := h.kept l hl fun htakes => hno (Or.inl htakes)
    obtain ⟨l₂, hsame₂, hl₂⟩ := h'.kept l₁ hl₁ fun htakes =>
      hno (Or.inr (hcongr l₁ l hsame₁.symm htakes))
    exact ⟨l₂, hsame₁.trans hsame₂, hl₂⟩
  of_rest l hl := by
    obtain ⟨hl₁, hno'⟩ := h'.of_rest l hl
    obtain ⟨hl₀, hno⟩ := h.of_rest l hl₁
    exact ⟨hl₀, fun htakes => htakes.elim hno hno'⟩

end Separates

/-! ## By value -/

/-- The type has no leaf but a literal. -/
structure OnlyLiteral (T : Table) (value : Literal) (t : Ty) : Prop where
  wellFormed : t.WellFormed
  leaf : ∀ l, Leaf T t l → l = .literal value

theorem onlyLiteral_literal (value : Literal) : OnlyLiteral T value (.literal value) :=
  ⟨rfl, fun _ hl => ((leaf_iff_of_none (by simp) rfl).mp hl).1⟩

theorem onlyLiteral_bot (value : Literal) : OnlyLiteral T value .bot :=
  ⟨rfl, fun l hl => absurd hl (not_leaf_bot l)⟩

theorem onlyLiteral_equalPartWith {value : Literal} {onAlias : Ty → Ty}
    (honAlias : ∀ t, OnlyLiteral T value (onAlias t)) (t : Ty) :
    OnlyLiteral T value (T.equalPartWith value onAlias t) := by
  have hleaf : ∀ u, OnlyLiteral T value
      (if T.isSubtype (.literal value) u then .literal value else .bot) := by
    intro u
    split
    · exact onlyLiteral_literal value
    · exact onlyLiteral_bot value
  induction t using Ty.inductionOnParts with
  | step t ih =>
    cases t with
    | union ms =>
      rw [equalPartWith, equalPartMembers_eq_map]
      refine ⟨Ty.stable_distinctHere.unionOf fun u hu => ?_, fun l hl => ?_⟩
      · obtain ⟨m, hm, rfl⟩ := List.mem_map.mp hu
        exact (ih m hm).wellFormed
      · obtain ⟨u, hu, hl⟩ := exists_of_leaf_unionOf hl
        obtain ⟨m, hm, rfl⟩ := List.mem_map.mp hu
        exact (ih m hm).leaf l hl
    | named kind name args =>
      cases kind with
      | aliasOf => exact honAlias _
      | _ => exact hleaf _
    | untyped => exact onlyLiteral_literal value
    | top => exact onlyLiteral_literal value
    | _ =>
      unfold equalPartWith
      exact hleaf _

/-- The part of a type that can equal a literal has no leaf but this literal. -/
theorem onlyLiteral_equalPart (T : Table) (t : Ty) (value : Literal) :
    OnlyLiteral T value (T.equalPart t value) := by
  have hwithin : ∀ n u, OnlyLiteral T value (T.equalPartWithin value n u) := by
    intro n
    induction n with
    | zero => exact onlyLiteral_equalPartWith fun _ => onlyLiteral_bot value
    | succ n ih =>
      refine onlyLiteral_equalPartWith fun u => ?_
      split
      · exact ih _
      · exact onlyLiteral_bot value
  exact hwithin _ t

end Table
end TypeShape
