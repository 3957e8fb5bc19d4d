import TypeShape.Proofs.Split.Leaves
import TypeShape.Proofs.Types.Nesting

/-!
# Exact splits by class

A split by class moves between a type and its leaves: aliases in which nothing matches stay folded,
and others are replaced by what their leaves contribute to each side.  A leaf below the class goes
to the matched side alone; a broader one stays and contributes the class itself; any other stays.

On a type that opens, the depth to which a split looks does not show: it follows the unions and
aliases of the type, and all that is said here comes from these equations.

Main results:

- Theorems `Table.splitByClass_union`, `Table.splitByClass_expansion` and
  `Table.splitByClass_of_leaf`: how a split goes on, and where it ends.
- Theorems `Table.gathers_matched` and `Table.gathers_rest`: each side has the leaves that the
  leaves of the type contribute to it.
- Theorem `Table.splitByClass_exact`: which leaves both sides have.
- Theorem `Table.splitByClass_again`: splitting either side once more leaves it as it is.
-/

namespace TypeShape
namespace Table

open Ty (Same)

variable {T : Table}

/-! ## Where the depth does not matter -/

section Depth

variable {target : Ty}

/-- A union is split by a class member by member. -/
theorem byClassWithin_union (n : Nat) (ms : List Ty) :
    T.byClassWithin target n (.union ms) =
      (Ty.unionOf (ms.map fun m => (T.byClassWithin target n m).1),
        Ty.unionOf (ms.map fun m => (T.byClassWithin target n m).2)) := by
  cases n <;> rw [byClassWithin, byClassWith, byClassMembers_eq_map]

/-- An alias is split as what it stands for. -/
theorem byClassWithin_expansion {t e : Ty} (he : T.expansion? t = some e) (n : Nat) :
    T.byClassWithin target (n + 1) t = keepAlias t (T.byClassWithin target n e) := by
  obtain ⟨name, args, rfl⟩ := exists_alias_of_expansion? he
  simp only [byClassWithin, byClassWith, he]

/-- No other type needs steps to be split. -/
theorem byClassWithin_of_leaf {t : Ty} (hu : ∀ ms, t ≠ .union ms) (he : T.expansion? t = none)
    (n : Nat) : T.byClassWithin target n t = T.byClassWithin target 0 t := by
  cases n with
  | zero => rfl
  | succ n =>
    cases t with
    | union ms => exact absurd rfl (hu ms)
    | named kind name args =>
      cases kind with
      | aliasOf => simp only [byClassWithin, byClassWith, he]
      | _ => rfl
    | _ => rfl

/-- A depth that is enough gives what any greater one does. -/
theorem byClassWithin_eq_of_le {n k : Nat} {t : Ty} (h : OpensIn T n t) (hnk : n ≤ k) :
    T.byClassWithin target k t = T.byClassWithin target n t := by
  induction h generalizing k with
  | union _ ih =>
    rw [byClassWithin_union, byClassWithin_union]
    congr 2 <;> exact List.map_congr_left fun m hm => by rw [ih m hm hnk]
  | expansion he _ ih =>
    obtain ⟨k, rfl⟩ : ∃ k', k = k' + 1 := ⟨k - 1, by omega⟩
    rw [byClassWithin_expansion he, byClassWithin_expansion he, ih (by omega)]
  | @leaf n _ hu he => rw [byClassWithin_of_leaf hu he k, byClassWithin_of_leaf hu he n]

end Depth

/-- As many steps as a type takes to open are enough to split it. -/
theorem splitByClass_eq {n : Nat} {t : Ty} (h : OpensIn T n t) (name : TypeName) :
    T.splitByClass t name = T.byClassWithin (T.untypedInstance name) n t := by
  have hdepth := Opens.opensIn_openingDepth ⟨n, h⟩
  calc T.splitByClass t name
      = T.byClassWithin (T.untypedInstance name) (max (T.openingDepth t) n) t :=
        (byClassWithin_eq_of_le hdepth (Nat.le_max_left _ n)).symm
    _ = T.byClassWithin (T.untypedInstance name) n t :=
        byClassWithin_eq_of_le h (Nat.le_max_right _ n)

/-- A union that opens is split member by member. -/
theorem splitByClass_union {ms : List Ty} (h : T.Opens (.union ms)) (name : TypeName) :
    T.splitByClass (.union ms) name =
      (Ty.unionOf (ms.map fun m => (T.splitByClass m name).1),
        Ty.unionOf (ms.map fun m => (T.splitByClass m name).2)) := by
  obtain ⟨n, hn⟩ := h
  rw [splitByClass_eq hn, byClassWithin_union]
  congr 2 <;> exact List.map_congr_left fun m hm => by rw [splitByClass_eq (hn.member hm)]

/-- An alias is split as what it stands for if this opens. -/
theorem splitByClass_expansion {t e : Ty} (he : T.expansion? t = some e) (h : T.Opens e)
    (name : TypeName) : T.splitByClass t name = keepAlias t (T.splitByClass e name) := by
  obtain ⟨n, hn⟩ := h
  rw [splitByClass_eq (.expansion he hn), byClassWithin_expansion he, splitByClass_eq hn]

/-! ## Leaves -/

/-- A leaf that a test against a class takes: it is below the target, and neither the top type nor
an alias. -/
def Below (T : Table) (target l : Ty) : Prop :=
  l ≠ .top ∧ (∀ name args, l ≠ .named .aliasOf name args) ∧ T.isSubtype l target = true

/-- Of two equal leaves both are below the target or neither is. -/
theorem Below.congr (hT : T.TypesWellFormed) {target l l' : Ty} (htarget : target.WellFormed)
    (hs : Same l l') (h : Below T target l) : Below T target l' := by
  obtain ⟨htop, halias, hsub⟩ := h
  refine ⟨?_, ?_, ?_⟩
  · rintro rfl
    exact htop (Ty.eq_top_of_head hs.head_eq.symm)
  · rintro name args rfl
    obtain ⟨args', rfl⟩ := Ty.eq_named_of_head hs.head_eq.symm
    exact halias name args' rfl
  · rw [← isSubtype_congr hT _ _ _ _ hs (.refl htarget)]
    exact hsub

/-- A leaf that is matched as it stands. -/
def Taken (T : Table) (target l : Ty) : Prop :=
  l ≠ .untyped ∧ Below T target l

/-- A leaf that may hold the target beside other values: `untyped`, the top type, and what is above
the target but not below it.  An alias that is not declared is not compared. -/
def Broader (T : Table) (target l : Ty) : Prop :=
  l = .untyped ∨ l = .top ∨
    (∀ name args, l ≠ .named .aliasOf name args) ∧
      T.isSubtype l target = false ∧ T.isSubtype target l = true

/-- What is broader than the target is not taken as it stands. -/
theorem Broader.not_taken {target l : Ty} (h : Broader T target l) : ¬ Taken T target l := by
  rintro ⟨hun, htop, -, hsub⟩
  rcases h with rfl | rfl | ⟨-, hnot, -⟩
  · exact hun rfl
  · exact htop rfl
  · simp [hnot] at hsub

/-- The target is an application of a class or interface. -/
theorem exists_untypedInstance_eq (T : Table) (name : TypeName) :
    ∃ kind args, kind ≠ .aliasOf ∧ T.untypedInstance name = .named kind name args := by
  refine ⟨_, _, ?_, rfl⟩
  split <;> simp

/-- The instance of a class is a leaf of itself. -/
theorem leaf_untypedInstance (T : Table) (name : TypeName) :
    Leaf T (T.untypedInstance name) (T.untypedInstance name) := by
  obtain ⟨kind, args, hkind, heq⟩ := T.exists_untypedInstance_eq name
  rw [heq]
  refine .self (by simp) (by simp) ?_
  cases kind with
  | aliasOf => exact absurd rfl hkind
  | _ => rfl

/-- The instance of a class is not untyped. -/
theorem untypedInstance_ne_untyped (T : Table) (name : TypeName) :
    T.untypedInstance name ≠ .untyped := by
  obtain ⟨kind, args, -, heq⟩ := T.exists_untypedInstance_eq name
  simp [heq]

/-- It is taken by a test against the class. -/
theorem taken_untypedInstance (T : Table) (name : TypeName) :
    Taken T (T.untypedInstance name) (T.untypedInstance name) := by
  have hrefl : T.isSubtype (T.untypedInstance name) (T.untypedInstance name) = true := by
    simp [isSubtype, subtypeBudget, isSubtypeWithin]
  obtain ⟨kind, args, hkind, heq⟩ := T.exists_untypedInstance_eq name
  refine ⟨T.untypedInstance_ne_untyped name, ?_, ?_, hrefl⟩
  · simp [heq]
  · rw [heq]
    rintro name' args' h
    exact hkind (Ty.named.inj h).1

/-- A leaf is matched as it stands, or stays and contributes the target, or just stays. -/
theorem splitByClass_of_leaf {l : Ty} (hl : Leaf T l l) (name : TypeName) :
    (Taken T (T.untypedInstance name) l ∧ T.splitByClass l name = (l, .bot)) ∨
    (Broader T (T.untypedInstance name) l ∧
      T.splitByClass l name = (T.untypedInstance name, l)) ∨
    (¬ Taken T (T.untypedInstance name) l ∧ ¬ Broader T (T.untypedInstance name) l ∧
      T.splitByClass l name = (.bot, l)) := by
  obtain ⟨hu, hb, he⟩ := hl.isLeaf
  rw [splitByClass_eq (n := 0) (.leaf hu he)]
  generalize T.untypedInstance name = target
  have hother : l ≠ .untyped → l ≠ .top → (∀ name args, l ≠ .named .aliasOf name args) →
      T.byClassWithin target 0 l = T.leafByClass target l →
      (Taken T target l ∧ T.byClassWithin target 0 l = (l, .bot)) ∨
      (Broader T target l ∧ T.byClassWithin target 0 l = (target, l)) ∨
      (¬ Taken T target l ∧ ¬ Broader T target l ∧
        T.byClassWithin target 0 l = (.bot, l)) := by
    intro hun htop halias heq
    rw [heq, leafByClass]
    by_cases hsub : T.isSubtype l target = true
    · exact Or.inl ⟨⟨hun, htop, halias, hsub⟩, if_pos hsub⟩
    · rw [if_neg hsub]
      by_cases hsup : T.isSubtype target l = true
      · exact Or.inr (Or.inl ⟨Or.inr (Or.inr ⟨halias, by simpa using hsub, hsup⟩), if_pos hsup⟩)
      · refine Or.inr (Or.inr ⟨fun h => hsub h.2.2.2, ?_, if_neg hsup⟩)
        rintro (rfl | rfl | ⟨-, -, h⟩)
        · exact hun rfl
        · exact htop rfl
        · exact hsup h
  cases l with
  | named kind name args =>
    cases kind with
    | aliasOf =>
      refine Or.inr (Or.inr ⟨fun h => h.2.2.1 name args rfl, ?_, rfl⟩)
      rintro (h | h | ⟨h, -⟩)
      · cases h
      · cases h
      · exact h name args rfl
    | _ => exact hother (by simp) (by simp) (by simp) rfl
  | untyped => exact Or.inr (Or.inl ⟨Or.inl rfl, rfl⟩)
  | top => exact Or.inr (Or.inl ⟨Or.inr (Or.inl rfl), rfl⟩)
  | bot => exact absurd rfl hb
  | union ms => exact absurd rfl (hu ms)
  | _ => exact hother (by simp) (by simp) (by simp) rfl

/-- A leaf that is taken is on the first side only. -/
theorem splitByClass_of_taken {l : Ty} (hl : Leaf T l l) {name : TypeName}
    (h : Taken T (T.untypedInstance name) l) : T.splitByClass l name = (l, .bot) := by
  rcases splitByClass_of_leaf hl name with ⟨-, heq⟩ | ⟨hbroader, -⟩ | ⟨hnot, -⟩
  · exact heq
  · exact absurd h hbroader.not_taken
  · exact absurd h hnot

/-- A broader leaf leaves the instance on the first side and stays on the second. -/
theorem splitByClass_of_broader {l : Ty} (hl : Leaf T l l) {name : TypeName}
    (h : Broader T (T.untypedInstance name) l) :
    T.splitByClass l name = (T.untypedInstance name, l) := by
  rcases splitByClass_of_leaf hl name with ⟨htaken, -⟩ | ⟨-, heq⟩ | ⟨-, hnot, -⟩
  · exact absurd htaken h.not_taken
  · exact heq
  · exact absurd h hnot

/-- A leaf that is not taken stays. -/
theorem rest_of_not_taken {l : Ty} (hl : Leaf T l l) {name : TypeName}
    (h : ¬ Taken T (T.untypedInstance name) l) : (T.splitByClass l name).2 = l := by
  rcases splitByClass_of_leaf hl name with ⟨htaken, -⟩ | ⟨-, heq⟩ | ⟨-, -, heq⟩
  · exact absurd htaken h
  · rw [heq]
  · rw [heq]

/-- A leaf that is not taken is the top type, undeclared or not below the target. -/
theorem stays_of_not_taken {t l : Ty} (hl : Leaf T t l) (hun : ¬ Leaf T t .untyped) {target : Ty}
    (h : ¬ Taken T target l) : l = .top ∨ Undeclared T l ∨ T.isSubtype l target = false := by
  by_cases htop : l = .top
  · exact Or.inl htop
  by_cases halias : ∃ name args, l = .named .aliasOf name args
  · obtain ⟨name, args, rfl⟩ := halias
    exact Or.inr (Or.inl ⟨name, args, rfl, hl.alias?_eq_none⟩)
  · refine Or.inr (Or.inr ?_)
    by_contra hsub
    refine h ⟨?_, htop, fun name args heq => halias ⟨name, args, heq⟩, by simpa using hsub⟩
    rintro rfl
    exact hun hl

/-- And none of these is taken. -/
theorem not_taken_of_stays {target l : Ty}
    (h : l = .top ∨ Undeclared T l ∨ T.isSubtype l target = false) : ¬ Taken T target l := by
  rintro ⟨-, htop, halias, hsub⟩
  rcases h with rfl | ⟨name, args, rfl, -⟩ | h
  · exact htop rfl
  · exact halias name args rfl
  · simp [h] at hsub

/-- What a leaf contributes to the matched side is itself, if it is taken, or the target. -/
theorem leaf_matched_cases {k l : Ty} (hk : Leaf T k k) {name : TypeName}
    (hl : Leaf T (T.splitByClass k name).1 l) :
    (l = k ∧ Taken T (T.untypedInstance name) k) ∨
      (l = T.untypedInstance name ∧ Broader T (T.untypedInstance name) k) := by
  rcases splitByClass_of_leaf hk name with ⟨htaken, heq⟩ | ⟨hbroader, heq⟩ | ⟨-, -, heq⟩ <;>
    rw [heq] at hl
  · exact Or.inl ⟨hk.eq_of_leaf hl, htaken⟩
  · exact Or.inr ⟨(leaf_untypedInstance T name).eq_of_leaf hl, hbroader⟩
  · exact absurd hl (not_leaf_bot l)

/-- What a leaf contributes to the other side is itself, if it is not taken. -/
theorem leaf_rest_cases {k l : Ty} (hk : Leaf T k k) {name : TypeName}
    (hl : Leaf T (T.splitByClass k name).2 l) :
    l = k ∧ ¬ Taken T (T.untypedInstance name) k := by
  by_cases htaken : Taken T (T.untypedInstance name) k
  · rw [splitByClass_of_taken hk htaken] at hl
    exact absurd hl (not_leaf_bot l)
  · rw [rest_of_not_taken hk htaken] at hl
    exact ⟨hk.eq_of_leaf hl, htaken⟩

/-! ## Both sides -/

/-- Keeping an alias leaves the first side alone. -/
theorem keepAlias_fst (t : Ty) (sides : Ty × Ty) : (keepAlias t sides).1 = sides.1 := by
  unfold keepAlias
  split
  · rename_i hmatched
    exact (Ty.eq_bot_of_head (Ty.head_eq_of_beq hmatched)).symm
  · rfl

/-- The second side is the alias if the first is empty. -/
theorem keepAlias_snd (t : Ty) (sides : Ty × Ty) :
    (sides.1 = .bot ∧ (keepAlias t sides).2 = t) ∨
      (sides.1 ≠ .bot ∧ (keepAlias t sides).2 = sides.2) := by
  unfold keepAlias
  split
  · rename_i hmatched
    exact Or.inl ⟨Ty.eq_bot_of_head (Ty.head_eq_of_beq hmatched), rfl⟩
  · rename_i hmatched
    refine Or.inr ⟨fun hbot => hmatched ?_, rfl⟩
    rw [hbot]
    rfl

/-- The empty type is split into nothing. -/
theorem splitByClass_bot (T : Table) (name : TypeName) :
    T.splitByClass .bot name = (.bot, .bot) := by
  rw [splitByClass_eq (n := 0) (.leaf (by simp) rfl)]
  rfl

section Sides

variable (hT : T.TypesWellFormed)

include hT

/-- A well-formed type is split into well-formed types. -/
theorem wellFormed_splitByClass {t : Ty} (ht : t.WellFormed) (name : TypeName) :
    (T.splitByClass t name).1.WellFormed ∧ (T.splitByClass t name).2.WellFormed :=
  hT.handsDown.splitByClass (normal_untypedInstance name).wellFormed ht

/-- The matched side has the leaves that are matched in the leaves of the type. -/
theorem gathers_matched {t : Ty} (hopen : T.Opens t) (ht : t.WellFormed) (name : TypeName) :
    Gathers T (fun l => (T.splitByClass l name).1) t (T.splitByClass t name).1 := by
  obtain ⟨n, hn⟩ := hopen
  induction hn with
  | union h ih =>
    rw [splitByClass_union ⟨_, .union h⟩]
    refine .of_members hT (fun k hk hl => ?_) fun m hm => ih m hm (ht.part hm)
    rcases leaf_matched_cases hk.own hl with ⟨heq, htaken⟩ | ⟨heq, -⟩
    · exact htaken.1 heq.symm
    · exact T.untypedInstance_ne_untyped name heq.symm
  | expansion he h ih =>
    rw [splitByClass_expansion he ⟨_, h⟩, keepAlias_fst]
    exact (ih (wellFormed_of_expansion? hT ht he)).of_expansion he
  | leaf hu he =>
    refine .of_leaf hT hu he (wellFormed_splitByClass hT ht name).1 ?_
    rintro rfl
    rw [splitByClass_bot]

/-- The other side has the leaves that are left of the leaves of the type, unless one of them is
`untyped`. -/
theorem gathers_rest {t : Ty} (hopen : T.Opens t) (ht : t.WellFormed)
    (hun : ¬ Leaf T t .untyped) (name : TypeName) :
    Gathers T (fun l => (T.splitByClass l name).2) t (T.splitByClass t name).2 := by
  obtain ⟨n, hn⟩ := hopen
  induction hn with
  | union h ih =>
    rw [splitByClass_union ⟨_, .union h⟩]
    refine .of_members hT (fun k hk hl => ?_) fun m hm =>
      ih m hm (ht.part hm) fun hl => hun (.member hm hl)
    exact hun ((leaf_rest_cases hk.own hl).1 ▸ hk)
  | @expansion n t e he h ih =>
    have hewf := wellFormed_of_expansion? hT ht he
    rw [splitByClass_expansion he ⟨_, h⟩]
    rcases keepAlias_snd t (T.splitByClass e name) with ⟨hbot, heq⟩ | ⟨-, heq⟩ <;> rw [heq]
    · -- Nothing is matched in a leaf of the alias, so all of them are left.
      have hmatched := gathers_matched hT ⟨_, h⟩ hewf name
      have hnone : ∀ k, Leaf T t k → ∀ l, ¬ Leaf T (T.splitByClass k name).1 l := by
        intro k hk l hl
        obtain ⟨l', -, hl'⟩ := hmatched.exists_leaf k l ((leaf_iff_of_expansion he).mp hk) hl
        exact not_leaf_bot l' (hbot ▸ hl')
      refine .of_kept hT ht fun k hk => rest_of_not_taken hk.own fun htaken => hnone k hk k ?_
      rw [splitByClass_of_taken hk.own htaken]
      exact hk.own
    · exact (ih hewf fun hl => hun (.expansion he hl)).of_expansion he
  | leaf hu he =>
    refine .of_leaf hT hu he (wellFormed_splitByClass hT ht name).2 ?_
    rintro rfl
    rw [splitByClass_bot]

/-- If a leaf is `untyped`, nothing is ruled out. -/
theorem rest_eq_untyped {t : Ty} (hopen : T.Opens t) (ht : t.WellFormed)
    (hun : Leaf T t .untyped) (name : TypeName) : (T.splitByClass t name).2 = .untyped := by
  obtain ⟨n, hn⟩ := hopen
  induction hn with
  | union h ih =>
    obtain ⟨m, hm, hl⟩ := leaf_union_iff.mp hun
    rw [splitByClass_union ⟨_, .union h⟩]
    exact Ty.unionOf_of_mem_untyped (List.mem_map.mpr ⟨m, hm, ih m hm (ht.part hm) hl⟩)
  | @expansion n t e he h ih =>
    have hewf := wellFormed_of_expansion? hT ht he
    have hl := (leaf_iff_of_expansion he).mp hun
    rw [splitByClass_expansion he ⟨_, h⟩]
    rcases keepAlias_snd t (T.splitByClass e name) with ⟨hbot, -⟩ | ⟨-, heq⟩
    · have htarget : Leaf T (T.splitByClass .untyped name).1 (T.untypedInstance name) := by
        rw [splitByClass_of_broader hl.own (Or.inl rfl)]
        exact leaf_untypedInstance T name
      obtain ⟨l', -, hl'⟩ := (gathers_matched hT ⟨_, h⟩ hewf name).exists_leaf _ _ hl htarget
      exact absurd (hbot ▸ hl') (not_leaf_bot l')
    · rw [heq, ih hewf hl]
  | leaf hu he =>
    obtain rfl := ((leaf_iff_of_none hu he).mp hun).1
    rw [splitByClass_of_broader hun (Or.inl rfl)]

end Sides

/-- A split by class separates the leaves below the class from all others. -/
theorem separates_splitByClass (hT : T.TypesWellFormed) (hacyclic : T.AcyclicAliases) {t : Ty}
    (ht : t.WellFormed) (hun : ¬ Leaf T t .untyped) (name : TypeName) :
    Separates T (Below T (T.untypedInstance name)) t [(T.splitByClass t name).1]
      (T.splitByClass t name).2 := by
  have hopen := hacyclic.opens t
  have hmatched := gathers_matched hT hopen ht name
  have hrest := gathers_rest hT hopen ht hun name
  have htaken : ∀ l, Leaf T t l →
      (Taken T (T.untypedInstance name) l ↔ Below T (T.untypedInstance name) l) := by
    refine fun l hl => ⟨And.right, fun h => ⟨?_, h⟩⟩
    rintro rfl
    exact hun hl
  refine ⟨?_, ?_, fun l hl hbelow => ?_, hrest.wellFormed, fun l hl hnot => ?_, fun l hl => ?_⟩
  · simpa using hmatched.wellFormed
  · simp only [List.mem_singleton, forall_eq]
    intro hl
    obtain ⟨k, hk, hkl⟩ := hmatched.exists_share _ hl
    rcases leaf_matched_cases hk.own hkl with ⟨heq, h⟩ | ⟨heq, -⟩
    · exact h.1 heq.symm
    · exact T.untypedInstance_ne_untyped name heq.symm
  · refine ⟨_, List.mem_singleton.mpr rfl, hmatched.exists_leaf l l hl ?_⟩
    rw [splitByClass_of_taken hl.own ((htaken l hl).mpr hbelow)]
    exact hl.own
  · refine hrest.exists_leaf l l hl ?_
    rw [rest_of_not_taken hl.own (mt (htaken l hl).mp hnot)]
    exact hl.own
  · obtain ⟨k, hk, hkl⟩ := hrest.exists_share l hl
    obtain ⟨rfl, hnot⟩ := leaf_rest_cases hk.own hkl
    exact ⟨hk, mt (htaken l hk).mpr hnot⟩

/-! ## Which leaves each side has -/

/-- The leaves of both sides of a split by class.  On the matched side are the leaves below the
class, and the class itself if a leaf is broader; on the other side are all leaves but those below
the class, or `untyped` if a leaf is. -/
theorem splitByClass_exact {t : Ty} (hT : T.Built) (ht : t.Built) (hopen : T.Opens t)
    (name : TypeName) :
    Ty.SameTypes (T.Leaf (T.splitByClass t name).1) (fun l =>
        (T.Leaf t l ∧ Taken T (T.untypedInstance name) l) ∨
          (l = T.untypedInstance name ∧ ∃ k, T.Leaf t k ∧ Broader T (T.untypedInstance name) k)) ∧
      (T.Leaf t .untyped → (T.splitByClass t name).2 = .untyped) ∧
      (¬ T.Leaf t .untyped → Ty.SameTypes (T.Leaf (T.splitByClass t name).2) fun l =>
        T.Leaf t l ∧ (l = .top ∨ Undeclared T l ∨
          T.isSubtype l (T.untypedInstance name) = false)) := by
  have hmatched := gathers_matched hT.typesWellFormed hopen ht.wellFormed name
  refine ⟨⟨fun l hl => ?_, fun l hl => ?_⟩, fun hun => ?_, fun hun => ⟨fun l hl => ?_, ?_⟩⟩
  · obtain ⟨k, hk, hkl⟩ := hmatched.exists_share l hl
    refine ⟨l, ?_, Ty.beq_refl l⟩
    rcases leaf_matched_cases hk.own hkl with ⟨rfl, htaken⟩ | ⟨rfl, hbroader⟩
    · exact Or.inl ⟨hk, htaken⟩
    · exact Or.inr ⟨rfl, k, hk, hbroader⟩
  · have hshare : ∃ k, T.Leaf t k ∧ T.Leaf (T.splitByClass k name).1 l := by
      rcases hl with ⟨hl, htaken⟩ | ⟨rfl, k, hk, hbroader⟩
      · refine ⟨l, hl, ?_⟩
        rw [splitByClass_of_taken hl.own htaken]
        exact hl.own
      · refine ⟨k, hk, ?_⟩
        rw [splitByClass_of_broader hk.own hbroader]
        exact leaf_untypedInstance T name
    obtain ⟨k, hk, hkl⟩ := hshare
    obtain ⟨l', hs, hl'⟩ := hmatched.exists_leaf k l hk hkl
    exact ⟨l', hl', hs.beq⟩
  · exact rest_eq_untyped hT.typesWellFormed hopen ht.wellFormed hun name
  · have hrest := gathers_rest hT.typesWellFormed hopen ht.wellFormed hun name
    obtain ⟨k, hk, hkl⟩ := hrest.exists_share l hl
    obtain ⟨rfl, hnot⟩ := leaf_rest_cases hk.own hkl
    exact ⟨l, ⟨hk, stays_of_not_taken hk hun hnot⟩, Ty.beq_refl l⟩
  · rintro l ⟨hl, hstays⟩
    have hrest := gathers_rest hT.typesWellFormed hopen ht.wellFormed hun name
    have hkept : (T.splitByClass l name).2 = l :=
      rest_of_not_taken hl.own (not_taken_of_stays hstays)
    obtain ⟨l', hs, hl'⟩ := hrest.exists_leaf l l hl (hkept.symm ▸ hl.own)
    exact ⟨l', hl', hs.beq⟩

/-! ### Animals or nothing known -/

/-- A class below a second one, and this and another one below a third; aliases for two of them,
and for them or an argument; and an alias that leads back to itself. -/
def zoo : Table where
  modules := [
    (⟨"::Animal"⟩, { name := ⟨"::Animal"⟩, kind := .classDecl }),
    (⟨"::Cat"⟩, { name := ⟨"::Cat"⟩, kind := .classDecl,
                  superclass := some (.ofClass ⟨"::Animal"⟩) }),
    (⟨"::Dog"⟩, { name := ⟨"::Dog"⟩, kind := .classDecl,
                  superclass := some (.ofClass ⟨"::Animal"⟩) }),
    (⟨"::Lynx"⟩, { name := ⟨"::Lynx"⟩, kind := .classDecl,
                   superclass := some (.ofClass ⟨"::Cat"⟩) })]
  aliases := [
    (⟨"::herd"⟩, { name := ⟨"::herd"⟩, body := .union [.named .aliasOf ⟨"::herd"⟩ [], .nil] }),
    (⟨"::pet"⟩, { name := ⟨"::pet"⟩, body := .union [.ofClass ⟨"::Lynx"⟩, .ofClass ⟨"::Dog"⟩] }),
    (⟨"::petOr"⟩, { name := ⟨"::petOr"⟩, typeParams := [{ name := "T" }],
                    body := .union [.named .aliasOf ⟨"::pet"⟩ [], .var "T"] })]

/-- Nested aliases with an argument, and an alias that is not declared. -/
def zooType : Ty :=
  .union [.named .aliasOf ⟨"::petOr"⟩ [.ofClass ⟨"::Animal"⟩], .named .aliasOf ⟨"::lost"⟩ []]

/-- The nested aliases open. -/
theorem opens_zooType : zoo.Opens zooType :=
  ⟨2, by decide⟩

/-- Their leaves are these four. -/
theorem leaf_zooType_iff {l : Ty} :
    zoo.Leaf zooType l ↔
      l = .ofClass ⟨"::Lynx"⟩ ∨ l = .ofClass ⟨"::Dog"⟩ ∨ l = .ofClass ⟨"::Animal"⟩ ∨
        l = .named .aliasOf ⟨"::lost"⟩ [] := by
  have hpetOr : zoo.expansion? (.named .aliasOf ⟨"::petOr"⟩ [.ofClass ⟨"::Animal"⟩]) =
      some (.union [.named .aliasOf ⟨"::pet"⟩ [], .ofClass ⟨"::Animal"⟩]) := rfl
  have hpet : zoo.expansion? (.named .aliasOf ⟨"::pet"⟩ []) =
      some (.union [.ofClass ⟨"::Lynx"⟩, .ofClass ⟨"::Dog"⟩]) := rfl
  have hclass : ∀ name, zoo.Leaf (.ofClass name) l ↔ l = .ofClass name :=
    fun name => leaf_iff_eq (by simp [Ty.ofClass]) (by simp [Ty.ofClass]) rfl
  have hlost : zoo.Leaf (.named .aliasOf ⟨"::lost"⟩ []) l ↔ l = .named .aliasOf ⟨"::lost"⟩ [] :=
    leaf_iff_eq (by simp) (by simp) rfl
  simp [zooType, leaf_union_iff, leaf_iff_of_expansion hpetOr, leaf_iff_of_expansion hpet, hclass,
    hlost, or_assoc]

/-- Split by `::Cat`, the lynx is matched, the animal may be a cat, and the dog is left. -/
theorem splitByClass_zoo :
    zoo.Built ∧ zooType.Built ∧ zoo.Opens zooType ∧
      Ty.SameTypes (zoo.Leaf (zoo.splitByClass zooType ⟨"::Cat"⟩).1)
        (fun l => l = .ofClass ⟨"::Lynx"⟩ ∨ l = .ofClass ⟨"::Cat"⟩) ∧
      Ty.SameTypes (zoo.Leaf (zoo.splitByClass zooType ⟨"::Cat"⟩).2) (fun l =>
        l = .ofClass ⟨"::Dog"⟩ ∨ l = .ofClass ⟨"::Animal"⟩ ∨
          l = .named .aliasOf ⟨"::lost"⟩ []) := by
  have hT : zoo.Built := by
    have hmodules : ∀ e ∈ zoo.modules, ∀ t ∈ e.2.parents, t.WellFormed := by decide
    have haliases : ∀ e ∈ zoo.aliases, e.2.body.WellFormed := by decide
    exact ⟨fun e he t ht => Ty.built_iff_wellFormed.mpr (hmodules e he t ht),
      fun e he => Ty.built_iff_wellFormed.mpr (haliases e he)⟩
  have ht : zooType.Built := Ty.built_iff_wellFormed.mpr (by decide)
  have htarget : zoo.untypedInstance ⟨"::Cat"⟩ = .ofClass ⟨"::Cat"⟩ := rfl
  have hlynx : zoo.isSubtype (.ofClass ⟨"::Lynx"⟩) (.ofClass ⟨"::Cat"⟩) = true := by decide
  have hdog : zoo.isSubtype (.ofClass ⟨"::Dog"⟩) (.ofClass ⟨"::Cat"⟩) = false := by decide
  have hanimal : zoo.isSubtype (.ofClass ⟨"::Animal"⟩) (.ofClass ⟨"::Cat"⟩) = false := by decide
  have hcat : zoo.isSubtype (.ofClass ⟨"::Cat"⟩) (.ofClass ⟨"::Animal"⟩) = true := by decide
  have hun : ¬ zoo.Leaf zooType .untyped := by simp [leaf_zooType_iff, Ty.ofClass]
  have hmatches : ∀ l, ((zoo.Leaf zooType l ∧ Taken zoo (.ofClass ⟨"::Cat"⟩) l) ∨
      (l = .ofClass ⟨"::Cat"⟩ ∧ ∃ k, zoo.Leaf zooType k ∧ Broader zoo (.ofClass ⟨"::Cat"⟩) k)) ↔
      l = .ofClass ⟨"::Lynx"⟩ ∨ l = .ofClass ⟨"::Cat"⟩ := by
    refine fun l => ⟨?_, ?_⟩
    · rintro (⟨hl, -, -, halias, hsub⟩ | ⟨rfl, -⟩)
      · rcases leaf_zooType_iff.mp hl with rfl | rfl | rfl | rfl
        · exact Or.inl rfl
        · simp [hdog] at hsub
        · simp [hanimal] at hsub
        · exact absurd rfl (halias _ _)
      · exact Or.inr rfl
    · rintro (rfl | rfl)
      · exact Or.inl ⟨leaf_zooType_iff.mpr (by simp), by simp [Ty.ofClass], by simp [Ty.ofClass],
          by simp [Ty.ofClass], hlynx⟩
      · exact Or.inr ⟨rfl, .ofClass ⟨"::Animal"⟩, leaf_zooType_iff.mpr (by simp),
          Or.inr (Or.inr ⟨by simp [Ty.ofClass], hanimal, hcat⟩)⟩
  have hstays : ∀ l, (zoo.Leaf zooType l ∧ (l = .top ∨ Undeclared zoo l ∨
      zoo.isSubtype l (.ofClass ⟨"::Cat"⟩) = false)) ↔
      l = .ofClass ⟨"::Dog"⟩ ∨ l = .ofClass ⟨"::Animal"⟩ ∨ l = .named .aliasOf ⟨"::lost"⟩ [] := by
    refine fun l => ⟨?_, ?_⟩
    · rintro ⟨hl, h⟩
      rcases leaf_zooType_iff.mp hl with rfl | hl
      · rcases h with h | ⟨name, args, h, -⟩ | h
        · cases h
        · cases h
        · simp [hlynx] at h
      · exact hl
    · rintro (rfl | rfl | rfl)
      · exact ⟨leaf_zooType_iff.mpr (by simp), Or.inr (Or.inr hdog)⟩
      · exact ⟨leaf_zooType_iff.mpr (by simp), Or.inr (Or.inr hanimal)⟩
      · exact ⟨leaf_zooType_iff.mpr (by simp), Or.inr (Or.inl ⟨_, _, rfl, rfl⟩)⟩
  obtain ⟨hmatched, -, hrest⟩ := splitByClass_exact hT ht opens_zooType ⟨"::Cat"⟩
  rw [htarget] at hmatched hrest
  simp only [hmatches, hstays] at hmatched hrest
  exact ⟨hT, ht, opens_zooType, hmatched, hrest hun⟩

/-! ## Splitting once more -/

/-- The matched side is made of leaves that are taken. -/
theorem madeOf_matched {t : Ty} (hopen : T.Opens t) (name : TypeName) :
    (T.splitByClass t name).1.MadeOf fun p =>
      Leaf T p p ∧ Taken T (T.untypedInstance name) p := by
  obtain ⟨n, hn⟩ := hopen
  induction hn with
  | union h ih =>
    rw [splitByClass_union ⟨_, .union h⟩]
    refine .unionOf fun u hu => ?_
    obtain ⟨m, hm, rfl⟩ := List.mem_map.mp hu
    exact ih m hm
  | expansion he h ih =>
    rw [splitByClass_expansion he ⟨_, h⟩, keepAlias_fst]
    exact ih
  | @leaf n t hu he =>
    by_cases hb : t = .bot
    · rw [hb, splitByClass_bot]
      exact .bot
    · have hl : Leaf T t t := .self hu hb he
      rcases splitByClass_of_leaf hl name with ⟨htaken, heq⟩ | ⟨-, heq⟩ | ⟨-, -, heq⟩ <;> rw [heq]
      · exact .of_part hu ⟨hl, htaken⟩
      · have htarget := leaf_untypedInstance T name
        exact .of_part htarget.isLeaf.1 ⟨htarget, taken_untypedInstance T name⟩
      · exact .bot

/-- The other side is made of types that another split leaves alone. -/
theorem madeOf_rest {n : Nat} {t : Ty} (hn : OpensIn T n t) (name : TypeName) :
    (T.splitByClass t name).2.MadeOf fun p =>
      OpensIn T n p ∧ (T.splitByClass p name).2 = p := by
  induction hn with
  | union h ih =>
    rw [splitByClass_union ⟨_, .union h⟩]
    refine .unionOf fun u hu => ?_
    obtain ⟨m, hm, rfl⟩ := List.mem_map.mp hu
    exact ih m hm
  | @expansion n t e he h ih =>
    have hstep := splitByClass_expansion he ⟨_, h⟩ name
    rcases keepAlias_snd t (T.splitByClass e name) with ⟨-, heq⟩ | ⟨-, heq⟩
    · -- The alias is kept, and for the same reason it is kept again.
      rw [hstep, heq]
      refine .of_part ?_ ⟨.expansion he h, by rw [hstep, heq]⟩
      rintro ms rfl
      cases he
    · rw [hstep, heq]
      exact ih.mono fun p _ hp => ⟨hp.1.mono (Nat.le_succ n), hp.2⟩
  | @leaf n t hu he =>
    by_cases hb : t = .bot
    · rw [hb, splitByClass_bot]
      exact .bot
    · have hl : Leaf T t t := .self hu hb he
      rcases splitByClass_of_leaf hl name with ⟨-, heq⟩ | ⟨-, heq⟩ | ⟨-, -, heq⟩
      · rw [heq]
        exact .bot
      · rw [heq]
        exact .of_part hu ⟨.leaf hu he, by rw [heq]⟩
      · rw [heq]
        exact .of_part hu ⟨.leaf hu he, by rw [heq]⟩

/-- Splitting the matched side by the same class again leaves nothing unmatched, and splitting the
other side again leaves it as it is. -/
theorem splitByClass_again {t m u : Ty} {name : TypeName} (hopen : T.Opens t)
    (h : T.splitByClass t name = (m, u)) :
    T.splitByClass m name = (m, .bot) ∧ (T.splitByClass u name).2 = u := by
  obtain ⟨n, hn⟩ := hopen
  have hmatched := madeOf_matched ⟨n, hn⟩ name
  have hrest := madeOf_rest hn name
  rw [h] at hmatched hrest
  constructor
  · rcases hmatched.cases with rfl | ⟨-, hl, htaken⟩ | ⟨ms, rfl, hjoin, hms⟩
    · exact splitByClass_bot T name
    · exact splitByClass_of_taken hl htaken
    · have hsplit : ∀ p ∈ ms, T.splitByClass p name = (p, .bot) :=
        fun p hp => splitByClass_of_taken (hms p hp).1 (hms p hp).2
      have hopens : OpensIn T 0 (.union ms) :=
        .union fun p hp => .leaf (hms p hp).1.isLeaf.1 (hms p hp).1.isLeaf.2.2
      have hfirst : (ms.map fun p => (T.splitByClass p name).1) = ms :=
        (List.map_congr_left fun p hp => by rw [hsplit p hp]).trans (List.map_id' ms)
      rw [splitByClass_union ⟨0, hopens⟩, hfirst, hjoin, Ty.unionOf_eq_bot]
      intro v hv
      obtain ⟨p, hp, rfl⟩ := List.mem_map.mp hv
      rw [hsplit p hp]
  · rcases hrest.cases with rfl | ⟨-, -, hkept⟩ | ⟨ms, rfl, hjoin, hms⟩
    · rw [splitByClass_bot]
    · exact hkept
    · have hsecond : (ms.map fun p => (T.splitByClass p name).2) = ms :=
        (List.map_congr_left fun p hp => (hms p hp).2).trans (List.map_id' ms)
      rw [splitByClass_union ⟨n, .union fun p hp => (hms p hp).1⟩, hsecond, hjoin]

/-- A split of nested aliases that is split again. -/
theorem splitByClass_zoo_again :
    let m : Ty := .union [.ofClass ⟨"::Lynx"⟩, .ofClass ⟨"::Cat"⟩]
    let u : Ty := .union [.ofClass ⟨"::Dog"⟩, .ofClass ⟨"::Animal"⟩, .named .aliasOf ⟨"::lost"⟩ []]
    zoo.Opens zooType ∧ zoo.splitByClass zooType ⟨"::Cat"⟩ = (m, u) ∧
      zoo.splitByClass m ⟨"::Cat"⟩ = (m, .bot) ∧ (zoo.splitByClass u ⟨"::Cat"⟩).2 = u := by
  intro m u
  have hsides : zoo.splitByClass zooType ⟨"::Cat"⟩ = (m, u) := by
    rw [splitByClass_eq (n := 2) (by decide)]
    rfl
  exact ⟨opens_zooType, hsides, splitByClass_again opens_zooType hsides⟩

end Table
end TypeShape
