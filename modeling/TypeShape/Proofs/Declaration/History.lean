import Mathlib.Data.Fin.VecNotation
import Mathlib.Data.List.FinRange
import Mathlib.Logic.Equiv.Basic
import TypeShape.Declaration.Manifest
import TypeShape.Proofs.Keyed

/-!
# The history of a table

A table is made by declarations, one by one or from files, some of which fail.  A failing
declaration leaves the table as it is, and a failing file leaves what came before its fault.  What a
declaration does depends only on what the table says about its name, and it says nothing about other
names; so declarations of different names can change places.

Main results:

- Theorem `Table.declare_cases`: all that a declaration can do.
- Theorems `Table.exclusive_attempt` and `Table.growsTo_attempt`: what it keeps.
- Theorem `Table.outcome_attemptAll`: how a declaration ends depends on the earlier ones of its
  name.
- Theorem `Table.history_is_append_only`: what holds after every history, and across every further
  one.
-/

namespace TypeShape

/-- The name that a declaration is for. -/
def Decl.name : Decl → TypeName
  | .ofModule decl => decl.name
  | .ofAlias decl => decl.name

/-- What a declaration can become: its kind, its type parameters and a superclass stay, and includes
and members are only added at the end. -/
structure ModuleDecl.GrowsTo (d d' : ModuleDecl) : Prop where
  name : d'.name = d.name
  kind : d'.kind = d.kind
  typeParams : d'.typeParams = d.typeParams
  superclass : ∀ t, d.superclass = some t → d'.superclass = some t
  includes : d.includes <+: d'.includes
  members : d.members <+: d'.members

namespace ModuleDecl.GrowsTo

theorem refl (d : ModuleDecl) : d.GrowsTo d :=
  ⟨rfl, rfl, rfl, fun _ h => h, List.prefix_rfl, List.prefix_rfl⟩

theorem trans {a b c : ModuleDecl} (hab : a.GrowsTo b) (hbc : b.GrowsTo c) : a.GrowsTo c where
  name := hbc.name.trans hab.name
  kind := hbc.kind.trans hab.kind
  typeParams := hbc.typeParams.trans hab.typeParams
  superclass t h := hbc.superclass t (hab.superclass t h)
  includes := hab.includes.trans hbc.includes
  members := hab.members.trans hbc.members

theorem reopen (d added : ModuleDecl) : d.GrowsTo (Table.reopen d added) where
  name := rfl
  kind := rfl
  typeParams := rfl
  superclass t h := by simp [Table.reopen, h]
  includes := List.prefix_append _ _
  members := List.prefix_append _ _

end ModuleDecl.GrowsTo

namespace Table

variable {T T' : Table} {d : Decl} {n : TypeName}

/-! ## One declaration -/

/-- A declaration that succeeds stores a class, module or interface under a name that is no alias,
where it goes on from what was there or is as declared, or an alias under a name that is no class,
module or interface. -/
theorem declare_cases (h : T.declare d = .ok T') :
    (∃ decl, T.alias? d.name = none ∧
      T' = { T with modules := Keyed.insert d.name decl T.modules } ∧
      (∀ existing, T.module? d.name = some existing → existing.GrowsTo decl) ∧
      (T.module? d.name = none → d = .ofModule decl)) ∨
    ∃ decl, T.module? d.name = none ∧
      T' = { T with aliases := Keyed.insert d.name decl T.aliases } := by
  cases d with
  | ofModule decl =>
    refine Or.inl ?_
    simp only [declare, declareModule] at h
    split at h
    · cases h
    · rename_i halias
      split at h
      · rename_i hmodule
        obtain rfl := Except.ok.inj h
        exact ⟨decl, halias, rfl, by simp [Decl.name, hmodule], fun _ => rfl⟩
      · rename_i existing hmodule
        split at h
        · obtain rfl := Except.ok.inj h
          refine ⟨_, halias, rfl, fun e he => ?_, fun hnone => ?_⟩
          · obtain rfl := Option.some.inj (hmodule.symm.trans he)
            exact .reopen existing decl
          · cases hmodule.symm.trans hnone
        · cases h
  | ofAlias decl =>
    refine Or.inr ?_
    simp only [declare, declareAlias] at h
    split at h
    · cases h
    · rename_i hmodule
      obtain rfl := Except.ok.inj h
      exact ⟨decl, hmodule, rfl⟩

/-- Makes a declaration; the table is left as it is if that fails. -/
def attempt (T : Table) (d : Decl) : Table × Except DeclError Unit :=
  match T.declare d with
  | .ok T' => (T', .ok ())
  | .error e => (T, .error e)

/-- What holds of the table, and of every table that a declaration can make of it, holds after the
attempt. -/
theorem attempt_induction {P : Table → Prop} (hT : P T)
    (hdeclare : ∀ T', T.declare d = .ok T' → P T') : P (T.attempt d).1 := by
  unfold attempt
  split
  · exact hdeclare _ ‹_›
  · exact hT

/-- The entries are in the order of their names. -/
structure Ordered (T : Table) : Prop where
  modules : Keyed.Sorted T.modules
  aliases : Keyed.Sorted T.aliases

/-- No name is an alias and something else. -/
def Exclusive (T : Table) : Prop :=
  ∀ n, T.module? n = none ∨ T.alias? n = none

/-- Every class, module and interface of one table is there in another, perhaps with more to it. -/
def GrowsTo (T T' : Table) : Prop :=
  ∀ n decl, T.module? n = some decl → ∃ decl', T'.module? n = some decl' ∧ decl.GrowsTo decl'

theorem GrowsTo.refl (T : Table) : T.GrowsTo T :=
  fun _ decl h => ⟨decl, h, .refl decl⟩

theorem GrowsTo.trans {T₁ T₂ T₃ : Table} (h : T₁.GrowsTo T₂) (h' : T₂.GrowsTo T₃) :
    T₁.GrowsTo T₃ := by
  intro n decl hdecl
  obtain ⟨decl₂, hdecl₂, hgrows⟩ := h n decl hdecl
  obtain ⟨decl₃, hdecl₃, hgrows'⟩ := h' n decl₂ hdecl₂
  exact ⟨decl₃, hdecl₃, hgrows.trans hgrows'⟩

theorem Ordered.attempt (h : T.Ordered) (d : Decl) : (T.attempt d).1.Ordered := by
  refine attempt_induction h fun T' hT' => ?_
  obtain ⟨decl, -, rfl, -⟩ | ⟨decl, -, rfl⟩ := declare_cases hT'
  · exact ⟨Keyed.sorted_insert h.modules, h.aliases⟩
  · exact ⟨h.modules, Keyed.sorted_insert h.aliases⟩

theorem exclusive_attempt (h : T.Exclusive) (d : Decl) : (T.attempt d).1.Exclusive := by
  refine attempt_induction h fun T' hT' n => ?_
  obtain ⟨decl, hfree, rfl, -⟩ | ⟨decl, hfree, rfl⟩ := declare_cases hT'
  · by_cases hn : d.name = n
    · exact Or.inr (hn ▸ hfree)
    · exact (h n).imp_left fun hm => by rwa [module?, Keyed.get?_insert, if_neg hn]
  · by_cases hn : d.name = n
    · exact Or.inl (hn ▸ hfree)
    · exact (h n).imp_right fun ha => by rwa [alias?, Keyed.get?_insert, if_neg hn]

theorem growsTo_attempt (T : Table) (d : Decl) : T.GrowsTo (T.attempt d).1 := by
  refine attempt_induction (.refl T) fun T' hT' n old hold => ?_
  obtain ⟨decl, -, rfl, hgrows, -⟩ | ⟨decl, -, rfl⟩ := declare_cases hT'
  · by_cases hn : d.name = n
    · exact ⟨decl, by rw [module?, Keyed.get?_insert, if_pos hn], hgrows old (hn ▸ hold)⟩
    · exact ⟨old, by rwa [module?, Keyed.get?_insert, if_neg hn], .refl old⟩
  · exact ⟨old, hold, .refl old⟩

/-! ## Names apart -/

/-- Two tables say the same about a name. -/
def AgreeAt (n : TypeName) (T T' : Table) : Prop :=
  T.module? n = T'.module? n ∧ T.alias? n = T'.alias? n

theorem AgreeAt.refl (n : TypeName) (T : Table) : AgreeAt n T T :=
  ⟨rfl, rfl⟩

theorem AgreeAt.trans {T₁ T₂ T₃ : Table} (h : AgreeAt n T₁ T₂) (h' : AgreeAt n T₂ T₃) :
    AgreeAt n T₁ T₃ :=
  ⟨h.1.trans h'.1, h.2.trans h'.2⟩

theorem Ordered.eq_of_agreeAt (hT : T.Ordered) (hT' : T'.Ordered) (h : ∀ n, AgreeAt n T T') :
    T = T' := by
  obtain ⟨ms, as⟩ := T
  obtain ⟨ms', as'⟩ := T'
  obtain rfl : ms = ms' := Keyed.eq_of_get?_eq hT.modules hT'.modules fun n => (h n).1
  obtain rfl : as = as' := Keyed.eq_of_get?_eq hT.aliases hT'.aliases fun n => (h n).2
  rfl

/-- A declaration says nothing about other names. -/
theorem agreeAt_attempt_of_ne (T : Table) (h : d.name ≠ n) : AgreeAt n (T.attempt d).1 T := by
  refine attempt_induction (P := fun T' => AgreeAt n T' T) (.refl n T) fun T' hT' => ?_
  obtain ⟨decl, -, rfl, -⟩ | ⟨decl, -, rfl⟩ := declare_cases hT'
  · exact ⟨by rw [module?, Keyed.get?_insert, if_neg h, module?], rfl⟩
  · exact ⟨rfl, by rw [alias?, Keyed.get?_insert, if_neg h, alias?]⟩

/-- What a declaration does depends on what the table says about its name. -/
theorem attempt_congr (h : AgreeAt d.name T T') :
    (T.attempt d).2 = (T'.attempt d).2 ∧ AgreeAt d.name (T.attempt d).1 (T'.attempt d).1 := by
  have hmodules : ∀ decl, AgreeAt d.name { T with modules := Keyed.insert d.name decl T.modules }
      { T' with modules := Keyed.insert d.name decl T'.modules } := fun decl =>
    ⟨by simp [module?, Keyed.get?_insert], h.2⟩
  have haliases : ∀ decl, AgreeAt d.name { T with aliases := Keyed.insert d.name decl T.aliases }
      { T' with aliases := Keyed.insert d.name decl T'.aliases } := fun decl =>
    ⟨h.1, by simp [alias?, Keyed.get?_insert]⟩
  cases d with
  | ofModule decl =>
    have hm : T.module? decl.name = T'.module? decl.name := h.1
    have ha : T.alias? decl.name = T'.alias? decl.name := h.2
    simp only [attempt, declare, declareModule, hm, ha]
    cases T'.alias? decl.name with
    | some a => exact ⟨rfl, h⟩
    | none =>
      cases T'.module? decl.name with
      | none => exact ⟨rfl, hmodules decl⟩
      | some existing =>
        by_cases hkind : existing.kind = decl.kind
        · simp only [hkind, if_true, true_and]
          exact hmodules _
        · simp only [hkind, if_false, true_and]
          exact h
  | ofAlias decl =>
    have hm : T.module? decl.name = T'.module? decl.name := h.1
    simp only [attempt, declare, declareAlias, hm]
    cases T'.module? decl.name with
    | some existing => exact ⟨rfl, h⟩
    | none => exact ⟨rfl, haliases decl⟩

/-! ## Sequences of declarations -/

/-- Makes declarations one after the other, whether or not earlier ones failed, and tells how each
of them ended. -/
def attemptAll (T : Table) : List Decl → Table × List (Except DeclError Unit)
  | [] => (T, [])
  | d :: ds =>
    let first := T.attempt d
    let rest := first.1.attemptAll ds
    (rest.1, first.2 :: rest.2)

/-- What every attempt keeps, a sequence of them keeps. -/
theorem attemptAll_induction {P : Table → Prop} (hstep : ∀ T d, P T → P (T.attempt d).1)
    (ds : List Decl) (hT : P T) : P (T.attemptAll ds).1 := by
  induction ds generalizing T with
  | nil => exact hT
  | cons d ds ih => exact ih (hstep T d hT)

/-- Only the declarations of a name say something about it. -/
theorem agreeAt_attemptAll {ds : List Decl} (h : AgreeAt n T T') :
    AgreeAt n (T.attemptAll ds).1 (T'.attemptAll (ds.filter (·.name = n))).1 := by
  induction ds generalizing T T' with
  | nil => exact h
  | cons d ds ih =>
    by_cases hd : d.name = n
    · subst hd
      rw [List.filter_cons_of_pos (by simp)]
      exact ih (attempt_congr h).2
    · rw [List.filter_cons_of_neg (by simpa using hd)]
      exact ih ((agreeAt_attempt_of_ne T hd).trans h)

/-- How a declaration ends depends only on the earlier declarations of its name. -/
theorem outcome_attemptAll {ds : List Decl} {i : Nat} (hd : ds[i]? = some d) :
    (T.attemptAll ds).2[i]? =
      some ((T.attemptAll ((ds.take i).filter (·.name = d.name))).1.attempt d).2 := by
  have hagree : AgreeAt d.name (T.attemptAll (ds.take i)).1 _ := agreeAt_attemptAll (.refl d.name T)
  rw [← (attempt_congr hagree).1]
  clear hagree
  induction ds generalizing T i with
  | nil => simp at hd
  | cons e ds ih =>
    cases i with
    | zero =>
      obtain rfl : e = d := by simpa using hd
      rfl
    | succ i => exact ih (by simpa using hd)

/-! ## Reordering -/

section Reordering

variable {α : Type} {k : Nat} (f : Fin k → α) (σ : Equiv.Perm (Fin k))

/-- A reordering that goes upwards on some positions lists them in their old order. -/
theorem map_filter_finRange {p q : Fin k → Bool} (hpq : ∀ i, p i = q (σ i))
    (hσ : ∀ i j, p i → p j → i < j → σ i < σ j) :
    ((List.finRange k).filter p).map σ = (List.finRange k).filter q := by
  have hsorted : ∀ r : Fin k → Bool, ((List.finRange k).filter r).Pairwise (· < ·) := fun r =>
    (List.pairwise_lt_finRange k).filter r
  have hmap : (((List.finRange k).filter p).map σ).Pairwise (· < ·) := by
    rw [List.pairwise_map]
    refine (hsorted p).imp_of_mem ?_
    intro i j hi hj hij
    exact hσ i j (List.mem_filter.mp hi).2 (List.mem_filter.mp hj).2 hij
  have hperm : (((List.finRange k).filter p).map σ).Perm ((List.finRange k).filter q) := by
    rw [List.perm_ext_iff_of_nodup (hmap.imp ne_of_lt) ((hsorted q).imp ne_of_lt)]
    intro j
    simp only [List.mem_map, List.mem_filter, List.mem_finRange, true_and, hpq]
    constructor
    · rintro ⟨i, hi, rfl⟩
      exact hi
    · intro hj
      exact ⟨σ.symm j, by simpa using hj, by simp⟩
  exact hperm.eq_of_pairwise (fun a b _ _ hab hba => absurd hab (lt_asymm hba)) hmap (hsorted q)

theorem take_ofFn (i : Nat) :
    (List.ofFn f).take i = ((List.finRange k).filter (·.val < i)).map f := by
  have hfilter : (List.finRange k).filter (·.val < i) = (List.finRange k).take i := by
    conv_lhs => rw [← List.take_append_drop i (List.finRange k), List.filter_append]
    rw [List.filter_eq_self.mpr, List.filter_eq_nil_iff.mpr, List.append_nil]
    · intro a ha
      obtain ⟨j, hj, rfl⟩ := List.mem_drop_iff_getElem.mp ha
      simp
    · intro a ha
      obtain ⟨j, hj, rfl⟩ := List.mem_take_iff_getElem.mp ha
      simp only [List.getElem_finRange, Fin.val_cast, decide_eq_true_eq]
      omega
  rw [hfilter, List.map_take, List.ofFn_eq_map]

/-- A reordering that keeps some elements in order, and each of them on its side of a cut, leaves
the same ones of them before the cut. -/
theorem filter_take_ofFn_comp {p : α → Bool} {i j : Nat}
    (hσ : ∀ l m, l < m → p (f (σ l)) → p (f (σ m)) → σ l < σ m)
    (hcut : ∀ l, p (f (σ l)) → (l.val < i ↔ (σ l).val < j)) :
    ((List.ofFn (f ∘ σ)).take i).filter p = ((List.ofFn f).take j).filter p := by
  rw [take_ofFn, take_ofFn, List.filter_map, List.filter_map, List.filter_filter,
    List.filter_filter, ← List.map_map, map_filter_finRange]
  · intro l
    cases hl : p (f (σ l)) with
    | false => simp [hl]
    | true => simpa [hl] using hcut l hl
  · intro l m hl hm hlm
    simp only [Function.comp_apply, Bool.and_eq_true] at hl hm
    exact hσ l m hlm hl.1 hm.1

end Reordering

section Reordered

variable {k : Nat} {ds : Fin k → Decl} {σ : Equiv.Perm (Fin k)}
  (hσ : ∀ i j, i < j → (ds (σ i)).name = (ds (σ j)).name → σ i < σ j)

include hσ

/-- Before and after a reordering the declarations of a name are the same, in the same order. -/
theorem filter_name_reordered (n : TypeName) :
    (List.ofFn (ds ∘ σ)).filter (·.name = n) = (List.ofFn ds).filter (·.name = n) := by
  have h := filter_take_ofFn_comp (p := fun d => d.name = n) (i := k) (j := k) ds σ ?_ ?_
  · rwa [List.take_of_length_le (by simp), List.take_of_length_le (by simp)] at h
  · intro l m hlm hl hm
    exact hσ l m hlm (by simp_all)
  · simp

/-- So are those before any one of them. -/
theorem filter_name_reordered_before (i : Fin k) :
    ((List.ofFn (ds ∘ σ)).take i).filter (·.name = (ds (σ i)).name) =
      ((List.ofFn ds).take (σ i)).filter (·.name = (ds (σ i)).name) := by
  refine filter_take_ofFn_comp ds σ ?_ ?_
  · intro l m hlm hl hm
    exact hσ l m hlm (by simp_all)
  · intro l hl
    have hname : (ds (σ l)).name = (ds (σ i)).name := by simpa using hl
    constructor
    · exact fun hlt => hσ l i hlt hname
    · intro hlt
      by_contra hle
      rcases lt_or_eq_of_le (not_lt.mp hle) with hil | hil
      · exact lt_asymm hlt (hσ i l hil hname.symm)
      · obtain rfl : i = l := Fin.ext hil
        exact lt_irrefl _ hlt

/-- A reordering that keeps the declarations of each name in order changes neither the table nor how
any declaration ends. -/
theorem attemptAll_reordered (hT : T.Ordered) :
    (T.attemptAll (List.ofFn (ds ∘ σ))).1 = (T.attemptAll (List.ofFn ds)).1 ∧
    ∀ i, ∃ outcome, (T.attemptAll (List.ofFn (ds ∘ σ))).2[i.val]? = some outcome ∧
      (T.attemptAll (List.ofFn ds)).2[(σ i).val]? = some outcome := by
  constructor
  · have hordered : ∀ ds, (T.attemptAll ds).1.Ordered := fun ds =>
      attemptAll_induction (fun _ d h => h.attempt d) ds hT
    refine (hordered _).eq_of_agreeAt (hordered _) fun n => ?_
    have hbefore : AgreeAt n (T.attemptAll (List.ofFn ds)).1 _ := agreeAt_attemptAll (.refl n T)
    have hafter : AgreeAt n (T.attemptAll (List.ofFn (ds ∘ σ))).1 _ :=
      agreeAt_attemptAll (.refl n T)
    rw [filter_name_reordered hσ n] at hafter
    exact ⟨hafter.1.trans hbefore.1.symm, hafter.2.trans hbefore.2.symm⟩
  · intro i
    refine ⟨_, outcome_attemptAll (d := ds (σ i)) (by simp), ?_⟩
    rw [outcome_attemptAll (d := ds (σ i)) (by simp), filter_name_reordered_before hσ]

end Reordered

/-! ## Histories -/

/-- A step in the history of a table: a declaration, or what a reader of files makes of one.  So
histories do not depend on how files are written. -/
inductive Operation where
  | declare (decl : Decl)
  | extend (file : Option Manifest)

/-- Takes a step, and tells how it ends. -/
def perform (T : Table) : Operation → Table × Except DeclError Unit
  | .declare d => T.attempt d
  | .extend file => T.addFile file

/-- The table after some steps. -/
def after (T : Table) (ops : List Operation) : Table :=
  ops.foldl (fun T op => (T.perform op).1) T

/-- A file makes some declarations. -/
theorem exists_attemptAll_addAll (T : Table) (entries : List (Except DeclError Decl)) :
    ∃ ds, (T.addAll entries).1 = (T.attemptAll ds).1 := by
  fun_induction addAll T entries with
  | case1 T => exact ⟨[], rfl⟩
  | case2 T e rest => exact ⟨[], rfl⟩
  | case3 T d rest e h => exact ⟨[], rfl⟩
  | case4 T d rest T' h ih =>
    obtain ⟨ds, hds⟩ := ih
    refine ⟨d :: ds, ?_⟩
    rw [hds, attemptAll, attempt, h]

/-- What every declaration keeps, every history keeps. -/
theorem after_induction {P : Table → Prop} (hstep : ∀ T d, P T → P (T.attempt d).1)
    (ops : List Operation) (hT : P T) : P (T.after ops) := by
  refine List.foldlRecOn ops _ hT fun T hT op _ => ?_
  cases op with
  | declare d => exact hstep T d hT
  | extend file =>
    cases file with
    | none => exact hT
    | some file =>
      obtain ⟨ds, hds⟩ := exists_attemptAll_addAll T file.decls
      exact hds ▸ attemptAll_induction hstep ds hT

/-- After every history from the empty table no name is an alias and something else; every further
history lets declarations only grow; and the declarations of different names can change places,
which changes neither the table nor how any of them ends. -/
theorem history_is_append_only (ops : List Operation) :
    (Table.empty.after ops).Exclusive ∧
    (∀ more, (Table.empty.after ops).GrowsTo ((Table.empty.after ops).after more)) ∧
    ∀ (k : Nat) (ds : Fin k → Decl) (σ : Equiv.Perm (Fin k)),
      (∀ i j, i < j → (ds (σ i)).name = (ds (σ j)).name → σ i < σ j) →
      ((Table.empty.after ops).attemptAll (List.ofFn (ds ∘ σ))).1 =
        ((Table.empty.after ops).attemptAll (List.ofFn ds)).1 ∧
      ∀ i, ∃ outcome,
        ((Table.empty.after ops).attemptAll (List.ofFn (ds ∘ σ))).2[i.val]? = some outcome ∧
        ((Table.empty.after ops).attemptAll (List.ofFn ds)).2[(σ i).val]? = some outcome := by
  have hordered : (Table.empty.after ops).Ordered :=
    after_induction (fun _ d h => h.attempt d) ops ⟨List.Pairwise.nil, List.Pairwise.nil⟩
  have hempty : Table.empty.Exclusive := fun _ => Or.inl rfl
  refine ⟨after_induction (P := Exclusive) (fun _ d h => exclusive_attempt h d) ops hempty,
    fun more => ?_, fun k ds σ hσ => attemptAll_reordered hσ hordered⟩
  exact after_induction (fun _ d h => h.trans (growsTo_attempt _ d)) more (.refl _)

/-- A class with a superclass, declared again as an alias. -/
def shelfHistory : List Operation :=
  [.declare (.ofModule { name := ⟨"::Shelf"⟩, kind := .classDecl,
                         superclass := some (.ofClass ⟨"::Box"⟩) }),
    .declare (.ofAlias { name := ⟨"::Shelf"⟩, body := .nil })]

/-- Declarations of two names, the second of each of which fails. -/
def shelfDecls : Fin 4 → Decl :=
  ![.ofModule { name := ⟨"::Shelf"⟩, kind := .classDecl, superclass := some .nil,
                includes := [.ofClass ⟨"::Each"⟩] },
    .ofModule { name := ⟨"::Shelf"⟩, kind := .moduleDecl },
    .ofAlias { name := ⟨"::box"⟩, body := .ofClass ⟨"::Box"⟩ },
    .ofModule { name := ⟨"::box"⟩, kind := .interfaceDecl }]

/-- The first declaration of the second name comes first. -/
def boxFirst : Equiv.Perm (Fin 4) :=
  (Equiv.swap 0 2).trans (Equiv.swap 0 1)

theorem history_of_shelf :
    (∀ i j, i < j → (shelfDecls (boxFirst i)).name = (shelfDecls (boxFirst j)).name →
      boxFirst i < boxFirst j) ∧
    (Table.empty.after shelfHistory).Exclusive ∧
    (Table.empty.after shelfHistory).GrowsTo
      ((Table.empty.after shelfHistory).after
        [.declare (shelfDecls 0), .extend (Manifest.read "[")]) ∧
    ((Table.empty.after shelfHistory).attemptAll (List.ofFn (shelfDecls ∘ boxFirst))).2 =
      [.ok (), .ok (),
        .error (.conflict ⟨"::Shelf"⟩ (.ofModule .classDecl) (.ofModule .moduleDecl)),
        .error (.conflict ⟨"::box"⟩ .ofAlias (.ofModule .interfaceDecl))] ∧
    ((Table.empty.after shelfHistory).attemptAll (List.ofFn (shelfDecls ∘ boxFirst))).1 =
      ((Table.empty.after shelfHistory).attemptAll (List.ofFn shelfDecls)).1 := by
  have hσ : ∀ i j, i < j → (shelfDecls (boxFirst i)).name = (shelfDecls (boxFirst j)).name →
      boxFirst i < boxFirst j := by decide
  obtain ⟨hexclusive, hgrows, hreorder⟩ := history_is_append_only shelfHistory
  exact ⟨hσ, hexclusive, hgrows _, rfl, (hreorder 4 shelfDecls boxFirst hσ).1⟩

end Table
end TypeShape
