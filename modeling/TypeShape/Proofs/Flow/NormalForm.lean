import TypeShape.Proofs.Flow.Invariant
import TypeShape.Proofs.Split.NormalForm

/-!
# Conditions in normal form

Following a condition from declarations, recorded types and an environment in normal form gives
environments and types in normal form, for both branches of a condition and for every clause of a
case expression.

Main results:

- Theorem `Flow.Normal.invariant`: what conditions do keeps types and environments in normal form.
- Theorem `Flow.Normal.follow`: both branches of a condition are in normal form.
- Theorem `Flow.Normal.followCase`: so are the environments of a case expression.
-/

namespace TypeShape

/-! ## Environments -/

/-- Everything that is known is in normal form. -/
structure Env.Normal (env : Env) : Prop where
  vars : ∀ e ∈ env.vars, e.2.Normal
  calls : ∀ e ∈ env.calls, e.2.Normal

theorem Keyed.normal_insert {κ : Type} [Ord κ] {k : κ} {t : Ty} {es : List (κ × Ty)}
    (hes : ∀ e ∈ es, e.2.Normal) (ht : t.Normal) : ∀ e ∈ Keyed.insert k t es, e.2.Normal := by
  intro e he
  rcases Keyed.mem_insert he with rfl | he
  · exact ht
  · exact hes e he

namespace Env

/-- Adding entries in normal form to entries in normal form keeps them so. -/
theorem normal_foldl_joinEntry {κ : Type} [DecidableEq κ] [Ord κ] {es fs : List (κ × Ty)}
    (hes : ∀ e ∈ es, e.2.Normal) (hfs : ∀ f ∈ fs, f.2.Normal) :
    ∀ e ∈ fs.foldl joinEntry es, e.2.Normal := by
  induction fs generalizing es with
  | nil => exact hes
  | cons f fs ih =>
    obtain ⟨hf, hfs⟩ := List.forall_mem_cons.mp hfs
    refine ih ?_ hfs
    unfold joinEntry
    split
    · have hold := hes _ (Keyed.mem_of_get? ‹_›)
      exact Keyed.normal_insert hes (Ty.normal_unionOf (by simp [hold, hf]))
    · exact Keyed.normal_insert hes hf

namespace Normal

variable {env env' : Env}

theorem lookup {key : EnvKey} {t : Ty} (henv : env.Normal) (h : env.lookup key = some t) :
    t.Normal := by
  cases key with
  | var name => exact henv.vars _ (Keyed.mem_of_get? h)
  | call id => exact henv.calls _ (Keyed.mem_of_get? h)

theorem refine (henv : env.Normal) (key : EnvKey) {t : Ty} (ht : t.Normal) :
    (env.refine key t).Normal := by
  cases key with
  | var name => exact ⟨Keyed.normal_insert henv.vars ht, henv.calls⟩
  | call id => exact ⟨henv.vars, Keyed.normal_insert henv.calls ht⟩

theorem join (henv : env.Normal) (henv' : env'.Normal) : (env.join env').Normal :=
  ⟨normal_foldl_joinEntry henv.vars henv'.vars, normal_foldl_joinEntry henv.calls henv'.calls⟩

end Normal
end Env

/-! ## Branches -/

/-- The environments and types of both branches are in normal form. -/
structure Branches.Normal (e : Branches) : Prop where
  truthyEnv : e.truthyEnv.Normal
  falsyEnv : e.falsyEnv.Normal
  truthyType : e.truthyType.Normal
  falsyType : e.falsyType.Normal

theorem Typing.normal_of_typeOf {s : Typing} (hs : ∀ e ∈ s.types, e.2.Normal) {id : Nat} {t : Ty}
    (h : s.typeOf id = .ok t) : t.Normal := by
  unfold typeOf at h
  split at h
  · obtain rfl := Except.ok.inj h
    exact hs _ (Keyed.mem_of_get? ‹_›)
  · cases h

namespace Flow

/-- The declarations and the recorded types are in normal form. -/
structure Normal (K : Flow) : Prop where
  table : K.table.Normal
  types : ∀ e ∈ K.typing.types, e.2.Normal

section Follow

variable {K : Flow} (hK : K.Normal)

include hK

theorem Normal.typeOf {id : Nat} {t : Ty} (h : K.typing.typeOf id = .ok t) : t.Normal :=
  Typing.normal_of_typeOf hK.types h

theorem normal_elementTypes? {t : Ty} {count : Nat} {types : List Ty} (ht : t.Normal)
    (h : K.elementTypes? t count = some types) : ∀ u ∈ types, u.Normal := by
  have hhead := hK.table.unfoldHead ht
  unfold elementTypes? at h
  split at h
  · rename_i items hitems
    rw [hitems] at hhead
    obtain rfl := Option.some.inj h
    intro u hu
    obtain ⟨i, -, rfl⟩ := List.mem_map.mp hu
    split
    · rename_i item hitem
      exact (hK.table.splitByTruth (hhead.part (List.mem_of_getElem? hitem))).1
    · rfl
  · rename_i name item hitem
    rw [hitem] at hhead
    split at h
    · obtain rfl := Option.some.inj h
      intro u hu
      obtain rfl := List.eq_of_mem_replicate hu
      have hnil : Ty.nil.Normal := rfl
      have hpart : item.Normal := hhead.part List.mem_cons_self
      exact Ty.normal_unionOf (by simp [hpart, hnil])
    · cases h
  · cases h

theorem Normal.invariant : K.Invariant Ty.Normal Env.Normal where
  atom := hK.table.handsDown.atom
  unionOf := Ty.normal_unionOf
  typeOf := hK.typeOf
  splitByTruth := hK.table.splitByTruth
  splitByNil := hK.table.splitByNil
  splitByClass := hK.table.splitByClass
  equalPart := hK.table.equalPart
  belowPart ht hancestor := hK.table.belowPart ht hancestor
  elements := normal_elementTypes? hK
  lookup := Env.Normal.lookup
  refine henv key ht := henv.refine key ht
  join := Env.Normal.join

/-- Both branches of a condition are in normal form. -/
theorem Normal.follow (n : Expr) {env : Env} {e : Branches} (henv : env.Normal)
    (h : K.follow n env = .ok e) : e.Normal := by
  obtain ⟨htruthyEnv, hfalsyEnv, -, htruthyType, hfalsyType⟩ := hK.invariant.follow n henv h
  exact ⟨htruthyEnv, hfalsyEnv, htruthyType, hfalsyType⟩

/-! ## Case expressions -/

theorem normal_matchPattern {t : Ty} (ht : t.Normal) (n : Expr) :
    Table.NormalSides (K.matchPattern t n) := by
  unfold matchPattern
  split
  · exact hK.table.splitByClass ht _
  · exact ⟨hK.table.equalPart ht _, ht⟩
  · exact ⟨ht, ht⟩

theorem normal_matchPatterns (ps : List Expr) {t : Ty} (ht : t.Normal) :
    (∀ u ∈ (K.matchPatterns ps t).1, u.Normal) ∧ (K.matchPatterns ps t).2.Normal := by
  induction ps generalizing t with
  | nil => exact ⟨by simp [matchPatterns], ht⟩
  | cons p ps ih =>
    obtain ⟨hmatched, hleft⟩ := normal_matchPattern hK ht p
    obtain ⟨hrest, hleft⟩ := ih hleft
    exact ⟨List.forall_mem_cons.mpr ⟨hmatched, hrest⟩, hleft⟩

theorem normal_followClauses {scrutinee : Expr} {env : Env} (henv : env.Normal)
    {clauses : List (Clause Expr)} {t : Ty} (ht : t.Normal) :
    (∀ env' ∈ (K.followClauses scrutinee env clauses t).1, env'.Normal) ∧
      (K.followClauses scrutinee env clauses t).2.Normal := by
  induction clauses generalizing t with
  | nil => exact ⟨by simp [followClauses], ht⟩
  | cons w ws ih =>
    obtain ⟨hmatched, hleft⟩ := normal_matchPatterns hK w.patterns ht
    obtain ⟨hrest, hleft⟩ := ih hleft
    refine ⟨List.forall_mem_cons.mpr ⟨?_, hrest⟩, hleft⟩
    exact hK.invariant.narrow (Ty.normal_unionOf hmatched) scrutinee henv

/-- The environments of all clauses and of the else branch are in normal form. -/
theorem Normal.followCase {n : Expr} {env : Env} {e : CaseBranches} (henv : env.Normal)
    (h : K.followCase env n = .ok e) : (∀ env' ∈ e.clauses, env'.Normal) ∧ e.elseEnv.Normal := by
  unfold Flow.followCase at h
  split at h
  · obtain rfl := Except.ok.inj h
    refine ⟨fun env' henv' => ?_, henv⟩
    obtain ⟨w, -, rfl⟩ := List.mem_map.mp henv'
    exact henv
  · obtain ⟨t, ht, h⟩ := exists_of_bind_ok h
    obtain rfl := Except.ok.inj h
    obtain ⟨hclauses, hleft⟩ := normal_followClauses hK henv (hK.typeOf ht)
    exact ⟨hclauses, hK.invariant.narrow hleft _ henv⟩
  · obtain rfl := Except.ok.inj h
    exact ⟨by simp, henv⟩

end Follow

end Flow
end TypeShape
