import TypeShape.Declaration.Table
import TypeShape.Proofs.Types.Overloads

/-!
# Arguments for type parameters

An application binds the type parameters of a declaration to its arguments.  What is bound comes
from the arguments, and equal arguments give equal expansions of an alias.

Main results:

- Theorem `Table.imageOf_bindParams`: a type parameter becomes an argument or `untyped`.
- Theorem `Subst.andThen_of_vars_eq_nil`: anchors and arguments never clash.
- Theorem `Table.beq_expansion`: aliases applied to equal arguments have equal expansions.
-/

namespace TypeShape

namespace Subst

/-- A variable is bound to one of the values. -/
theorem mem_of_ofLists {vars : List String} {values : List Ty} {anchors : Anchors} {s : Subst}
    (h : ofLists vars values anchors = .ok s) {x : String} {t : Ty} (hx : s.get? x = some t) :
    t ∈ values := by
  unfold ofLists at h
  split at h
  · obtain rfl := Except.ok.inj h
    have hmem := Keyed.mem_of_mem_ofList (Keyed.mem_of_get? hx)
    exact (List.of_mem_zip hmem).2
  · cases h

theorem sorted_of_ofLists {vars : List String} {values : List Ty} {anchors : Anchors} {s : Subst}
    (h : ofLists vars values anchors = .ok s) : Keyed.Sorted s.vars := by
  unfold ofLists at h
  split at h
  · obtain rfl := Except.ok.inj h
    exact Keyed.sorted_ofList
  · cases h

theorem anchors_of_ofLists {vars : List String} {values : List Ty} {anchors : Anchors} {s : Subst}
    (h : ofLists vars values anchors = .ok s) : s.anchors = anchors := by
  unfold ofLists at h
  split at h
  · obtain rfl := Except.ok.inj h
    rfl
  · cases h

/-- Variables in order are added one after another. -/
theorem foldlM_addVar {acc vars : List (String × Ty)} (h : Keyed.Sorted (acc ++ vars)) :
    vars.foldlM addVar acc = .ok (acc ++ vars) := by
  induction vars generalizing acc with
  | nil => simp [pure, Except.pure]
  | cons e vars ih =>
    have hlt : ∀ f ∈ acc, compare f.1 e.1 = .lt :=
      fun f hf => (List.pairwise_append.mp h).2.2 f hf e List.mem_cons_self
    have hadd : addVar acc e = .ok (acc ++ [e]) := by
      unfold addVar
      rw [Keyed.get?_eq_none_of_forall_lt hlt, Keyed.insert_of_forall_lt hlt]
    rw [List.foldlM_cons, hadd]
    have hrest : vars.foldlM addVar (acc ++ [e]) = .ok (acc ++ [e] ++ vars) := ih (by simpa using h)
    simpa [bind, Except.bind] using hrest

/-- A substitution of placeholders only is followed by any other. -/
theorem andThen_of_vars_eq_nil {s o : Subst} (hs : s.vars = []) (ho : Keyed.Sorted o.vars) :
    s.andThen o = .ok ⟨o.vars, s.anchors.orElse o.anchors⟩ := by
  unfold andThen
  rw [hs, List.map_nil, foldlM_addVar (by simpa using ho)]
  rfl

end Subst

namespace Table

/-- A type parameter becomes an argument or `untyped`; nothing else changes. -/
theorem imageOf_bindParams (params : List TypeParam) (args : List Ty) (x : FreeVar) :
    (bindParams params args).imageOf x = x.toTy ∨ (bindParams params args).imageOf x = .untyped ∨
      (bindParams params args).imageOf x ∈ args := by
  unfold bindParams
  cases hl : Subst.ofLists (params.map (·.name)) (argsOrUntyped params args) {} with
  | error e => exact Or.inl (Subst.imageOf_of_isEmpty rfl x)
  | ok s =>
    cases x with
    | slot p =>
      refine Or.inl ?_
      simp only [Subst.imageOf, Subst.image?, Subst.anchors_of_ofLists hl]
      cases p <;> rfl
    | var x =>
      cases hx : s.get? x with
      | none => exact Or.inl (by simp [Subst.imageOf, Subst.image?, hx])
      | some t =>
        have himage : s.imageOf (.var x) = t := by simp [Subst.imageOf, Subst.image?, hx]
        simp only [himage]
        have hmem := Subst.mem_of_ofLists hl hx
        unfold argsOrUntyped at hmem
        split at hmem
        · obtain ⟨p, -, rfl⟩ := List.mem_map.mp hmem
          exact Or.inr (Or.inl rfl)
        · exact Or.inr (Or.inr hmem)

/-- What holds of arguments and of what an expansion does not touch holds of what it puts in. -/
theorem all_imageOf_bindParams {test : Ty → Bool} (hun : test .untyped = true)
    {params : List TypeParam} {args : List Ty} (hargs : ∀ t ∈ args, t.all test = true)
    {x : FreeVar} (hx : test x.toTy = true) :
    ((bindParams params args).imageOf x).all test = true := by
  rcases imageOf_bindParams params args x with h | h | h
  · rw [h, FreeVar.all_toTy]
    exact hx
  · rw [h]
    exact Ty.all_of_parts_eq_nil rfl hun
  · exact hargs _ h

theorem bindParams_eq (params : List TypeParam) (args : List Ty) :
    bindParams params args =
      if params.length = (argsOrUntyped params args).length then
        { vars := Keyed.ofList ((params.map (·.name)).zip (argsOrUntyped params args)) }
      else .empty := by
  unfold bindParams Subst.ofLists
  rw [List.length_map]
  by_cases h : params.length = (argsOrUntyped params args).length
  · rw [if_pos h, if_pos h]
  · rw [if_neg h, if_neg h]

/-- Related arguments give substitutions of the same variables by related types. -/
theorem bindParams_rel {R : Ty → Ty → Prop} (hun : R .untyped .untyped) (params : List TypeParam)
    {args args' : List Ty} (h : List.Forall₂ R args args') :
    EntriesRel R (bindParams params args).vars (bindParams params args').vars := by
  have hempty : args.isEmpty = args'.isEmpty := by
    cases h <;> rfl
  have hvalues : List.Forall₂ R (argsOrUntyped params args) (argsOrUntyped params args') := by
    unfold argsOrUntyped
    rw [← hempty]
    split
    · rw [List.forall₂_map_left_iff, List.forall₂_map_right_iff]
      exact List.forall₂_same.mpr fun _ _ => hun
    · exact h
  rw [bindParams_eq, bindParams_eq, ← hvalues.length_eq]
  by_cases hlen : params.length = (argsOrUntyped params args).length
  · rw [if_pos hlen, if_pos hlen]
    refine Keyed.entriesRel_ofList (entriesRel_iff.mpr ⟨?_, ?_⟩)
    · rw [List.map_fst_zip (by simp [hlen]),
        List.map_fst_zip (by simp [hlen, hvalues.length_eq])]
    · rw [List.map_snd_zip (by simp [hlen]),
        List.map_snd_zip (by simp [hlen, hvalues.length_eq])]
      exact hvalues
  · rw [if_neg hlen, if_neg hlen]
    exact .nil

/-- Every type parameter is bound, if there are as many arguments or none. -/
theorem exists_get?_bindParams {params : List TypeParam} {args : List Ty}
    (hargs : args = [] ∨ args.length = params.length) {p : TypeParam} (hp : p ∈ params) :
    ∃ t, (bindParams params args).get? p.name = some t := by
  have hlen : params.length = (argsOrUntyped params args).length := by
    unfold argsOrUntyped
    rcases hargs with rfl | hlen
    · simp
    · split <;> simp [hlen]
  have hkey : p.name ∈ ((params.map (·.name)).zip (argsOrUntyped params args)).map (·.1) := by
    rw [List.map_fst_zip (by simp [hlen])]
    exact List.mem_map_of_mem hp
  rw [bindParams_eq, if_pos hlen]
  exact Keyed.exists_get?_ofList hkey

theorem anchors_bindParams (params : List TypeParam) (args : List Ty) :
    (bindParams params args).anchors = {} := by
  rw [bindParams_eq]
  split <;> rfl

theorem beq_imageOf_bindParams {params : List TypeParam} {args args' : List Ty}
    (h : List.Forall₂ (fun a b => (a == b) = true) args args') (x : FreeVar) :
    ((bindParams params args).imageOf x == (bindParams params args').imageOf x) = true := by
  cases x with
  | slot p =>
    simp only [Subst.imageOf, Subst.image?, anchors_bindParams]
    exact Ty.beq_refl _
  | var x =>
    have hrel := Keyed.get?_rel (bindParams_rel (Ty.beq_refl _) params h) x
    simp only [Subst.imageOf, Subst.image?, Subst.get?]
    generalize Keyed.get? x (bindParams params args).vars = t at hrel ⊢
    generalize Keyed.get? x (bindParams params args').vars = t' at hrel ⊢
    cases hrel with
    | none => exact Ty.beq_refl _
    | some hab => exact hab

theorem wellFormed_imageOf_bindParams {params : List TypeParam} {args : List Ty}
    (h : ∀ a ∈ args, a.WellFormed) (x : FreeVar) :
    ((bindParams params args).imageOf x).WellFormed := by
  refine all_imageOf_bindParams rfl h ?_
  cases x <;> rfl

/-- Equal arguments make equal types. -/
theorem beq_apply_bindParams {params : List TypeParam} {args args' : List Ty} {t : Ty}
    (ht : t.WellFormed) (hargs : ∀ a ∈ args, a.WellFormed) (hargs' : ∀ a ∈ args', a.WellFormed)
    (h : List.Forall₂ (fun a b => (a == b) = true) args args') :
    ((bindParams params args).apply t == (bindParams params args').apply t) = true := by
  -- One substitution is empty exactly when the other is: they have the same variables.
  have hsame : (bindParams params args).isEmpty = (bindParams params args').isEmpty := by
    have hrel := bindParams_rel (Ty.beq_refl _) params h
    simp only [Subst.isEmpty, anchors_bindParams]
    generalize (bindParams params args).vars = vars at hrel
    generalize (bindParams params args').vars = vars' at hrel
    cases hrel <;> rfl
  unfold Subst.apply
  rw [← hsame]
  split
  · exact Ty.beq_refl _
  · exact Subst.beq_replace ht (fun x _ => wellFormed_imageOf_bindParams hargs x)
      (fun x _ => wellFormed_imageOf_bindParams hargs' x) fun x _ => beq_imageOf_bindParams h x

/-- Every alias body has distinct members throughout. -/
def AliasesWellFormed (T : Table) : Prop :=
  ∀ e ∈ T.aliases, e.2.body.WellFormed

instance (T : Table) : Decidable T.AliasesWellFormed :=
  inferInstanceAs (Decidable (∀ e ∈ T.aliases, e.2.body.WellFormed))

theorem wellFormed_expansion {T : Table} (hT : T.AliasesWellFormed) {name : TypeName}
    {args : List Ty} {t : Ty} (hargs : ∀ a ∈ args, a.WellFormed)
    (h : T.expansion name args = .ok t) : t.WellFormed := by
  unfold expansion at h
  split at h
  · rename_i decl hdecl
    obtain rfl := Except.ok.inj h
    exact Subst.wellFormed_apply (hT _ (Keyed.mem_of_get? hdecl)) fun x _ =>
      wellFormed_imageOf_bindParams hargs x
  · cases h

/-- Aliases applied to equal arguments have equal expansions. -/
theorem beq_expansion {T : Table} (hT : T.AliasesWellFormed) {name : TypeName}
    {args args' : List Ty} {t : Ty} (hargs : ∀ a ∈ args, a.WellFormed)
    (hargs' : ∀ a ∈ args', a.WellFormed)
    (hbeq : List.Forall₂ (fun a b => (a == b) = true) args args')
    (h : T.expansion name args = .ok t) :
    ∃ t', T.expansion name args' = .ok t' ∧ (t == t') = true := by
  unfold expansion at h ⊢
  split at h
  · rename_i decl hdecl
    obtain rfl := Except.ok.inj h
    exact ⟨_, rfl, beq_apply_bindParams (hT _ (Keyed.mem_of_get? hdecl)) hargs hargs' hbeq⟩
  · cases h

end Table
end TypeShape
