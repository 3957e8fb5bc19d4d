import TypeShape.Proofs.Types.Flattening
import TypeShape.Proofs.Types.Open
import TypeShape.Proofs.Types.Signatures

/-!
# Merged overloads

Overloads are merged two at a time.  What comes out after any number of merges is what all of them
have in common: every parameter takes the intersection of what they take there, and the result is
the union of their results.

Main results:

- Theorem `Params.toList_zipWith`: parameter lists of one layout are paired position by position.
- Theorems `Overload.joins_of_merge?` and `Overload.exists_merge?`: overloads that are alike merge
  into one that stands for both.
- Theorem `Overload.Joins.append`: a merge with a merged overload stands for all.
-/

namespace TypeShape

/-! ## Paired parameter lists -/

namespace Params

variable {α β γ : Type} {f : α → β → γ} {p : Params α} {q : Params β}

/-- Zipping keyword lists with equal names keeps the names. -/
theorem map_fst_zipKeywords {ks : List (String × α)} {ls : List (String × β)}
    (h : ks.map (·.1) = ls.map (·.1)) : (zipKeywords f ks ls).map (·.1) = ks.map (·.1) := by
  induction ks generalizing ls with
  | nil => rfl
  | cons k ks ih =>
    cases ls with
    | nil => cases h
    | cons l ls =>
      have htail := ih (List.cons.inj h).2
      simpa [zipKeywords] using htail

/-- The values of zipped keyword lists are zipped. -/
theorem map_snd_zipKeywords (ks : List (String × α)) (ls : List (String × β)) :
    (zipKeywords f ks ls).map (·.2) = List.zipWith f (ks.map (·.2)) (ls.map (·.2)) := by
  rw [zipKeywords, List.map_zipWith, List.zipWith_map]

/-- Zipping optional values is zipping lists of at most one element. -/
theorem toList_zipOption (a : Option α) (b : Option β) :
    (zipOption f a b).toList = List.zipWith f a.toList b.toList := by
  cases a <;> cases b <;> rfl

/-- Two values that are both there have a zipped value. -/
theorem isSome_zipOption {a : Option α} {b : Option β} (h : a.isSome = b.isSome) :
    (zipOption f a b).isSome = a.isSome := by
  cases a <;> cases b <;> simp_all [zipOption]

/-- Pairing parameter lists of one layout keeps the layout. -/
theorem layout_zipWith (h : p.layout = q.layout) : (p.zipWith f q).layout = p.layout := by
  simp only [layout, Layout.mk.injEq] at h
  obtain ⟨hr, ho, hs, hk, hw, ht⟩ := h
  simp only [layout, zipWith, List.length_zipWith, hr, ho, Nat.min_self, map_fst_zipKeywords hk,
    map_fst_zipKeywords hw, isSome_zipOption hs, isSome_zipOption ht]

/-- Parameter lists of one layout are paired position by position. -/
theorem toList_zipWith (h : p.layout = q.layout) :
    (p.zipWith f q).toList = List.zipWith f p.toList q.toList := by
  simp only [layout, Layout.mk.injEq] at h
  obtain ⟨hr, ho, hs, hk, hw, -⟩ := h
  have hs' : p.rest.toList.length = q.rest.toList.length := by
    rw [Option.length_toList, Option.length_toList, hs]
  have hk' := congrArg List.length hk
  have hw' := congrArg List.length hw
  simp only [List.length_map] at hk' hw'
  simp only [toList, zipWith, map_snd_zipKeywords, toList_zipOption]
  rw [List.zipWith_append (by simp [hr, ho, hs', hk', hw']),
    List.zipWith_append (by simp [hr, ho, hs', hk']), List.zipWith_append (by simp [hr, ho, hs']),
    List.zipWith_append (by simp [hr, ho]), List.zipWith_append hr]

/-- Pairing lists position by position respects relations of their elements. -/
theorem forall₂_zipWith {R : α → α → Prop} {S : β → β → Prop} {U : γ → γ → Prop}
    (hf : ∀ a a' b b', R a a' → S b b' → U (f a b) (f a' b')) {as as' : List α} {bs bs' : List β}
    (ha : List.Forall₂ R as as') (hb : List.Forall₂ S bs bs') :
    List.Forall₂ U (List.zipWith f as bs) (List.zipWith f as' bs') := by
  induction ha generalizing bs bs' with
  | nil => exact .nil
  | cons hR _ ih =>
    cases hb with
    | nil => exact .nil
    | cons hS hb => exact .cons (hf _ _ _ _ hR hS) (ih hb)

/-- So does pairing parameter lists of one layout. -/
theorem Rel.zipWith {R : α → α → Prop} {S : β → β → Prop} {U : γ → γ → Prop}
    (hf : ∀ a a' b b', R a a' → S b b' → U (f a b) (f a' b')) {p' : Params α} {q' : Params β}
    (hp : p.Rel R p') (hq : q.Rel S q') (h : p.layout = q.layout) :
    (p.zipWith f q).Rel U (p'.zipWith f q') := by
  obtain ⟨hlayout, hlist⟩ := rel_iff.mp hp
  obtain ⟨hlayout', hlist'⟩ := rel_iff.mp hq
  have h' : p'.layout = q'.layout := hlayout.symm.trans (h.trans hlayout')
  refine rel_iff.mpr ⟨?_, ?_⟩
  · rw [layout_zipWith h, layout_zipWith h', hlayout]
  · rw [toList_zipWith h, toList_zipWith h']
    exact forall₂_zipWith hf hlist hlist'

end Params

/-! ## Overloads that can be merged -/

namespace Overload

variable {a b c o : Overload}

/-- Overloads are equal if their type parameters, their arrows and their blocks are. -/
theorem beq_iff_arrow :
    (a == b) = true ↔ (a.typeParams == b.typeParams) = true ∧
      a.callable.arrow.Rel (fun t u => (t == u) = true) b.callable.arrow ∧
        (a.block == b.block) = true := by
  have hblock : ∀ b d : Option (Block Ty), Ty.beqBlockOption b d = (b == d) := by
    intro b d
    cases b <;> cases d <;> rfl
  obtain ⟨ps, ⟨arrow, block⟩, xs⟩ := a
  obtain ⟨ps', ⟨arrow', block'⟩, xs'⟩ := b
  change (ps == ps' && (Ty.beqArrow arrow arrow' && Ty.beqBlockOption block block')) = true ↔ _
  rw [hblock, Bool.and_eq_true, Bool.and_eq_true, Ty.beqArrow_iff]
  rfl

/-- Overloads that can be merged: the type parameters and the blocks are equal, and the parameter
lists have one layout. -/
structure Alike (a b : Overload) : Prop where
  typeParams : (a.typeParams == b.typeParams) = true
  block : (a.block == b.block) = true
  layout : a.params.layout = b.params.layout

/-- An overload without parameters and result. -/
def bare (o : Overload) : Overload where
  typeParams := o.typeParams
  callable := ⟨⟨{}, .nil⟩, o.block⟩

/-- The types that are left are well formed as before. -/
theorem WellFormed.bare (h : o.WellFormed) : o.bare.WellFormed := by
  intro t ht
  rcases List.mem_append.mp ht with ht | ht
  · rcases List.mem_cons.mp ht with rfl | ht
    · rfl
    · exact h t (List.mem_append_left _ (List.mem_append_right _ ht))
  · exact h t (List.mem_append_right _ ht)

/-- Overloads can be merged if they are equal without parameters and result and have one layout. -/
theorem alike_iff :
    a.Alike b ↔ (a.bare == b.bare) = true ∧ a.params.layout = b.params.layout := by
  have harrow : a.bare.callable.arrow.Rel (fun t u => (t == u) = true) b.bare.callable.arrow :=
    Ty.beqArrow_iff.mp rfl
  rw [beq_iff_arrow]
  exact ⟨fun h => ⟨⟨h.typeParams, harrow, h.block⟩, h.layout⟩, fun h => ⟨h.1.1, h.1.2.2, h.2⟩⟩

namespace Alike

/-- An overload can be merged with itself. -/
theorem refl (a : Overload) : a.Alike a :=
  alike_iff.mpr ⟨beq_refl _, rfl⟩

/-- Overloads can be merged in either order. -/
theorem symm (ha : a.WellFormed) (hb : b.WellFormed) (h : a.Alike b) : b.Alike a := by
  obtain ⟨hbare, hlayout⟩ := alike_iff.mp h
  exact alike_iff.mpr ⟨beq_symm ha.bare hb.bare hbare, hlayout.symm⟩

/-- What can be merged with one overload can be merged with each other. -/
theorem trans (ha : a.WellFormed) (hb : b.WellFormed) (hc : c.WellFormed) (h : a.Alike b)
    (h' : b.Alike c) : a.Alike c := by
  obtain ⟨hbare, hlayout⟩ := alike_iff.mp h
  obtain ⟨hbare', hlayout'⟩ := alike_iff.mp h'
  have htrans := beq_trans ha.bare hb.bare hc.bare hbare hbare'
  exact alike_iff.mpr ⟨htrans, hlayout.trans hlayout'⟩

/-- Equal overloads can be merged. -/
theorem of_beq (h : (a == b) = true) : a.Alike b := by
  obtain ⟨hparams, harrow, hblock⟩ := beq_iff_arrow.mp h
  exact ⟨hparams, hblock, (Params.rel_iff.mp harrow.1).1⟩

/-- An overload that differs from the first of two in its parameter types and result only is alike
to both. -/
theorem forall_pair (ha : a.Normal) (hb : b.Normal) (h : a.Alike b)
    (hparams : o.typeParams = a.typeParams) (hblock : o.block = a.block)
    (hlayout : o.params.layout = a.params.layout) : ∀ c ∈ [a, b], c.Alike o := by
  have hself := refl a
  have hback := symm ha.wellFormed hb.wellFormed h
  intro c hc
  rcases List.mem_pair.mp hc with rfl | rfl
  · exact ⟨hparams ▸ hself.typeParams, hblock ▸ hself.block, hlayout.symm⟩
  · exact ⟨hparams ▸ hback.typeParams, hblock ▸ hback.block, hback.layout.trans hlayout.symm⟩

end Alike

/-! ## Merging several overloads -/

/-- What some overloads take at a position of their parameter lists. -/
def column (os : List Overload) (i : Nat) : List Ty :=
  os.filterMap fun a => a.params.toList[i]?

/-- No overloads take nothing. -/
theorem column_nil (i : Nat) : column [] i = [] :=
  rfl

/-- An overload adds what it takes at the position. -/
theorem column_cons {i : Nat} {t : Ty} (ht : a.params.toList[i]? = some t) (os : List Overload) :
    column (a :: os) i = t :: column os i :=
  List.filterMap_cons_some ht

/-- What overloads in normal form take at a position is in normal form. -/
theorem normal_column {os : List Overload} (h : ∀ a ∈ os, a.Normal) (i : Nat) :
    ∀ t ∈ column os i, t.Normal := by
  intro t ht
  obtain ⟨a, ha, hat⟩ := List.mem_filterMap.mp ht
  exact h a ha t (mem_types_of_params (List.mem_of_getElem? hat))

/-- The overload stands for all of some others: it can be merged with them, every parameter takes
the intersection of what they take there, the result is the union of their results, and its origins
are among theirs. -/
structure Joins (o : Overload) (os : List Overload) : Prop where
  alike : ∀ a ∈ os, a.Alike o
  params : ∀ (i : Nat) (t : Ty), o.params.toList[i]? = some t →
    (t == Ty.interOf (column os i)) = true
  result : (o.result == Ty.unionOf (os.map result)) = true
  origins : ∀ x ∈ o.origins, ∃ a ∈ os, x ∈ a.origins

/-- What an overload in normal form takes at a position is in normal form. -/
theorem Normal.params (h : a.Normal) {i : Nat} {t : Ty} (ht : a.params.toList[i]? = some t) :
    t.Normal :=
  h t (mem_types_of_params (List.mem_of_getElem? ht))

/-- Overloads that are alike have the same positions. -/
theorem exists_param (h : a.Alike b) {i : Nat} {t : Ty} (ht : b.params.toList[i]? = some t) :
    ∃ u, a.params.toList[i]? = some u := by
  obtain ⟨hi, -⟩ := List.getElem?_eq_some_iff.mp ht
  exact ⟨_, List.getElem?_eq_getElem (Params.length_toList h.layout ▸ hi)⟩

namespace Joins

/-- An overload stands for itself. -/
theorem self (h : o.Normal) : o.Joins [o] where
  alike a ha := by
    obtain rfl := List.mem_singleton.mp ha
    exact .refl a
  params i t ht := by
    rw [column_cons ht, column_nil, Ty.interOf_singleton (h.params ht)]
    exact Ty.beq_refl t
  result := by
    rw [List.map_singleton, Ty.unionOf_singleton (h _ o.result_mem_types)]
    exact Ty.beq_refl _
  origins x hx := ⟨o, List.mem_singleton_self o, hx⟩

/-- An overload stands for itself and an equal one, with any of their origins. -/
theorem of_beq (ha : a.Normal) (hb : b.Normal) (h : (a == b) = true) {xs : List Origin}
    (hxs : ∀ x ∈ xs, x ∈ a.origins ∨ x ∈ b.origins) : Joins { a with origins := xs } [a, b] where
  alike := Alike.forall_pair ha hb (.of_beq h) rfl rfl rfl
  params i t ht := by
    have ht : a.params.toList[i]? = some t := ht
    obtain ⟨-, harrow, -⟩ := beq_iff_arrow.mp h
    obtain ⟨u, hu, htu⟩ := exists_of_forall₂ (Params.rel_iff.mp harrow.1).2 ht
    rw [column_cons ht, column_cons hu, column_nil]
    exact Ty.isJoin_interOf.beq_pair (ha.params ht) (hb.params hu) htu
  result := by
    obtain ⟨-, harrow, -⟩ := beq_iff_arrow.mp h
    exact Ty.isJoin_unionOf.beq_pair (ha _ a.result_mem_types) (hb _ b.result_mem_types) harrow.2
  origins x hx := by simpa using hxs x hx

/-- What stands for an overload that stands for some others, and for one more, stands for all. -/
theorem append {os : List Overload} (hos : ∀ a ∈ os, a.Normal) (ho : o.Normal) (hb : b.Normal)
    (hc : c.Normal) (h : o.Joins os) (h' : c.Joins [o, b]) : c.Joins (os ++ [b]) where
  alike a ha := by
    rcases List.mem_append.mp ha with ha | ha
    · have hoc := h'.alike o (by simp)
      exact .trans (hos a ha).wellFormed ho.wellFormed hc.wellFormed (h.alike a ha) hoc
    · exact h'.alike a (List.mem_cons_of_mem o ha)
  params i t ht := by
    obtain ⟨u, hu⟩ := exists_param (h'.alike o (by simp)) ht
    obtain ⟨v, hv⟩ := exists_param (h'.alike b (by simp)) ht
    have hpair := h'.params i t ht
    rw [column_cons hu, column_cons hv, column_nil] at hpair
    have hcolumn : column (os ++ [b]) i = column os i ++ [v] := by
      rw [column, List.filterMap_append]
      exact congrArg _ (column_cons hv [])
    rw [hcolumn]
    exact Ty.isJoin_interOf.beq_append (hc.params ht) (ho.params hu) (hb.params hv)
      (normal_column hos i) hpair (h.params i u hu)
  result := by
    rw [List.map_append]
    refine Ty.isJoin_unionOf.beq_append (hc _ c.result_mem_types) (ho _ o.result_mem_types)
      (hb _ b.result_mem_types) ?_ h'.result h.result
    intro t ht
    obtain ⟨a, ha, rfl⟩ := List.mem_map.mp ht
    exact hos a ha _ a.result_mem_types
  origins x hx := by
    obtain ⟨a, ha, hxa⟩ := h'.origins x hx
    rcases List.mem_pair.mp ha with rfl | rfl
    · obtain ⟨a', ha', hxa'⟩ := h.origins x hxa
      exact ⟨a', List.mem_append_left _ ha', hxa'⟩
    · exact ⟨a, by simp, hxa⟩

end Joins

/-- A merged parameter is the intersection of both. -/
theorem beq_mergeParam {t u : Ty} (ht : t.Normal) (hu : u.Normal) :
    (mergeParam t u == Ty.interOf [t, u]) = true := by
  unfold mergeParam
  split
  · exact Ty.isJoin_interOf.beq_pair ht hu ‹_›
  · exact Ty.beq_refl _

/-- The origins of a merged overload are origins of the two. -/
theorem mem_mergeOrigins {x : Origin} (h : x ∈ mergeOrigins a b) :
    x ∈ a.origins ∨ x ∈ b.origins :=
  Keyed.mem_or_mem_of_unionKeys h

/-- The overload that takes what both take and returns what either returns. -/
def joined (a b : Overload) : Overload where
  typeParams := a.typeParams
  callable :=
    { arrow :=
        { params := a.params.zipWith mergeParam b.params
          result := Ty.unionOf [a.result, b.result] }
      block := a.block }
  origins := mergeOrigins a b

/-- Of equal overloads the first is left, with the origins of both. -/
theorem merge?_of_beq (h : (a == b) = true) :
    a.merge? b = some { a with origins := mergeOrigins a b } :=
  if_pos h

/-- Overloads that are alike but not equal are joined. -/
theorem merge?_of_alike (h : a.Alike b) (hne : (a == b) = false) :
    a.merge? b = some (a.joined b) := by
  rw [merge?, if_neg (by simp [hne]), if_pos (by simp [h.typeParams, h.block, h.layout])]
  rfl

/-- Overloads that are not alike do not merge. -/
theorem merge?_of_not_alike (h : ¬ a.Alike b) : a.merge? b = none := by
  have hne : ¬ (a == b) = true := fun heq => h (.of_beq heq)
  rw [merge?, if_neg hne, if_neg]
  intro hcond
  simp only [Bool.and_eq_true, beq_iff_eq, and_assoc] at hcond
  obtain ⟨hparams, hblock, hlayout⟩ := hcond
  exact h ⟨hparams, hblock, hlayout⟩

/-- What is joined from overloads that are alike stands for both. -/
theorem Alike.joins_joined (ha : a.Normal) (hb : b.Normal) (h : a.Alike b) :
    (a.joined b).Joins [a, b] where
  alike := Alike.forall_pair ha hb h rfl rfl (Params.layout_zipWith h.layout)
  params i t ht := by
    have ht : (a.params.zipWith mergeParam b.params).toList[i]? = some t := ht
    rw [Params.toList_zipWith h.layout] at ht
    obtain ⟨u, v, hu, hv, rfl⟩ := List.getElem?_zipWith_eq_some.mp ht
    rw [column_cons hu, column_cons hv, column_nil]
    exact beq_mergeParam (ha.params hu) (hb.params hv)
  result := Ty.beq_refl _
  origins x hx := by simpa using mem_mergeOrigins hx

/-- A merged overload stands for both. -/
theorem joins_of_merge? (ha : a.Normal) (hb : b.Normal) (h : a.merge? b = some o) :
    o.Joins [a, b] := by
  by_cases halike : a.Alike b
  · cases heq : a == b with
    | true =>
      obtain rfl := Option.some.inj ((merge?_of_beq heq).symm.trans h)
      exact .of_beq ha hb heq fun x hx => mem_mergeOrigins hx
    | false =>
      obtain rfl := Option.some.inj ((merge?_of_alike halike heq).symm.trans h)
      exact halike.joins_joined ha hb
  · cases (merge?_of_not_alike halike).symm.trans h

/-- Overloads that are alike merge. -/
theorem exists_merge? (h : a.Alike b) : ∃ o, a.merge? b = some o := by
  cases heq : a == b with
  | true => exact ⟨_, merge?_of_beq heq⟩
  | false => exact ⟨_, merge?_of_alike h heq⟩

end Overload

end TypeShape
