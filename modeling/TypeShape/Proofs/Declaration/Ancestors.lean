import TypeShape.Declaration.Lineage
import TypeShape.Proofs.Declaration.Arguments
import TypeShape.Proofs.Failure

/-!
# Ancestors

Every step from a declaration to a parent puts arguments for its type parameters.  A test of unions
and intersections that their constructions keep holds on the way: if it passes everywhere in the
declared parents, it passes everywhere in the types that ancestors are reached as.

Main results:

- Theorem `Table.passes_visit`: what one visit keeps, by recursion on the depth.
- Theorems `Table.passes_lineage` and `Table.passes_ancestorTypes`: the same for all ancestors of a
  name and their types.
-/

namespace TypeShape

namespace Ty

/-- A stable test of unions and intersections only. -/
structure SetTest (test : Ty → Bool) : Prop extends Stable test where
  other : ∀ t : Ty, t.isSet = false → test t = true

theorem setTest_distinctHere : SetTest distinctHere where
  toStable := stable_distinctHere
  other t ht := by cases t <;> simp_all [isSet, distinctHere]

theorem setTest_normalHere : SetTest normalHere where
  toStable := stable_normalHere
  other t ht := by cases t <;> simp_all [isSet, normalHere]

namespace SetTest

variable {test : Ty → Bool} (htest : SetTest test)

include htest

theorem toTy (x : FreeVar) : x.toTy.all test = true := by
  rw [FreeVar.all_toTy]
  exact htest.other _ (by cases x <;> rfl)

theorem imageOf_of_image? {s : Subst} (h : ∀ x t, s.image? x = some t → t.all test = true)
    (x : FreeVar) : (s.imageOf x).all test = true := by
  unfold Subst.imageOf
  cases hx : s.image? x with
  | none => exact htest.toTy x
  | some t => exact h x t hx

theorem imageOf {s : Subst} (hvalues : ∀ e ∈ s.vars, e.2.all test = true)
    (hanchors : ∀ p t, s.anchors.get? p = some t → t.all test = true) (x : FreeVar) :
    (s.imageOf x).all test = true := by
  refine htest.imageOf_of_image? (fun x t hx => ?_) x
  cases x with
  | slot p => exact hanchors p t hx
  | var x => exact hvalues _ (Keyed.mem_of_get? hx)

theorem apply {s : Subst} {t : Ty} (hs : ∀ x, (s.imageOf x).all test = true)
    (ht : t.all test = true) : (s.apply t).all test = true := by
  refine Subst.all_apply htest.toStable ?_ ht fun x _ => hs x
  intro u hu _
  exact htest.other _ (isSet_eq_false_of_isRigid (Subst.isRigid_replace hu))

theorem bindParams {params : List TypeParam} {args : List Ty} (h : ∀ t ∈ args, t.all test = true)
    (x : FreeVar) : ((Table.bindParams params args).imageOf x).all test = true := by
  refine Table.all_imageOf_bindParams htest.untyped h (htest.other _ ?_)
  cases x <;> rfl

theorem empty (x : FreeVar) : (Subst.empty.imageOf x).all test = true := by
  rw [Subst.imageOf_of_isEmpty rfl]
  exact htest.toTy x

end SetTest
end Ty

/-- The ancestor is declared, and a test passes everywhere in what its parameters stand for. -/
structure Ancestor.Passes (test : Ty → Bool) (T : Table) (a : Ancestor) : Prop where
  declared : ∃ e ∈ T.modules, a.decl = e.2
  subst : ∀ x, (a.subst.imageOf x).all test = true

namespace Table

variable {T : Table}

theorem exists_of_fetch {name : TypeName} {decl : ModuleDecl}
    (h : T.fetch name = .ok decl) : ∃ e ∈ T.modules, decl = e.2 := by
  unfold fetch at h
  split at h
  · rename_i hm
    obtain rfl := Except.ok.inj h
    exact ⟨_, Keyed.mem_of_get? hm, rfl⟩
  · cases h

variable {test : Ty → Bool} (htest : Ty.SetTest test)

include htest

theorem passes_visitParent
    {visit : TypeName → Subst → List Ancestor → Except DeclError (List Ancestor)}
    {chain chain' : List Ancestor} {parent : Ty} (hp : parent.all test = true)
    (hchain : ∀ a ∈ chain, a.Passes test T)
    (hvisit : ∀ name s, (∀ x, (s.imageOf x).all test = true) → visit name s chain = .ok chain' →
      ∀ a ∈ chain', a.Passes test T)
    (h : T.visitParent visit chain parent = .ok chain') : ∀ a ∈ chain', a.Passes test T := by
  unfold visitParent at h
  split at h
  · obtain rfl := Except.ok.inj h
    exact hchain
  · obtain ⟨decl, -, hnext⟩ := exists_of_bind_ok h
    exact hvisit _ _ (htest.bindParams fun t ht => Ty.all_part hp ht) hnext
  · obtain rfl := Except.ok.inj h
    exact hchain

variable (hT : ∀ e ∈ T.modules, ∀ t ∈ e.2.parents, t.all test = true)

include hT

/-- A visit appends declared ancestors with types that pass the test. -/
theorem passes_visit {depth : Nat} {name : TypeName} {s : Subst} {chain chain' : List Ancestor}
    (hs : ∀ x, (s.imageOf x).all test = true) (hchain : ∀ a ∈ chain, a.Passes test T)
    (h : T.visit depth name s chain = .ok chain') : ∀ a ∈ chain', a.Passes test T := by
  induction depth generalizing name s chain chain' with
  | zero =>
    obtain rfl := Except.ok.inj h
    exact hchain
  | succ depth ih =>
    unfold Table.visit at h
    split at h
    · obtain rfl := Except.ok.inj h
      exact hchain
    · obtain ⟨decl, hdecl, hfold⟩ := exists_of_bind_ok h
      obtain ⟨e, he, rfl⟩ := exists_of_fetch hdecl
      refine foldlM_invariant (P := fun chain => ∀ a ∈ chain, a.Passes test T) ?_ ?_ hfold
      · intro parent hparent b b' hb hstep
        have hp := htest.apply hs (hT e he parent hparent)
        exact passes_visitParent htest hp hb (fun name s hs hv => ih hs hb hv) hstep
      · intro a ha
        rcases List.mem_append.mp ha with ha | ha
        · exact hchain a ha
        · obtain rfl := List.mem_singleton.mp ha
          exact ⟨⟨e, he, rfl⟩, hs⟩

theorem passes_lineage {name : TypeName} {chain : List Ancestor} (h : T.lineage name = .ok chain) :
    ∀ a ∈ chain, a.Passes test T :=
  passes_visit htest hT htest.empty (by simp) h

/-- The types of all ancestors pass the test. -/
theorem passes_ancestorTypes {name : TypeName} {types : List Ty}
    (h : T.ancestorTypes name = .ok types) : ∀ t ∈ types, t.all test = true := by
  obtain ⟨chain, hchain, h⟩ := exists_of_bind_ok h
  obtain rfl := Except.ok.inj h
  intro t ht
  obtain ⟨a, ha, rfl⟩ := List.mem_map.mp ht
  have hs := (passes_lineage htest hT hchain a ha).subst
  refine Ty.all_iff.mpr ⟨htest.other _ rfl, ?_⟩
  intro u hu
  obtain ⟨p, -, rfl⟩ := List.mem_map.mp hu
  exact htest.apply hs (htest.toTy (.var p.name))

end Table
end TypeShape
