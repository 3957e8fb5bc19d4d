import Mathlib.Data.List.Perm.Subperm
import Mathlib.Logic.Relation
import TypeShape.Proofs.Failure
import TypeShape.Proofs.Types.Substitution
import TypeShape.Subtyping

/-!
# Ancestors and reachability

A declaration extends the classes, modules and interfaces that its includes and its superclass
apply.  The ancestors of a name are found depth first, and every parent is read with the type
parameters of its declaration replaced.  As long as that brings up no new application, the ancestors
are what can be reached: each of them once, the name itself first, in hierarchies with cycles too.

Main results:

- Theorem `Table.exists_undeclared_of_visit`: a visit fails only where an undeclared name is
  reached.
- Theorem `Table.grown_visit`: what one visit adds, by recursion on the depth.
- Theorem `Table.ancestors_are_reachable`: ancestors are what is reachable, and subtyping between
  applications without arguments is reachability.
- Theorem `Table.collapsed_union_is_ancestor`: a union can collapse into an application and bring up
  an ancestor that is not reachable.
-/

namespace TypeShape

/-- The name of the class, module or interface that a type applies. -/
def Ty.appliedName? : Ty → Option TypeName
  | .named .aliasOf _ _ => none
  | .named _ name _ => some name
  | _ => none

namespace Ty

theorem appliedName?_eq_some {t : Ty} {name : TypeName} :
    t.appliedName? = some name ↔ ∃ kind args, kind ≠ .aliasOf ∧ t = .named kind name args := by
  constructor
  · intro h
    cases t with
    | named kind name' args =>
      cases kind with
      | aliasOf => cases h
      | instanceOf => exact ⟨.instanceOf, args, by decide, by simpa [appliedName?] using h⟩
      | interfaceOf => exact ⟨.interfaceOf, args, by decide, by simpa [appliedName?] using h⟩
    | _ => cases h
  · rintro ⟨kind, args, hkind, rfl⟩
    cases kind with
    | aliasOf => exact absurd rfl hkind
    | instanceOf => rfl
    | interfaceOf => rfl

theorem isApplicationOf_iff {t : Ty} {name : TypeName} :
    Table.isApplicationOf name t = true ↔ t.appliedName? = some name := by
  unfold Table.isApplicationOf appliedName?
  split <;> simp

/-- What a type applies does not depend on its arguments. -/
theorem appliedName?_eq_of_head_eq {t u : Ty} (h : t.head = u.head) :
    t.appliedName? = u.appliedName? := by
  cases t with
  | named kind name args =>
    obtain ⟨args', rfl⟩ := eq_named_of_head h.symm
    cases kind <;> rfl
  | _ => cases u <;> simp_all [head, appliedName?]

/-- An application of a class or interface to no arguments. -/
def PlainOf (t : Ty) (name : TypeName) : Prop :=
  t = .named .instanceOf name [] ∨ t = .named .interfaceOf name []

theorem PlainOf.eq_of_beq {t u : Ty} {name target : TypeName} (ht : t.PlainOf name)
    (hu : u.PlainOf target) (h : (t == u) = true) : t = u ∧ name = target := by
  have hhead := head_eq_of_beq h
  rcases ht with rfl | rfl <;> rcases hu with rfl | rfl <;> simp_all [head]

end Ty

/-- Applications stay applications of their names. -/
theorem Subst.appliedName?_apply {s : Subst} {t : Ty} (h : t.isRigid = true) :
    (s.apply t).appliedName? = t.appliedName? := by
  unfold Subst.apply
  split
  · rfl
  · exact Ty.appliedName?_eq_of_head_eq (Subst.head_replace h)

theorem Subst.appliedName?_apply_of_some {s : Subst} {t : Ty} {name : TypeName}
    (h : t.appliedName? = some name) : (s.apply t).appliedName? = some name := by
  obtain ⟨kind, args, -, rfl⟩ := Ty.appliedName?_eq_some.mp h
  rw [Subst.appliedName?_apply rfl, h]

namespace Table

/-! ## Reachability -/

/-- The declaration of the first name applies the second in an include or as its superclass. -/
def Extends (T : Table) (name parent : TypeName) : Prop :=
  ∃ decl, T.module? name = some decl ∧ ∃ t ∈ decl.parents, t.appliedName? = some parent

/-- The second name is reached from the first through declarations. -/
abbrev Inherits (T : Table) : TypeName → TypeName → Prop :=
  Relation.ReflTransGen T.Extends

/-- The name is declared as a class, module or interface. -/
def Declares (T : Table) (name : TypeName) : Prop :=
  ∃ decl, T.module? name = some decl

/-- No parent becomes an application when the type parameters of its declaration are replaced,
unless it is one. -/
def ParentsKeepForm (T : Table) : Prop :=
  ∀ e ∈ T.modules, ∀ t ∈ e.2.parents, t.appliedName? = none →
    ∀ args, ((bindParams e.2.typeParams args).apply t).appliedName? = none

/-- Parents other than variables, placeholders, unions and intersections keep their form. -/
theorem parentsKeepForm_of_isRigid {T : Table}
    (h : ∀ e ∈ T.modules, ∀ t ∈ e.2.parents, t.isRigid = true) : T.ParentsKeepForm := by
  intro e he t ht hnone args
  rw [Subst.appliedName?_apply (h e he t ht), hnone]

variable {T : Table}

theorem fetch_eq_ok {name : TypeName} {decl : ModuleDecl} :
    T.fetch name = .ok decl ↔ T.module? name = some decl := by
  unfold fetch
  split <;> simp_all

theorem module?_eq_none_of_fetch {name : TypeName} {e : DeclError} (h : T.fetch name = .error e) :
    T.module? name = none := by
  unfold fetch at h
  split at h
  · cases h
  · assumption

/-- What replaces the type parameters of a declaration: nothing, or the arguments that it is
applied to. -/
def Instantiates (s : Subst) (decl : ModuleDecl) : Prop :=
  s = .empty ∨ ∃ args, s = bindParams decl.typeParams args

theorem instantiates_bindParams {name : TypeName} {decl : ModuleDecl}
    (hdecl : T.module? name = some decl) (args : List Ty) :
    ∀ d, T.module? name = some d → Instantiates (bindParams decl.typeParams args) d := by
  intro d hd
  obtain rfl := Option.some.inj (hdecl.symm.trans hd)
  exact Or.inr ⟨args, rfl⟩

/-- A parent is an application after its instantiation only if it was one of the same name. -/
theorem ParentsKeepForm.appliedName?_apply (hT : T.ParentsKeepForm) {name parent : TypeName}
    {decl : ModuleDecl} (hdecl : T.module? name = some decl) {t : Ty} (ht : t ∈ decl.parents)
    {s : Subst} (hs : Instantiates s decl) (h : (s.apply t).appliedName? = some parent) :
    t.appliedName? = some parent := by
  cases hname : t.appliedName? with
  | some other => rw [← h, Subst.appliedName?_apply_of_some hname]
  | none =>
    have hstays : (s.apply t).appliedName? = none := by
      rcases hs with rfl | ⟨args, rfl⟩
      · exact hname
      · exact hT _ (Keyed.mem_of_get? hdecl) t ht hname args
    rw [h] at hstays
    cases hstays

/-- A parent is visited if it is an application, and left out otherwise. -/
theorem visitParent_cases
    (visit : TypeName → Subst → List Ancestor → Except DeclError (List Ancestor))
    (chain : List Ancestor) (t : Ty) :
    (t.appliedName? = none ∧ T.visitParent visit chain t = .ok chain) ∨
    ∃ name args, t.appliedName? = some name ∧
      T.visitParent visit chain t =
        T.fetch name >>= fun decl => visit name (bindParams decl.typeParams args) chain := by
  cases t with
  | named kind name args =>
    cases kind with
    | aliasOf => exact Or.inl ⟨rfl, rfl⟩
    | instanceOf => exact Or.inr ⟨name, args, rfl, rfl⟩
    | interfaceOf => exact Or.inr ⟨name, args, rfl, rfl⟩
  | _ => exact Or.inl ⟨rfl, rfl⟩

/-! ## Failing visits -/

/-- A visit fails only where an undeclared name is reached. -/
theorem exists_undeclared_of_visit (hT : T.ParentsKeepForm) {depth : Nat} {name : TypeName}
    {s : Subst} {chain : List Ancestor} {e : DeclError}
    (hs : ∀ decl, T.module? name = some decl → Instantiates s decl)
    (h : T.visit depth name s chain = .error e) :
    ∃ m, T.Inherits name m ∧ T.module? m = none := by
  induction depth generalizing name s chain e with
  | zero => cases h
  | succ depth ih =>
    unfold visit at h
    split at h
    · cases h
    · cases hfetch : T.fetch name with
      | error e' => exact ⟨name, .refl, module?_eq_none_of_fetch hfetch⟩
      | ok decl =>
        have hdecl := fetch_eq_ok.mp hfetch
        rw [hfetch] at h
        obtain ⟨t, ht, b, hstep⟩ := exists_of_foldlM_error h
        rcases visitParent_cases (T := T) (T.visit depth) b (s.apply t) with
          ⟨-, hok⟩ | ⟨parent, args, happ, hvisit⟩
        · rw [hok] at hstep
          cases hstep
        · have hextends : T.Extends name parent :=
            ⟨decl, hdecl, t, ht, hT.appliedName?_apply hdecl ht (hs decl hdecl) happ⟩
          rw [hvisit] at hstep
          cases hparent : T.fetch parent with
          | error e' => exact ⟨parent, .single hextends, module?_eq_none_of_fetch hparent⟩
          | ok decl' =>
            rw [hparent] at hstep
            obtain ⟨m, hm, hundeclared⟩ :=
              ih (instantiates_bindParams (fetch_eq_ok.mp hparent) args) hstep
            exact ⟨m, .head hextends hm, hundeclared⟩

/-! ## Visits that succeed -/

/-- The names of visited declarations. -/
def visitedNames (chain : List Ancestor) : List TypeName :=
  chain.map (·.name)

/-- Visited declarations are declared, and none is visited twice. -/
structure Listed (T : Table) (chain : List Ancestor) : Prop where
  nodup : (visitedNames chain).Nodup
  declared : ∀ a ∈ chain, T.module? a.name = some a.decl

/-- No chain is longer than the number of declarations. -/
theorem Listed.length_le {chain : List Ancestor} (h : T.Listed chain) :
    chain.length ≤ T.modules.length := by
  have hsub : visitedNames chain ⊆ T.modules.map (·.1) := by
    intro name hname
    obtain ⟨a, ha, rfl⟩ := List.mem_map.mp hname
    exact List.mem_map_of_mem (Keyed.mem_of_get? (h.declared a ha))
  simpa [visitedNames] using (List.subperm_of_subset h.nodup hsub).length_le

/-- What a walk from a name adds to a chain: declarations that are reached from the name, each with
everything that it extends. -/
structure Grown (T : Table) (name : TypeName) (chain chain' : List Ancestor) : Prop where
  kept : chain <+: chain'
  listed : T.Listed chain'
  added : ∀ a ∈ chain', a ∈ chain ∨
    T.Inherits name a.name ∧ ∀ m, T.Extends a.name m → m ∈ visitedNames chain'

theorem Grown.refl {name : TypeName} {chain : List Ancestor} (h : T.Listed chain) :
    T.Grown name chain chain :=
  ⟨List.prefix_rfl, h, fun _ ha => Or.inl ha⟩

theorem visitedNames_subset {chain chain' : List Ancestor} (h : chain <+: chain') :
    visitedNames chain ⊆ visitedNames chain' :=
  List.map_subset _ h.subset

/-- A walk from a name goes on with a walk from a name that it extends. -/
theorem Grown.step {name parent : TypeName} {chain chain' chain'' : List Ancestor}
    (h : T.Grown name chain chain') (hextends : T.Extends name parent)
    (h' : T.Grown parent chain' chain'') : T.Grown name chain chain'' where
  kept := h.kept.trans h'.kept
  listed := h'.listed
  added a ha := by
    rcases h'.added a ha with ha | ⟨hreach, hclosed⟩
    · refine (h.added a ha).imp_right fun ⟨hreach, hclosed⟩ => ⟨hreach, fun m hm => ?_⟩
      exact visitedNames_subset h'.kept (hclosed m hm)
    · exact Or.inr ⟨.head hextends hreach, hclosed⟩

theorem Listed.push {chain : List Ancestor} (h : T.Listed chain) {a : Ancestor}
    (hnew : a.name ∉ visitedNames chain) (ha : T.module? a.name = some a.decl) :
    T.Listed (chain ++ [a]) where
  nodup := by
    rw [visitedNames, List.map_append]
    exact List.nodup_append.mpr ⟨h.nodup, by simp, by
      rintro x hx y hy rfl
      obtain rfl := List.mem_singleton.mp hy
      exact hnew hx⟩
  declared b hb := by
    rcases List.mem_append.mp hb with hb | hb
    · exact h.declared b hb
    · obtain rfl := List.mem_singleton.mp hb
      exact ha

/-- Once everything that a name extends is visited, the name itself counts as added. -/
theorem Grown.of_push {chain chain' : List Ancestor} {a : Ancestor}
    (h : T.Grown a.name (chain ++ [a]) chain')
    (hclosed : ∀ m, T.Extends a.name m → m ∈ visitedNames chain') :
    T.Grown a.name chain chain' where
  kept := (List.prefix_append _ _).trans h.kept
  listed := h.listed
  added b hb := by
    rcases h.added b hb with hb | hb
    · rcases List.mem_append.mp hb with hb | hb
      · exact Or.inl hb
      · obtain rfl := List.mem_singleton.mp hb
        exact Or.inr ⟨.refl, hclosed⟩
    · exact Or.inr hb

/-- A walk goes on with a parent, which is visited from then on, if visits are walks. -/
theorem Grown.visitParent (hT : T.ParentsKeepForm) {name : TypeName} {decl : ModuleDecl} {s : Subst}
    {visit : TypeName → Subst → List Ancestor → Except DeclError (List Ancestor)}
    {chain b b' : List Ancestor} {t : Ty} (hb : T.Grown name chain b)
    (hdecl : T.module? name = some decl) (hs : Instantiates s decl) (ht : t ∈ decl.parents)
    (hvisit : ∀ parent s', (∀ d, T.module? parent = some d → Instantiates s' d) →
      visit parent s' b = .ok b' → T.Grown parent b b' ∧ parent ∈ visitedNames b')
    (h : T.visitParent visit b (s.apply t) = .ok b') :
    T.Grown name chain b' ∧ (∀ m, t.appliedName? = some m → m ∈ visitedNames b') ∧
      visitedNames b ⊆ visitedNames b' := by
  rcases visitParent_cases (T := T) visit b (s.apply t) with
    ⟨hnone, hok⟩ | ⟨parent, args, happ, hstep⟩
  · rw [hok] at h
    obtain rfl := Except.ok.inj h
    refine ⟨hb, fun m hm => ?_, List.Subset.refl _⟩
    rw [Subst.appliedName?_apply_of_some hm] at hnone
    cases hnone
  · have hextends : T.Extends name parent :=
      ⟨decl, hdecl, t, ht, hT.appliedName?_apply hdecl ht hs happ⟩
    rw [hstep] at h
    obtain ⟨decl', hfetch, hnext⟩ := exists_of_bind_ok h
    obtain ⟨hgrown, hmem⟩ :=
      hvisit parent _ (instantiates_bindParams (fetch_eq_ok.mp hfetch) args) hnext
    refine ⟨hb.step hextends hgrown, fun m hm => ?_, visitedNames_subset hgrown.kept⟩
    rw [Subst.appliedName?_apply_of_some hm] at happ
    rwa [Option.some.inj happ]

theorem mem_visitedNames_iff {chain : List Ancestor} {name : TypeName} :
    name ∈ visitedNames chain ↔ chain.any (·.name == name) = true := by
  simp [visitedNames]

/-- A visit adds the name, unless it was visited before, and all that is reached from it. -/
theorem grown_visit (hT : T.ParentsKeepForm) {depth : Nat} {name : TypeName} {s : Subst}
    {chain chain' : List Ancestor} (hdepth : T.modules.length + 1 ≤ depth + chain.length)
    (hchain : T.Listed chain) (hs : ∀ decl, T.module? name = some decl → Instantiates s decl)
    (h : T.visit depth name s chain = .ok chain') :
    T.Grown name chain chain' ∧ name ∈ visitedNames chain' ∧
      (name ∉ visitedNames chain → ∃ decl, chain ++ [⟨name, decl, s⟩] <+: chain') := by
  induction depth generalizing name s chain chain' with
  | zero =>
    -- The depth is never used up: there are not so many declarations.
    have hlen := hchain.length_le
    omega
  | succ depth ih =>
    unfold visit at h
    split at h
    · rename_i hvisited
      obtain rfl := Except.ok.inj h
      have hmem := mem_visitedNames_iff.mpr hvisited
      exact ⟨.refl hchain, hmem, fun hnot => absurd hmem hnot⟩
    · rename_i hnot
      have hnew : name ∉ visitedNames chain := fun hmem => hnot (mem_visitedNames_iff.mp hmem)
      obtain ⟨decl, hfetch, hfold⟩ := exists_of_bind_ok h
      have hdecl := fetch_eq_ok.mp hfetch
      -- Every parent extends the chain by a walk, and is visited from then on.
      have hparents : T.Grown name (chain ++ [⟨name, decl, s⟩]) chain' ∧
          ∀ t ∈ decl.parents, ∀ m, t.appliedName? = some m → m ∈ visitedNames chain' := by
        refine foldlM_collects (P := T.Grown name (chain ++ [⟨name, decl, s⟩]))
          (Q := fun t b => ∀ m, t.appliedName? = some m → m ∈ visitedNames b) ?_
          (.refl (hchain.push hnew hdecl)) hfold
        intro t ht b b' hb hstep
        have hlen : (chain ++ [(⟨name, decl, s⟩ : Ancestor)]).length ≤ b.length := hb.kept.length_le
        rw [List.length_append, List.length_singleton] at hlen
        obtain ⟨hgrown, hmem, hsub⟩ := hb.visitParent hT hdecl (hs decl hdecl) ht
          (fun parent s' hs' hnext =>
            have hvisit := ih (by omega) hb.listed hs' hnext
            ⟨hvisit.1, hvisit.2.1⟩) hstep
        exact ⟨hgrown, hmem, fun x hq m hm => hsub (hq m hm)⟩
      obtain ⟨hgrown, hvisited⟩ := hparents
      have hclosed : ∀ m, T.Extends name m → m ∈ visitedNames chain' := by
        rintro m ⟨d, hd, t, ht, hm⟩
        rw [hdecl] at hd
        obtain rfl := Option.some.inj hd
        exact hvisited t ht m hm
      refine ⟨Grown.of_push (a := ⟨name, decl, s⟩) hgrown hclosed, ?_, fun _ => ⟨decl, hgrown.kept⟩⟩
      exact visitedNames_subset hgrown.kept (by simp [visitedNames])

/-! ## All ancestors -/

/-- What is reached from a name in a chain that holds everything its members extend is in it. -/
theorem mem_of_inherits {chain : List Ancestor} {name m : TypeName}
    (hclosed : ∀ a ∈ chain, ∀ m, T.Extends a.name m → m ∈ visitedNames chain)
    (hname : name ∈ visitedNames chain) (h : T.Inherits name m) : m ∈ visitedNames chain := by
  induction h with
  | refl => exact hname
  | tail _ hextends ih =>
    obtain ⟨a, ha, rfl⟩ := List.mem_map.mp ih
    exact hclosed a ha _ hextends

/-- The lineage of a name lists what is reached from it, each once and the name first. -/
theorem visitedNames_lineage (hT : T.ParentsKeepForm) {name : TypeName} {chain : List Ancestor}
    (h : T.lineage name = .ok chain) :
    (visitedNames chain).Nodup ∧ (visitedNames chain).head? = some name ∧
      (∀ a ∈ chain, T.module? a.name = some a.decl) ∧
      ∀ m, m ∈ visitedNames chain ↔ T.Inherits name m := by
  obtain ⟨hgrown, hname, hfirst⟩ := grown_visit hT (by simp) ⟨by simp [visitedNames], by simp⟩
    (fun _ _ => Or.inl rfl) h
  have hadded := fun a ha => (hgrown.added a ha).resolve_left (by simp)
  obtain ⟨decl, rest, rfl⟩ := hfirst (by simp [visitedNames])
  refine ⟨hgrown.listed.nodup, rfl, hgrown.listed.declared, fun m => ⟨fun hm => ?_, fun hm => ?_⟩⟩
  · obtain ⟨a, ha, rfl⟩ := List.mem_map.mp hm
    exact (hadded a ha).1
  · exact mem_of_inherits (fun a ha => (hadded a ha).2) hname hm

/-- There is a lineage exactly when everything that is reached is declared. -/
theorem exists_lineage_iff (hT : T.ParentsKeepForm) {name : TypeName} :
    (∃ chain, T.lineage name = .ok chain) ↔ ∀ m, T.Inherits name m → T.Declares m := by
  constructor
  · rintro ⟨chain, h⟩ m hm
    obtain ⟨-, -, hdeclared, hiff⟩ := visitedNames_lineage hT h
    obtain ⟨a, ha, rfl⟩ := List.mem_map.mp ((hiff m).mpr hm)
    exact ⟨a.decl, hdeclared a ha⟩
  · intro hall
    cases h : T.lineage name with
    | ok chain => exact ⟨chain, rfl⟩
    | error e =>
      obtain ⟨m, hm, hundeclared⟩ := exists_undeclared_of_visit hT (fun _ _ => Or.inl rfl) h
      obtain ⟨decl, hdecl⟩ := hall m hm
      rw [hundeclared] at hdecl
      cases hdecl

theorem ancestorTypes_eq_ok {name : TypeName} {types : List Ty} :
    T.ancestorTypes name = .ok types ↔
      ∃ chain, T.lineage name = .ok chain ∧ types = chain.map ancestorType := by
  constructor
  · intro h
    obtain ⟨chain, hchain, h⟩ := exists_of_bind_ok h
    exact ⟨chain, hchain, (Except.ok.inj h).symm⟩
  · rintro ⟨chain, hchain, rfl⟩
    rw [ancestorTypes, hchain]
    rfl

theorem appliedName?_ancestorType (a : Ancestor) : (ancestorType a).appliedName? = some a.name := by
  unfold ancestorType
  split <;> rfl

/-! ## Subtyping between applications -/

theorem applicationBelow_nil_iff {name target : TypeName} (args : List Ty) :
    T.applicationBelow name args target [] = true ↔
      ∃ types, T.ancestorTypes name = .ok types ∧ ∃ t ∈ types, t.appliedName? = some target := by
  unfold applicationBelow
  cases htypes : T.ancestorTypes name with
  | error e => simp
  | ok types =>
    dsimp only
    cases hfind : types.find? (isApplicationOf target) with
    | none =>
      refine iff_of_false (by simp) ?_
      rintro ⟨types', htypes', t, ht, happ⟩
      obtain rfl := Except.ok.inj htypes'
      exact List.find?_eq_none.mp hfind t ht (Ty.isApplicationOf_iff.mpr happ)
    | some t =>
      have happ : isApplicationOf target t = true := List.find?_some hfind
      exact iff_of_true rfl
        ⟨types, rfl, t, List.mem_of_find?_eq_some hfind, Ty.isApplicationOf_iff.mp happ⟩

/-- Applications without arguments are compared through the ancestors of the first. -/
theorem isSubtype_plain_iff {t u : Ty} {name target : TypeName} (ht : t.PlainOf name)
    (hu : u.PlainOf target) :
    T.isSubtype t u = true ↔ (t == u) = true ∨
      ∃ types, T.ancestorTypes name = .ok types ∧ ∃ v ∈ types, v.appliedName? = some target := by
  rw [← applicationBelow_nil_iff [], ← Bool.or_eq_true]
  rcases ht with rfl | rfl <;> rcases hu with rfl | rfl <;> rfl

section Reachable

variable (hT : T.ParentsKeepForm)

include hT

theorem exists_ancestorTypes_iff {name : TypeName} :
    (∃ types, T.ancestorTypes name = .ok types) ↔ ∀ m, T.Inherits name m → T.Declares m := by
  rw [← exists_lineage_iff hT]
  constructor
  · rintro ⟨types, h⟩
    obtain ⟨chain, hchain, -⟩ := ancestorTypes_eq_ok.mp h
    exact ⟨chain, hchain⟩
  · rintro ⟨chain, hchain⟩
    exact ⟨_, ancestorTypes_eq_ok.mpr ⟨chain, hchain, rfl⟩⟩

/-- The ancestors of a name apply what is reached from it, each once and the name first. -/
theorem exists_names_of_ancestorTypes {name : TypeName} {types : List Ty}
    (h : T.ancestorTypes name = .ok types) :
    ∃ names : List TypeName, types.map Ty.appliedName? = names.map some ∧ names.Nodup ∧
      names.head? = some name ∧ ∀ m, m ∈ names ↔ T.Inherits name m := by
  obtain ⟨chain, hchain, rfl⟩ := ancestorTypes_eq_ok.mp h
  obtain ⟨hnodup, hhead, -, hiff⟩ := visitedNames_lineage hT hchain
  refine ⟨visitedNames chain, ?_, hnodup, hhead, hiff⟩
  rw [visitedNames, List.map_map, List.map_map]
  exact List.map_congr_left fun a _ => appliedName?_ancestorType a

/-- Subtyping between applications without arguments is reachability. -/
theorem isSubtype_plain_iff_inherits {t u : Ty} {name target : TypeName} (ht : t.PlainOf name)
    (hu : u.PlainOf target) :
    T.isSubtype t u = true ↔ (t == u) = true ∨
      T.Inherits name target ∧ ∃ types, T.ancestorTypes name = .ok types := by
  rw [isSubtype_plain_iff ht hu]
  refine or_congr_right ⟨?_, ?_⟩
  · rintro ⟨types, htypes, v, hv, happ⟩
    obtain ⟨names, hnames, -, -, hiff⟩ := exists_names_of_ancestorTypes hT htypes
    have hmem : some target ∈ names.map some := by
      rw [← hnames, ← happ]
      exact List.mem_map_of_mem hv
    obtain ⟨m, hm, heq⟩ := List.mem_map.mp hmem
    obtain rfl := Option.some.inj heq
    exact ⟨(hiff m).mp hm, types, htypes⟩
  · rintro ⟨hreach, types, htypes⟩
    obtain ⟨names, hnames, -, -, hiff⟩ := exists_names_of_ancestorTypes hT htypes
    have hmem : some target ∈ types.map Ty.appliedName? := by
      rw [hnames]
      exact List.mem_map_of_mem ((hiff target).mpr hreach)
    obtain ⟨v, hv, happ⟩ := List.mem_map.mp hmem
    exact ⟨types, htypes, v, hv, happ⟩

theorem isSubtype_plain_trans {t u v : Ty} {n m k : TypeName} (ht : t.PlainOf n) (hu : u.PlainOf m)
    (hv : v.PlainOf k) (htu : T.isSubtype t u = true) (huv : T.isSubtype u v = true) :
    T.isSubtype t v = true := by
  rw [isSubtype_plain_iff_inherits hT ht hu] at htu
  rw [isSubtype_plain_iff_inherits hT hu hv] at huv
  rw [isSubtype_plain_iff_inherits hT ht hv]
  rcases htu with htu | ⟨hreach, hok⟩
  · obtain ⟨rfl, rfl⟩ := ht.eq_of_beq hu htu
    exact huv
  · rcases huv with huv | ⟨hreach', -⟩
    · obtain ⟨rfl, rfl⟩ := hu.eq_of_beq hv huv
      exact Or.inr ⟨hreach, hok⟩
    · exact Or.inr ⟨hreach.trans hreach', hok⟩

/-! ## Ancestors are what is reachable -/

/-- A name has ancestors exactly when everything that is reached from it is declared.  They are what
is reached, each once and the name first.  Applications without arguments are subtypes when they are
equal or the second is reached from the first, which has ancestors; and so subtyping is transitive
on them. -/
theorem ancestors_are_reachable :
    (∀ name, (∃ types, T.ancestorTypes name = .ok types) ↔
      ∀ m, T.Inherits name m → T.Declares m) ∧
    (∀ name types, T.ancestorTypes name = .ok types →
      ∃ names : List TypeName, types.map Ty.appliedName? = names.map some ∧ names.Nodup ∧
        names.head? = some name ∧ ∀ m, m ∈ names ↔ T.Inherits name m) ∧
    (∀ t u name target, t.PlainOf name → u.PlainOf target →
      (T.isSubtype t u = true ↔ (t == u) = true ∨
        T.Inherits name target ∧ ∃ types, T.ancestorTypes name = .ok types)) ∧
    ∀ t u v n m k, t.PlainOf n → u.PlainOf m → v.PlainOf k →
      T.isSubtype t u = true → T.isSubtype u v = true → T.isSubtype t v = true :=
  ⟨fun _ => exists_ancestorTypes_iff hT, fun _ _ => exists_names_of_ancestorTypes hT,
    fun _ _ _ _ => isSubtype_plain_iff_inherits hT, fun _ _ _ _ _ _ => isSubtype_plain_trans hT⟩

end Reachable

/-- A class that reaches an interface and a root along both its sides, a root that leads back to the
class, and a class whose superclass is not declared. -/
def diamond : Table where
  modules := [
    (⟨"::Bottom"⟩, { name := ⟨"::Bottom"⟩, kind := .classDecl,
                     superclass := some (.ofClass ⟨"::Left"⟩),
                     includes := [.ofClass ⟨"::Right"⟩, .named .aliasOf ⟨"::lost"⟩ []] }),
    (⟨"::Left"⟩, { name := ⟨"::Left"⟩, kind := .classDecl, superclass := some (.ofClass ⟨"::Root"⟩),
                   includes := [.named .interfaceOf ⟨"::_Each"⟩ [.nil]] }),
    (⟨"::Lost"⟩, { name := ⟨"::Lost"⟩, kind := .classDecl,
                   superclass := some (.ofClass ⟨"::None"⟩) }),
    (⟨"::Right"⟩, { name := ⟨"::Right"⟩, kind := .moduleDecl,
                    includes := [.named .interfaceOf ⟨"::_Each"⟩ [.bool], .ofClass ⟨"::Root"⟩] }),
    (⟨"::Root"⟩, { name := ⟨"::Root"⟩, kind := .classDecl, includes := [.ofClass ⟨"::Bottom"⟩] }),
    (⟨"::_Each"⟩, { name := ⟨"::_Each"⟩, kind := .interfaceDecl, typeParams := [{ name := "E" }],
                    includes := [.named .instanceOf ⟨"::Root"⟩ [.var "E"]] })]

theorem ancestors_of_diamond :
    diamond.ParentsKeepForm ∧
    (∀ m, diamond.Inherits ⟨"::Bottom"⟩ m ↔
      m ∈ [⟨"::Bottom"⟩, ⟨"::Right"⟩, ⟨"::Root"⟩, ⟨"::_Each"⟩, ⟨"::Left"⟩]) ∧
    (∀ m, diamond.Inherits ⟨"::Root"⟩ m → diamond.Declares m) ∧
    (¬ ∀ m, diamond.Inherits ⟨"::Lost"⟩ m → diamond.Declares m) ∧
    diamond.isSubtype (.ofClass ⟨"::Root"⟩) (.named .interfaceOf ⟨"::_Each"⟩ []) = true := by
  have hkeep : diamond.ParentsKeepForm := parentsKeepForm_of_isRigid (by decide)
  obtain ⟨hok, hnames, -, htrans⟩ := ancestors_are_reachable hkeep
  refine ⟨hkeep, fun m => ?_, (hok _).mp ⟨_, rfl⟩, fun hall => ?_, ?_⟩
  · obtain ⟨names, heq, -, -, hiff⟩ := hnames ⟨"::Bottom"⟩ _ rfl
    rw [← hiff m]
    have hlist : names = [⟨"::Bottom"⟩, ⟨"::Right"⟩, ⟨"::Root"⟩, ⟨"::_Each"⟩, ⟨"::Left"⟩] :=
      (List.map_injective_iff.mpr (fun _ _ => Option.some.inj) heq).symm
    rw [hlist]
  · obtain ⟨types, htypes⟩ := (hok _).mpr hall
    cases htypes
  · exact htrans _ (.ofClass ⟨"::Right"⟩) _ _ _ _ (Or.inl rfl) (Or.inl rfl) (Or.inr rfl) (by decide)
      (by decide)

/-! ### A union that collapses -/

/-- A generic class whose include is a union of its type parameter and a class, and a class that
extends it with this class as the argument. -/
def unionParent : Table where
  modules := [
    (⟨"::A"⟩, { name := ⟨"::A"⟩, kind := .classDecl }),
    (⟨"::C"⟩, { name := ⟨"::C"⟩, kind := .classDecl,
                superclass := some (.named .instanceOf ⟨"::P"⟩ [.ofClass ⟨"::A"⟩]) }),
    (⟨"::P"⟩, { name := ⟨"::P"⟩, kind := .classDecl, typeParams := [{ name := "T" }],
                includes := [.union [.var "T", .ofClass ⟨"::A"⟩]] })]

/-- No parent is a type variable, and yet an ancestor is not reachable: the union has only one
member when the type parameter is replaced. -/
theorem collapsed_union_is_ancestor :
    (∀ e ∈ unionParent.modules, ∀ t ∈ e.2.parents, ∀ x, t ≠ .var x) ∧
    unionParent.ancestorTypes ⟨"::C"⟩ =
      .ok [.ofClass ⟨"::C"⟩, .named .instanceOf ⟨"::P"⟩ [.ofClass ⟨"::A"⟩], .ofClass ⟨"::A"⟩] ∧
    unionParent.isSubtype (.ofClass ⟨"::C"⟩) (.ofClass ⟨"::A"⟩) = true ∧
    ¬ unionParent.Inherits ⟨"::C"⟩ ⟨"::A"⟩ := by
  refine ⟨by simp [unionParent, ModuleDecl.parents], rfl, by decide, fun hreach => ?_⟩
  have hclosed : ∀ m, unionParent.Inherits ⟨"::C"⟩ m → m = ⟨"::C"⟩ ∨ m = ⟨"::P"⟩ := by
    intro m hm
    induction hm with
    | refl => exact Or.inl rfl
    | tail _ hextends ih =>
      obtain ⟨decl, hdecl, t, ht, happ⟩ := hextends
      rcases ih with rfl | rfl
      · obtain rfl := Option.some.inj hdecl
        obtain rfl := List.mem_singleton.mp ht
        exact Or.inr (Option.some.inj happ).symm
      · obtain rfl := Option.some.inj hdecl
        obtain rfl := List.mem_singleton.mp ht
        cases happ
  have := hclosed _ hreach
  simp at this

end Table
end TypeShape
