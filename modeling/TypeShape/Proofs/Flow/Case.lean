import TypeShape.Flow.Branches
import TypeShape.Proofs.Flow.Env
import TypeShape.Proofs.Split.Class

/-!
# What case expressions narrow

The clauses of a case expression are tried in order, and each pattern is given what the ones before
it leave.  A constant takes the leaves below its class away; a literal and any other pattern match
without ruling anything out.  So the else branch has exactly the leaves that no constant takes, and
every other leaf is found in a clause with a constant that takes it.

Main results:

- Theorem `Flow.separates_matchPatterns`: the patterns of a clause separate the leaves that they
  take from all others.
- Theorem `Flow.covers_followClauses`: so do the clauses, each with its own environment.
- Theorem `Flow.followCase_narrows`: a case expression on a variable loses no leaf and rules out
  only what its constants match.
-/

namespace TypeShape

/-- What is set is found. -/
theorem Env.lookup_refine_var (env : Env) (x : String) (t : Ty) :
    (env.refine (.var x) t).lookup (.var x) = some t := by
  rw [Env.lookup_refine, if_pos rfl]

namespace Flow

open Ty (Same)
open Table (Leaf Separates Below)

variable {T : Table}

/-! ## Patterns -/

/-- A constant pattern takes the leaves below its class; other patterns take none. -/
def Takes (T : Table) (p : Expr) (l : Ty) : Prop :=
  ∃ id name, p = .const id name ∧ Below T (T.untypedInstance name) l

/-- Some pattern of a clause takes the leaf. -/
def ClauseTakes (T : Table) (w : Clause Expr) (l : Ty) : Prop :=
  ∃ p ∈ w.patterns, Takes T p l

theorem Takes.congr (hT : T.TypesWellFormed) {p : Expr} {l l' : Ty} (hs : Same l l')
    (h : Takes T p l) : Takes T p l' := by
  obtain ⟨id, name, rfl, hbelow⟩ := h
  exact ⟨id, name, rfl, hbelow.congr hT (Table.normal_untypedInstance name).wellFormed hs⟩

theorem ClauseTakes.congr (hT : T.TypesWellFormed) {w : Clause Expr} {l l' : Ty} (hs : Same l l')
    (h : ClauseTakes T w l) : ClauseTakes T w l' := by
  obtain ⟨p, hp, htakes⟩ := h
  exact ⟨p, hp, htakes.congr hT hs⟩

theorem takes_const (T : Table) (id : Nat) (name : TypeName) :
    Takes T (.const id name) = Below T (T.untypedInstance name) := by
  funext l
  refine propext ⟨?_, fun h => ⟨id, name, rfl, h⟩⟩
  rintro ⟨id', name', heq, h⟩
  obtain ⟨rfl, rfl⟩ := Expr.const.inj heq
  exact h

theorem not_takes {p : Expr} (hp : ∀ id name, p ≠ .const id name) (l : Ty) : ¬ Takes T p l := by
  rintro ⟨id, name, heq, -⟩
  exact hp id name heq

section Case

variable {K : Flow} (hT : K.table.TypesWellFormed) (hacyclic : K.table.AcyclicAliases)

include hT hacyclic

/-- A pattern separates the leaves that it takes from all others. -/
theorem separates_matchPattern {t : Ty} (ht : t.WellFormed) (hun : ¬ Leaf K.table t .untyped)
    (p : Expr) :
    Separates K.table (Takes K.table p) t [(K.matchPattern t p).1] (K.matchPattern t p).2 := by
  have hkept : (∀ id name, p ≠ .const id name) → K.matchPattern t p = (t, t) →
      Separates K.table (Takes K.table p) t [(K.matchPattern t p).1] (K.matchPattern t p).2 := by
    intro hp heq
    rw [heq]
    exact .of_none hT ht (fun l _ => not_takes hp l) (by simpa using ht) (by simpa using hun)
  cases p with
  | const id name =>
    rw [takes_const]
    exact Table.separates_splitByClass hT hacyclic ht hun name
  | literal id value =>
    have hpart := Table.onlyLiteral_equalPart K.table t value
    have heq : K.matchPattern t (.literal id value) = (K.table.equalPart t value, t) := rfl
    rw [heq]
    refine .of_none hT ht (fun l _ => not_takes (by simp) l) (by simpa using hpart.wellFormed) ?_
    intro u hu hl
    obtain rfl := List.mem_singleton.mp hu
    cases hpart.leaf _ hl
  | _ => exact hkept (by simp) rfl

/-- The patterns of a clause separate the leaves that they take from all others. -/
theorem separates_matchPatterns (ps : List Expr) {t : Ty} (ht : t.WellFormed)
    (hun : ¬ Leaf K.table t .untyped) :
    Separates K.table (fun l => ∃ p ∈ ps, Takes K.table p l) t (K.matchPatterns ps t).1
      (K.matchPatterns ps t).2 := by
  induction ps generalizing t with
  | nil => exact .of_none hT ht (by simp) (by simp [matchPatterns]) (by simp [matchPatterns])
  | cons p ps ih =>
    have hfirst := separates_matchPattern hT hacyclic ht hun p
    have hrest := ih hfirst.wellFormed_rest fun hl => hun (hfirst.of_rest _ hl).1
    have hcongr : ∀ l l', Same l l' → (∃ q ∈ ps, Takes K.table q l) →
        ∃ q ∈ ps, Takes K.table q l' := by
      rintro l l' hs ⟨q, hq, h⟩
      exact ⟨q, hq, h.congr hT hs⟩
    have heq : (fun l => ∃ q ∈ p :: ps, Takes K.table q l) =
        fun l => Takes K.table p l ∨ ∃ q ∈ ps, Takes K.table q l := by
      funext l
      simp
    rw [heq]
    exact hfirst.andThen hrest hcongr

omit hT hacyclic

/-! ## Clauses -/

/-- The environments of clauses give a variable the leaves that their clauses take, and the rest has
exactly the others. -/
structure Covers (T : Table) (x : String) (t : Ty) (ws : List (Clause Expr)) (envs : List Env)
    (rest : Ty) : Prop where
  length : envs.length = ws.length
  taken : ∀ l, Leaf T t l → (∃ w ∈ ws, ClauseTakes T w l) →
    ∃ w env, (w, env) ∈ ws.zip envs ∧ ClauseTakes T w l ∧
      ∃ u l', env.lookup (.var x) = some u ∧ Same l l' ∧ Leaf T u l'
  kept : ∀ l, Leaf T t l → (∀ w ∈ ws, ¬ ClauseTakes T w l) → ∃ l', Same l l' ∧ Leaf T rest l'
  of_rest : ∀ l, Leaf T rest l → Leaf T t l ∧ ∀ w ∈ ws, ¬ ClauseTakes T w l

theorem Covers.nil (hT : T.TypesWellFormed) {x : String} {t : Ty} (ht : t.WellFormed) :
    Covers T x t [] [] t where
  length := rfl
  taken l hl h := by simp at h
  kept l hl _ := ⟨l, .refl (hl.wellFormed hT ht), hl⟩
  of_rest l hl := ⟨hl, by simp⟩

/-- A clause comes before clauses that are given what it leaves. -/
theorem Covers.cons (hT : T.TypesWellFormed) {x : String} {t u rest rest' : Ty} {w : Clause Expr}
    {ws : List (Clause Expr)} {env : Env} {envs : List Env}
    (h : Separates T (ClauseTakes T w) t [u] rest) (hu : env.lookup (.var x) = some u)
    (hws : Covers T x rest ws envs rest') : Covers T x t (w :: ws) (env :: envs) rest' where
  length := congrArg (· + 1) hws.length
  taken l hl htakes := by
    by_cases hfirst : ClauseTakes T w l
    · obtain ⟨v, hv, l', hs, hl'⟩ := h.taken l hl hfirst
      obtain rfl := List.mem_singleton.mp hv
      exact ⟨w, env, List.mem_cons_self, hfirst, v, l', hu, hs, hl'⟩
    · obtain ⟨l₁, hs₁, hl₁⟩ := h.kept l hl hfirst
      obtain ⟨w', hw', htakes'⟩ : ∃ w' ∈ ws, ClauseTakes T w' l := by
        simpa [hfirst] using htakes
      obtain ⟨w₂, env₂, hmem, htakes₂, v, l₂, hv, hs₂, hl₂⟩ :=
        hws.taken l₁ hl₁ ⟨w', hw', htakes'.congr hT hs₁⟩
      exact ⟨w₂, env₂, List.mem_cons_of_mem _ hmem, htakes₂.congr hT hs₁.symm, v, l₂, hv,
        hs₁.trans hs₂, hl₂⟩
  kept l hl hno := by
    obtain ⟨hw, hws'⟩ := List.forall_mem_cons.mp hno
    obtain ⟨l₁, hs₁, hl₁⟩ := h.kept l hl hw
    obtain ⟨l₂, hs₂, hl₂⟩ := hws.kept l₁ hl₁ fun w' hw' htakes =>
      hws' w' hw' (htakes.congr hT hs₁.symm)
    exact ⟨l₂, hs₁.trans hs₂, hl₂⟩
  of_rest l hl := by
    obtain ⟨hl₁, hws'⟩ := hws.of_rest l hl
    obtain ⟨hl₀, hw⟩ := h.of_rest l hl₁
    exact ⟨hl₀, List.forall_mem_cons.mpr ⟨hw, hws'⟩⟩

include hT hacyclic

/-- Clauses separate the leaves that they take from all others, each with its own environment. -/
theorem covers_followClauses (id : Nat) (x : String) (env : Env) (ws : List (Clause Expr)) {t : Ty}
    (ht : t.WellFormed) (hun : ¬ Leaf K.table t .untyped) :
    Covers K.table x t ws (K.followClauses (.var id x) env ws t).1
      (K.followClauses (.var id x) env ws t).2 := by
  induction ws generalizing t with
  | nil => exact .nil hT ht
  | cons w ws ih =>
    have hclause := separates_matchPatterns hT hacyclic w.patterns ht hun
    have hrest := ih hclause.wellFormed_rest fun hl => hun (hclause.of_rest _ hl).1
    exact .cons hT (hclause.join hT) (env.lookup_refine_var x _) hrest

omit hT hacyclic

/-! ## Case expressions -/

/-- What no constant pattern rules out: the top type, aliases that are not declared, and what is
below the class of no constant. -/
def Remains (T : Table) (ws : List (Clause Expr)) (l : Ty) : Prop :=
  l = .top ∨ (∃ name args, l = .named .aliasOf name args ∧ T.alias? name = none) ∨
    ∀ w ∈ ws, ∀ id name, .const id name ∈ w.patterns →
      T.isSubtype l (T.untypedInstance name) = false

theorem clauseTakes_iff {w : Clause Expr} {l : Ty} :
    ClauseTakes T w l ↔
      ∃ id name, .const id name ∈ w.patterns ∧ Below T (T.untypedInstance name) l := by
  constructor
  · rintro ⟨p, hp, id, name, rfl, h⟩
    exact ⟨id, name, hp, h⟩
  · rintro ⟨id, name, hp, h⟩
    exact ⟨_, hp, id, name, rfl, h⟩

/-- A leaf remains if no clause takes it. -/
theorem remains_iff {t l : Ty} {ws : List (Clause Expr)} (hl : Leaf T t l) :
    Remains T ws l ↔ ∀ w ∈ ws, ¬ ClauseTakes T w l := by
  simp only [clauseTakes_iff]
  constructor
  · rintro h w hw ⟨id, name, hp, htop, halias, hsub⟩
    rcases h with rfl | ⟨name', args, rfl, -⟩ | h
    · exact htop rfl
    · exact halias name' args rfl
    · simp [h w hw id name hp] at hsub
  · intro h
    by_cases htop : l = .top
    · exact Or.inl htop
    by_cases halias : ∃ name args, l = .named .aliasOf name args
    · obtain ⟨name, args, rfl⟩ := halias
      exact Or.inr (Or.inl ⟨name, args, rfl, hl.alias?_eq_none⟩)
    · refine Or.inr (Or.inr fun w hw id name hp => ?_)
      by_contra hsub
      exact h w hw ⟨id, name, hp, htop, fun name args heq => halias ⟨name, args, heq⟩,
        by simpa using hsub⟩

/-- A case expression on a variable has one environment for each clause.  The variable has exactly
the remaining leaves in the else branch, and every other leaf in a clause with a constant that it is
below. -/
theorem followCase_narrows {env : Env} {id xid : Nat} {x : String} {clauses : List (Clause Expr)}
    {otherwise : Option Expr} {t : Ty} (hT : K.table.Built) (hacyclic : K.table.AcyclicAliases)
    (ht : t.Built) (hx : K.typing.typeOf xid = .ok t) (hun : ¬ K.table.Leaf t .untyped) :
    ∃ r u, K.followCase env (.case id (some (.var xid x)) clauses otherwise) = .ok r ∧
      r.clauses.length = clauses.length ∧
      r.elseEnv.lookup (.var x) = some u ∧
      (∀ l, K.table.Leaf u l → K.table.Leaf t l ∧ Remains K.table clauses l) ∧
      (∀ l, K.table.Leaf t l → Remains K.table clauses l →
        ∃ l', (l == l') = true ∧ K.table.Leaf u l') ∧
      ∀ l, K.table.Leaf t l → ¬ Remains K.table clauses l →
        ∃ w e v l', (w, e) ∈ clauses.zip r.clauses ∧
          (∃ cid name, .const cid name ∈ w.patterns ∧
            K.table.isSubtype l (K.table.untypedInstance name) = true) ∧
          e.lookup (.var x) = some v ∧ (l == l') = true ∧ K.table.Leaf v l' := by
  have hcovers := covers_followClauses hT.typesWellFormed hacyclic xid x env clauses
    ht.wellFormed hun
  refine ⟨⟨(K.followClauses (.var xid x) env clauses t).1,
    env.refine (.var x) (K.followClauses (.var xid x) env clauses t).2⟩, _, ?_, hcovers.length,
    env.lookup_refine_var x _, fun l hl => ?_, fun l hl hremains => ?_, fun l hl hremains => ?_⟩
  · simp only [followCase, Expr.id, hx]
    rfl
  · obtain ⟨hleaf, hno⟩ := hcovers.of_rest l hl
    exact ⟨hleaf, (remains_iff hleaf).mpr hno⟩
  · obtain ⟨l', hs, hl'⟩ := hcovers.kept l hl ((remains_iff hl).mp hremains)
    exact ⟨l', hs.beq, hl'⟩
  · have htaken : ∃ w ∈ clauses, ClauseTakes K.table w l := by
      by_contra hno
      exact hremains ((remains_iff hl).mpr fun w hw h => hno ⟨w, hw, h⟩)
    obtain ⟨w, e, hmem, htakes, v, l', hv, hs, hl'⟩ := hcovers.taken l hl htaken
    obtain ⟨cid, name, hp, hbelow⟩ := clauseTakes_iff.mp htakes
    exact ⟨w, e, v, l', hmem, ⟨cid, name, hp, hbelow.2.2⟩, hv, hs.beq, hl'⟩

end Case

/-! ### Pets or nothing -/

/-- An alias with an argument, or an alias that is not declared. -/
def petsType : Ty :=
  .union [.named .aliasOf ⟨"::petOr"⟩ [.nil], .named .aliasOf ⟨"::lost"⟩ []]

/-- Two classes below a third, an alias for both, and one for them or an argument. -/
def pets : Flow where
  table := {
    modules := [
      (⟨"::Animal"⟩, { name := ⟨"::Animal"⟩, kind := .classDecl }),
      (⟨"::Cat"⟩, { name := ⟨"::Cat"⟩, kind := .classDecl,
                    superclass := some (.ofClass ⟨"::Animal"⟩) }),
      (⟨"::Dog"⟩, { name := ⟨"::Dog"⟩, kind := .classDecl,
                    superclass := some (.ofClass ⟨"::Animal"⟩) })]
    aliases := [
      (⟨"::pet"⟩, { name := ⟨"::pet"⟩, body := .union [.ofClass ⟨"::Cat"⟩, .ofClass ⟨"::Dog"⟩] }),
      (⟨"::petOr"⟩, { name := ⟨"::petOr"⟩, typeParams := [{ name := "T" }],
                      body := .union [.named .aliasOf ⟨"::pet"⟩ [], .var "T"] })] }
  typing := ⟨[(1, petsType)]⟩

theorem acyclicAliases_pets : pets.table.AcyclicAliases := by
  refine Table.acyclicAliases_of_rank (fun a => if a = ⟨"::petOr"⟩ then 1 else 0) ?_
  rintro a b ⟨decl, hdecl, hexposes⟩
  have hclass : ∀ name, ¬ (Ty.ofClass name).Exposes b := fun name =>
    Ty.not_exposes rfl (by simp [Ty.ofClass]) b
  have hvar : ¬ (Ty.var "T").Exposes b := Ty.not_exposes rfl (by simp) b
  have hmem := Keyed.mem_of_get? hdecl
  simp only [pets, List.mem_cons, Prod.mk.injEq, List.not_mem_nil, or_false] at hmem
  rcases hmem with ⟨rfl, rfl⟩ | ⟨rfl, rfl⟩
  · simp [Ty.exposes_union_iff, hclass] at hexposes
  · obtain rfl : b = ⟨"::pet"⟩ := by
      simpa [Ty.exposes_union_iff, Ty.exposes_alias_iff, hvar] using hexposes
    decide

theorem leaf_petsType_iff {l : Ty} :
    Leaf pets.table petsType l ↔
      l = .ofClass ⟨"::Cat"⟩ ∨ l = .ofClass ⟨"::Dog"⟩ ∨ l = .nil ∨
        l = .named .aliasOf ⟨"::lost"⟩ [] := by
  have hpetOr : pets.table.expansion? (.named .aliasOf ⟨"::petOr"⟩ [.nil]) =
      some (.union [.named .aliasOf ⟨"::pet"⟩ [], .nil]) := rfl
  have hpet : pets.table.expansion? (.named .aliasOf ⟨"::pet"⟩ []) =
      some (.union [.ofClass ⟨"::Cat"⟩, .ofClass ⟨"::Dog"⟩]) := rfl
  have hself : ∀ t, (∀ ms, t ≠ .union ms) → t ≠ .bot → pets.table.expansion? t = none →
      (Leaf pets.table t l ↔ l = t) := by
    intro t hu hb he
    simp [Table.leaf_iff_of_none hu he, hb]
  have hclass : ∀ name, Leaf pets.table (.ofClass name) l ↔ l = .ofClass name :=
    fun name => hself _ (by simp [Ty.ofClass]) (by simp [Ty.ofClass]) rfl
  have hnil : Leaf pets.table .nil l ↔ l = .nil := hself _ (by simp) (by simp) rfl
  have hlost : Leaf pets.table (.named .aliasOf ⟨"::lost"⟩ []) l ↔
      l = .named .aliasOf ⟨"::lost"⟩ [] := hself _ (by simp) (by simp) rfl
  simp [petsType, Table.leaf_union_iff, Table.leaf_iff_of_expansion hpetOr,
    Table.leaf_iff_of_expansion hpet, hclass, hnil, hlost, or_assoc]

/-- A clause with a literal and a class, and one with any other pattern and a constant that is not
declared. -/
def petClauses : List (Clause Expr) :=
  [⟨[.literal 2 (.integer 1), .const 3 ⟨"::Cat"⟩], none⟩, ⟨[.other 4, .const 5 ⟨"::lost"⟩], none⟩]

theorem remains_petClauses_iff {l : Ty} (hl : Leaf pets.table petsType l) :
    Remains pets.table petClauses l ↔ l ≠ .ofClass ⟨"::Cat"⟩ := by
  have hcat : pets.table.isSubtype (.ofClass ⟨"::Cat"⟩) (pets.table.untypedInstance ⟨"::Cat"⟩) =
      true := by decide
  have hdog : ∀ name ∈ [⟨"::Cat"⟩, ⟨"::lost"⟩],
      pets.table.isSubtype (.ofClass ⟨"::Dog"⟩) (pets.table.untypedInstance name) = false := by
    decide
  have hnil : ∀ name ∈ [⟨"::Cat"⟩, ⟨"::lost"⟩],
      pets.table.isSubtype .nil (pets.table.untypedInstance name) = false := by decide
  have hlost : pets.table.alias? ⟨"::lost"⟩ = none := rfl
  simp only [List.mem_cons, List.not_mem_nil, or_false, forall_eq_or_imp, forall_eq] at hdog hnil
  unfold Ty.ofClass at hcat hdog
  rcases leaf_petsType_iff.mp hl with rfl | rfl | rfl | rfl
  · simp [Remains, petClauses, hcat, Ty.ofClass]
  · simp [Remains, petClauses, hdog, Ty.ofClass]
  · simp [Remains, petClauses, hnil, Ty.ofClass]
  · simp [Remains, petClauses, hlost, Ty.ofClass]

theorem followCase_narrows_pets :
    pets.table.Built ∧ pets.table.AcyclicAliases ∧ petsType.Built ∧
    pets.typing.typeOf 1 = .ok petsType ∧ ¬ pets.table.Leaf petsType .untyped ∧
    ∃ r u, pets.followCase .empty (.case 0 (some (.var 1 "x")) petClauses none) = .ok r ∧
      r.clauses.length = 2 ∧ r.elseEnv.lookup (.var "x") = some u ∧
      (∀ l, pets.table.Leaf u l →
        l ∈ [.ofClass ⟨"::Dog"⟩, .nil, .named .aliasOf ⟨"::lost"⟩ []]) ∧
      (∀ l ∈ [.ofClass ⟨"::Dog"⟩, .nil, .named .aliasOf ⟨"::lost"⟩ []],
        ∃ l', (l == l') = true ∧ pets.table.Leaf u l') ∧
      ∃ e ∈ r.clauses, ∃ v l', e.lookup (.var "x") = some v ∧
        (.ofClass ⟨"::Cat"⟩ == l') = true ∧ pets.table.Leaf v l' := by
  have hT : pets.table.Built := by
    have hmodules : ∀ e ∈ pets.table.modules, ∀ t ∈ e.2.parents, t.WellFormed := by decide
    have haliases : ∀ e ∈ pets.table.aliases, e.2.body.WellFormed := by decide
    exact ⟨fun e he t ht => Ty.built_iff_wellFormed.mpr (hmodules e he t ht),
      fun e he => Ty.built_iff_wellFormed.mpr (haliases e he)⟩
  have ht : petsType.Built := Ty.built_iff_wellFormed.mpr (by decide)
  have hx : pets.typing.typeOf 1 = .ok petsType := rfl
  have hun : ¬ pets.table.Leaf petsType .untyped := by simp [leaf_petsType_iff, Ty.ofClass]
  have hleaf : ∀ l ∈ [.ofClass ⟨"::Dog"⟩, .nil, .named .aliasOf ⟨"::lost"⟩ []],
      pets.table.Leaf petsType l ∧ l ≠ .ofClass ⟨"::Cat"⟩ := by
    simp [leaf_petsType_iff, Ty.ofClass]
  have hcat : pets.table.Leaf petsType (.ofClass ⟨"::Cat"⟩) := leaf_petsType_iff.mpr (Or.inl rfl)
  obtain ⟨r, u, hr, hlength, hu, honly, hkept, htaken⟩ :=
    @followCase_narrows pets .empty 0 1 "x" petClauses none petsType hT acyclicAliases_pets ht hx
      hun
  refine ⟨hT, acyclicAliases_pets, ht, hx, hun, r, u, hr, hlength, hu, fun l hl => ?_,
    fun l hl => ?_, ?_⟩
  · obtain ⟨hl, hremains⟩ := honly l hl
    simpa [(remains_petClauses_iff hl).mp hremains] using leaf_petsType_iff.mp hl
  · obtain ⟨hl, hne⟩ := hleaf l hl
    exact hkept l hl ((remains_petClauses_iff hl).mpr hne)
  · obtain ⟨w, e, v, l', hmem, -, hv, hs, hl'⟩ :=
      htaken _ hcat fun h => (remains_petClauses_iff hcat).mp h rfl
    exact ⟨e, (List.of_mem_zip hmem).2, v, l', hv, hs, hl'⟩

end Flow
end TypeShape
