import TypeShape.Proofs.Flow.NormalForm
import TypeShape.Proofs.Types.Nesting

/-!
# Boolean laws for conditions

Conditions are written with conjunction, disjunction and negation over other expressions.  Pushing
the negations inward by De Morgan's laws changes nothing about the environments of the branches, and
a chain of conjunctions, or of disjunctions, may be bracketed in any way.

The first law needs nothing of the environment: negation exchanges the branches, and so do the
environments of conjunction and disjunction.  The second one needs that joins are associative, which
they are once no entry is a union of a single member.

Main results:

- Theorem `Flow.narrowing_nnf`: what the negation normal form of a condition narrows.
- Theorem `Env.Steady.join_assoc`: joins of environments are associative.
- Theorem `Flow.followCond_eq_of_reassoc`: brackets do not matter.
- Theorem `Flow.follow_respects_boolean_laws`: both laws for the expressions that write conditions.
-/

namespace TypeShape

/-! ## Conditions -/

/-- Expressions joined by conjunction, disjunction and negation. -/
inductive Cond where
  | leaf (n : Expr)
  | and (left right : Cond)
  | or (left right : Cond)
  | not (c : Cond)

namespace Cond

/-- The negation normal form of a condition, or of its negation. -/
def nnf : Bool → Cond → Cond
  | true, leaf n => leaf n
  | false, leaf n => not (leaf n)
  | true, and l r => and (nnf true l) (nnf true r)
  | false, and l r => or (nnf false l) (nnf false r)
  | true, or l r => or (nnf true l) (nnf true r)
  | false, or l r => and (nnf false l) (nnf false r)
  | positive, not c => nnf (!positive) c

/-- Only leaves are negated. -/
inductive NegatesLeaves : Cond → Prop where
  | leaf (n : Expr) : NegatesLeaves (leaf n)
  | notLeaf (n : Expr) : NegatesLeaves (not (leaf n))
  | and {l r : Cond} (hl : NegatesLeaves l) (hr : NegatesLeaves r) : NegatesLeaves (and l r)
  | or {l r : Cond} (hl : NegatesLeaves l) (hr : NegatesLeaves r) : NegatesLeaves (or l r)

theorem negatesLeaves_nnf (c : Cond) (positive : Bool) : (c.nnf positive).NegatesLeaves := by
  induction c generalizing positive with
  | leaf n =>
    cases positive with
    | true => exact .leaf n
    | false => exact .notLeaf n
  | and l r ihl ihr =>
    cases positive with
    | true => exact .and (ihl true) (ihr true)
    | false => exact .or (ihl false) (ihr false)
  | or l r ihl ihr =>
    cases positive with
    | true => exact .or (ihl true) (ihr true)
    | false => exact .and (ihl false) (ihr false)
  | not c ih =>
    cases positive with
    | true => exact ih false
    | false => exact ih true

/-- Conditions that differ only in how chains of conjunctions or of disjunctions are bracketed. -/
inductive Reassoc : Cond → Cond → Prop where
  | refl (c : Cond) : Reassoc c c
  | symm {c d : Cond} (h : Reassoc c d) : Reassoc d c
  | trans {c d e : Cond} (h : Reassoc c d) (h' : Reassoc d e) : Reassoc c e
  | andAssoc (l m r : Cond) : Reassoc (and (and l m) r) (and l (and m r))
  | orAssoc (l m r : Cond) : Reassoc (or (or l m) r) (or l (or m r))
  | and {l l' r r' : Cond} (hl : Reassoc l l') (hr : Reassoc r r') : Reassoc (and l r) (and l' r')
  | or {l l' r r' : Cond} (hl : Reassoc l l') (hr : Reassoc r r') : Reassoc (or l r) (or l' r')
  | not {c c' : Cond} (h : Reassoc c c') : Reassoc (not c) (not c')

end Cond

namespace Flow

/-- The expression writes the condition: connectives as connectives, and negations as calls of `!`
that are recorded as negations. -/
inductive Writes (K : Flow) : Cond → Expr → Prop where
  | leaf (n : Expr) : Writes K (.leaf n) n
  | and {l r : Cond} {m n : Expr} (id : Nat) (hl : Writes K l m) (hr : Writes K r n) :
    Writes K (.and l r) (.and id m n)
  | or {l r : Cond} {m n : Expr} (id : Nat) (hl : Writes K l m) (hr : Writes K r n) :
    Writes K (.or l r) (.or id m n)
  | not {c : Cond} {n : Expr} {id : Nat} (args : List Expr)
    (hid : K.typing.typeOf id = .ok (.logic .not)) (hc : Writes K c n) :
    Writes K (.not c) (.call id (some n) "!" args)

/-- Evaluates a condition, its leaves as expressions. -/
def followCond (K : Flow) : Cond → Env → Except FlowError Branches
  | .leaf n, env => K.follow n env
  | .and left right, env => do
    let l ← followCond K left env
    let r ← followCond K right l.truthyEnv
    return l.conj r
  | .or left right, env => do
    let l ← followCond K left env
    let r ← followCond K right l.falsyEnv
    return l.disj r
  | .not c, env => do
    let inner ← followCond K c env
    return inner.negate

variable {K : Flow}

theorem Writes.follow_eq {c : Cond} {n : Expr} (h : K.Writes c n) (env : Env) :
    K.follow n env = K.followCond c env := by
  induction h generalizing env with
  | leaf n => rfl
  | and id hl hr ihl ihr => simp only [follow, followCond, ihl, ihr]
  | or id hl hr ihl ihr => simp only [follow, followCond, ihl, ihr]
  | not args hid hc ih =>
    rw [follow, hid, followCond, ← ih]
    rfl

/-- Evaluating a condition keeps what evaluating expressions keeps. -/
theorem Invariant.followCond {P : Ty → Prop} {Q : Env → Prop} (hI : K.Invariant P Q) (c : Cond)
    {env : Env} {e : Branches} (henv : Q env) (h : K.followCond c env = .ok e) : e.Holds P Q := by
  induction c generalizing env e with
  | leaf n => exact hI.follow n henv h
  | and left right ihl ihr =>
    obtain ⟨l, hl, h⟩ := exists_of_bind_ok h
    obtain ⟨r, hr, h⟩ := exists_of_bind_ok h
    obtain rfl := Except.ok.inj h
    have hl := ihl henv hl
    exact hI.conj hl (ihr hl.truthyEnv hr)
  | or left right ihl ihr =>
    obtain ⟨l, hl, h⟩ := exists_of_bind_ok h
    obtain ⟨r, hr, h⟩ := exists_of_bind_ok h
    obtain rfl := Except.ok.inj h
    have hl := ihl henv hl
    exact hI.disj hl (ihr hl.falsyEnv hr)
  | not c ih =>
    obtain ⟨inner, hinner, h⟩ := exists_of_bind_ok h
    obtain rfl := Except.ok.inj h
    exact hI.negate (ih henv hinner)

end Flow

/-! ## Negation normal form -/

/-- What a condition narrows: the environments of its branches and the refined entries. -/
structure Narrowing where
  truthyEnv : Env
  falsyEnv : Env
  changed : List EnvKey

/-- The narrowing of both branches, whatever the types of the condition itself. -/
def Branches.narrowing (e : Branches) : Narrowing :=
  ⟨e.truthyEnv, e.falsyEnv, e.changed⟩

namespace Narrowing

/-- The branches exchanged. -/
def flip (e : Narrowing) : Narrowing :=
  ⟨e.falsyEnv, e.truthyEnv, e.changed⟩

def conj (l r : Narrowing) : Narrowing :=
  ⟨r.truthyEnv, l.falsyEnv.join r.falsyEnv, Keyed.unionKeys l.changed r.changed⟩

def disj (l r : Narrowing) : Narrowing :=
  ⟨l.truthyEnv.join r.truthyEnv, r.falsyEnv, Keyed.unionKeys l.changed r.changed⟩

end Narrowing

namespace Flow

variable (K : Flow)

/-- What a condition narrows, or the error that it runs into. -/
def narrowing (c : Cond) (env : Env) : Except FlowError Narrowing :=
  (K.followCond c env).map Branches.narrowing

theorem narrowing_and (left right : Cond) (env : Env) :
    K.narrowing (.and left right) env = do
      let l ← K.narrowing left env
      let r ← K.narrowing right l.truthyEnv
      return l.conj r :=
  map_bind_bind (fun _ => rfl) fun _ _ => rfl

theorem narrowing_or (left right : Cond) (env : Env) :
    K.narrowing (.or left right) env = do
      let l ← K.narrowing left env
      let r ← K.narrowing right l.falsyEnv
      return l.disj r :=
  map_bind_bind (fun _ => rfl) fun _ _ => rfl

theorem narrowing_not (c : Cond) (env : Env) :
    K.narrowing (.not c) env = (K.narrowing c env).map Narrowing.flip := by
  unfold narrowing
  rw [followCond]
  cases K.followCond c env with
  | error x => rfl
  | ok e => rfl

/-- The negation normal form narrows as the condition does, and that of its negation the other way
round. -/
theorem narrowing_nnf (c : Cond) (env : Env) :
    K.narrowing (c.nnf true) env = K.narrowing c env ∧
      K.narrowing (c.nnf false) env = (K.narrowing c env).map Narrowing.flip := by
  induction c generalizing env with
  | leaf n => exact ⟨rfl, K.narrowing_not (.leaf n) env⟩
  | and l r ihl ihr =>
    constructor
    · simp only [Cond.nnf, narrowing_and, (ihl _).1, (ihr _).1]
    · -- Where `l` is true its negation is false, so `r` starts from the same environment.
      simp only [Cond.nnf, narrowing_and, narrowing_or, (ihl _).2, (ihr _).2]
      symm
      exact map_bind_bind (fun _ => rfl) fun _ _ => rfl
  | or l r ihl ihr =>
    constructor
    · simp only [Cond.nnf, narrowing_or, (ihl _).1, (ihr _).1]
    · simp only [Cond.nnf, narrowing_and, narrowing_or, (ihl _).2, (ihr _).2]
      symm
      exact map_bind_bind (fun _ => rfl) fun _ _ => rfl
  | not c ih =>
    obtain ⟨htrue, hfalse⟩ := ih env
    refine ⟨hfalse.trans (K.narrowing_not c env).symm, ?_⟩
    rw [narrowing_not]
    refine htrue.trans ?_
    cases K.narrowing c env with
    | error x => rfl
    | ok e => rfl

end Flow

/-! ## Brackets -/

/-- The entries are in order, and no entry is a union of a single member. -/
structure Env.Steady (env : Env) : Prop where
  ordered : env.Ordered
  entries : ∀ key t, env.lookup key = some t → t.Steady

namespace Env.Steady

variable {env env' env'' : Env}

theorem refine (henv : env.Steady) (key : EnvKey) {t : Ty} (ht : t.Steady) :
    (env.refine key t).Steady where
  ordered := henv.ordered.refine key t
  entries key' u hu := by
    rw [lookup_refine] at hu
    split at hu
    · obtain rfl := Option.some.inj hu
      exact ht
    · exact henv.entries key' u hu

theorem join (henv : env.Steady) (henv' : env'.Steady) : (env.join env').Steady where
  ordered := henv.ordered.join env'
  entries key t ht := by
    rw [lookup_join henv'.ordered] at ht
    cases hl : env.lookup key with
    | none =>
      cases hr : env'.lookup key with
      | none =>
        rw [hl, hr] at ht
        cases ht
      | some u =>
        rw [hl, hr] at ht
        obtain rfl := Option.some.inj ht
        exact henv'.entries key u hr
    | some u =>
      cases hr : env'.lookup key with
      | none =>
        rw [hl, hr] at ht
        obtain rfl := Option.some.inj ht
        exact henv.entries key u hl
      | some v =>
        rw [hl, hr] at ht
        obtain rfl := Option.some.inj ht
        exact .unionOf (by simp [henv.entries key u hl, henv'.entries key v hr])

/-- Joins are associative. -/
theorem join_assoc (henv : env.Steady) (henv' : env'.Steady) (henv'' : env''.Steady) :
    (env.join env').join env'' = env.join (env'.join env'') := by
  refine ((henv.join henv').join henv'').ordered.eq_of_lookup_eq
    (henv.join (henv'.join henv'')).ordered fun key => ?_
  rw [lookup_join henv''.ordered, lookup_join henv'.ordered,
    lookup_join (henv'.join henv'').ordered, lookup_join henv''.ordered]
  cases hl : env.lookup key with
  | none => cases env'.lookup key <;> cases env''.lookup key <;> rfl
  | some t =>
    cases hm : env'.lookup key with
    | none => cases env''.lookup key <;> rfl
    | some u =>
      cases hr : env''.lookup key with
      | none => rfl
      | some v =>
        exact congrArg some (Ty.unionOf_pair_assoc (henv.entries key t hl) (henv'.entries key u hm)
          (henv''.entries key v hr))

end Env.Steady

namespace Branches.Holds

variable {l m r : Branches} (hl : l.Holds Ty.Steady Env.Steady) (hm : m.Holds Ty.Steady Env.Steady)
  (hr : r.Holds Ty.Steady Env.Steady)

include hl hm hr

theorem conj_assoc : (l.conj m).conj r = l.conj (m.conj r) := by
  simp only [conj, hl.falsyEnv.join_assoc hm.falsyEnv hr.falsyEnv, Keyed.unionKeys_assoc hl.changed,
    Ty.unionOf_pair_assoc hl.falsyType hm.falsyType hr.falsyType]

theorem disj_assoc : (l.disj m).disj r = l.disj (m.disj r) := by
  simp only [disj, hl.truthyEnv.join_assoc hm.truthyEnv hr.truthyEnv,
    Keyed.unionKeys_assoc hl.changed,
    Ty.unionOf_pair_assoc hl.truthyType hm.truthyType hr.truthyType]

end Branches.Holds

/-- Parts of types are steady, whatever the declarations. -/
theorem Table.handsDown_steady (T : Table) : T.HandsDown (fun _ => True) Ty.Steady where
  member _ _ := trivial
  expansion _ _ := trivial
  whole _ h := .of_not_union h
  atom {t} h := by
    rintro ms rfl
    cases h
  unionOf h := .unionOf h

namespace Flow

variable {K : Flow}

theorem steady_elementTypes? {t : Ty} {count : Nat} {types : List Ty}
    (h : K.elementTypes? t count = some types) : ∀ u ∈ types, u.Steady := by
  unfold elementTypes? at h
  split at h
  · obtain rfl := Option.some.inj h
    intro u hu
    obtain ⟨i, -, rfl⟩ := List.mem_map.mp hu
    split
    · exact (K.table.handsDown_steady.splitByTruth trivial).1
    · exact K.table.handsDown_steady.atom rfl
  · split at h
    · obtain rfl := Option.some.inj h
      intro u hu
      obtain rfl := List.eq_of_mem_replicate hu
      exact Ty.steady_optional _
    · cases h
  · cases h

theorem invariant_steady (htypes : ∀ {id : Nat} {t : Ty}, K.typing.typeOf id = .ok t → t.Steady) :
    K.Invariant Ty.Steady Env.Steady where
  atom := K.table.handsDown_steady.atom
  unionOf := .unionOf
  typeOf := htypes
  splitByTruth _ := K.table.handsDown_steady.splitByTruth trivial
  splitByNil _ := K.table.handsDown_steady.splitByNil trivial
  splitByClass _ name := by
    refine K.table.handsDown_steady.splitByClass ?_ trivial
    exact .of_not_union (by simp [Table.untypedInstance])
  equalPart _ := K.table.handsDown_steady.equalPart trivial
  belowPart _ hancestor := K.table.handsDown_steady.belowPart trivial hancestor
  elements _ := steady_elementTypes?
  lookup henv h := henv.entries _ _ h
  refine henv key ht := henv.refine key ht
  join henv henv' := henv.join henv'

/-- Conditions that differ in brackets give the same branches. -/
theorem followCond_eq_of_reassoc (hI : K.Invariant Ty.Steady Env.Steady) {c d : Cond}
    (h : c.Reassoc d) {env : Env} (henv : env.Steady) :
    K.followCond c env = K.followCond d env := by
  induction h generalizing env with
  | refl c => rfl
  | symm h ih => exact (ih henv).symm
  | trans h h' ih ih' => exact (ih henv).trans (ih' henv)
  | andAssoc l m r =>
    simp only [followCond, bind_assoc, pure_bind]
    refine bind_congr_of_ok fun el hl => bind_congr_of_ok fun em hm =>
      bind_congr_of_ok fun er hr => ?_
    have hl := hI.followCond l henv hl
    have hm := hI.followCond m hl.truthyEnv hm
    exact congrArg Except.ok (hl.conj_assoc hm (hI.followCond r hm.truthyEnv hr))
  | orAssoc l m r =>
    simp only [followCond, bind_assoc, pure_bind]
    refine bind_congr_of_ok fun el hl => bind_congr_of_ok fun em hm =>
      bind_congr_of_ok fun er hr => ?_
    have hl := hI.followCond l henv hl
    have hm := hI.followCond m hl.falsyEnv hm
    exact congrArg Except.ok (hl.disj_assoc hm (hI.followCond r hm.falsyEnv hr))
  | @and l l' r r' hl hr ihl ihr =>
    rw [followCond, followCond, ihl henv]
    refine bind_congr_of_ok fun e he => ?_
    rw [ihr (hI.followCond l' henv he).truthyEnv]
  | @or l l' r r' hl hr ihl ihr =>
    rw [followCond, followCond, ihl henv]
    refine bind_congr_of_ok fun e he => ?_
    rw [ihr (hI.followCond l' henv he).falsyEnv]
  | not h ih => simp only [followCond, ih henv]

/-- Conditions can be rewritten by Boolean laws.  The negation normal form of a condition, which
negates only leaves, narrows the same entries in the same way from any environment, or runs into the
same error.  From an environment and recorded types in normal form, chains of conjunctions and of
disjunctions that are bracketed in another way give the same branches, types included, or the same
error. -/
theorem follow_respects_boolean_laws (K : Flow) (env : Env) :
    (∀ (c : Cond) (n n' : Expr), K.Writes c n → K.Writes (c.nnf true) n' →
      (c.nnf true).NegatesLeaves ∧
        (K.follow n env).map Branches.narrowing = (K.follow n' env).map Branches.narrowing) ∧
    (env.Ordered → env.Normal → (∀ e ∈ K.typing.types, e.2.Normal) →
      ∀ (c c' : Cond) (n n' : Expr), c.Reassoc c' → K.Writes c n → K.Writes c' n' →
        K.follow n env = K.follow n' env) := by
  constructor
  · intro c n n' hn hn'
    refine ⟨c.negatesLeaves_nnf true, ?_⟩
    rw [hn.follow_eq, hn'.follow_eq]
    exact (K.narrowing_nnf c env).1.symm
  · intro hordered hnormal htypes c c' n n' hc hn hn'
    have henv : env.Steady := ⟨hordered, fun key t h => (hnormal.lookup h).steady⟩
    have hI := invariant_steady (K := K) fun h => (Typing.normal_of_typeOf htypes h).steady
    rw [hn.follow_eq, hn'.follow_eq]
    exact followCond_eq_of_reassoc hI hc henv

/-! ### A chain of three tests and a negation -/

/-- Variables that may be `nil`, and two calls that are recorded as negations. -/
def doorTyping : Typing :=
  ⟨[(1, .union [.ofClass ⟨"::Key"⟩, .nil]), (2, .union [.ofClass ⟨"::Door"⟩, .nil]), (3, .bool),
    (4, .logic .not), (5, .logic .not)]⟩

/-- Three variables. -/
def doorEnv : Env where
  vars := [("door", .union [.ofClass ⟨"::Door"⟩, .nil]), ("key", .nil), ("open", .bool)]

/-- A negated conjunction is the disjunction of the negations, and brackets do not matter. -/
theorem follow_door :
    let K : Flow := ⟨{}, doorTyping⟩
    let key : Expr := .var 1 "key"
    let door : Expr := .var 2 "door"
    let isOpen : Expr := .var 3 "open"
    (∃ e, K.follow (.call 4 (some (.and 6 key door)) "!" []) doorEnv = .ok e ∧
      e.changed = [.var "door", .var "key"]) ∧
    (K.follow (.call 4 (some (.and 6 key door)) "!" []) doorEnv).map Branches.narrowing =
      (K.follow (.or 7 (.call 4 (some key) "!" []) (.call 5 (some door) "!" [])) doorEnv).map
        Branches.narrowing ∧
    K.follow (.and 6 (.and 7 key door) isOpen) doorEnv =
      K.follow (.and 6 key (.and 7 door isOpen)) doorEnv := by
  intro K key door isOpen
  obtain ⟨hnegation, hbrackets⟩ := follow_respects_boolean_laws K doorEnv
  have hfirst : K.typing.typeOf 4 = .ok (.logic .not) := rfl
  have hsecond : K.typing.typeOf 5 = .ok (.logic .not) := rfl
  refine ⟨⟨_, rfl, rfl⟩, ?_, ?_⟩
  · exact (hnegation (.not (.and (.leaf key) (.leaf door))) _ _
      (.not [] hfirst (.and 6 (.leaf key) (.leaf door)))
      (.or 7 (.not [] hfirst (.leaf key)) (.not [] hsecond (.leaf door)))).2
  · exact hbrackets (by decide) ⟨by decide, by decide⟩ (by decide) _ _ _ _
      (.andAssoc (.leaf key) (.leaf door) (.leaf isOpen))
      (.and 6 (.and 7 (.leaf key) (.leaf door)) (.leaf isOpen))
      (.and 6 (.leaf key) (.and 7 (.leaf door) (.leaf isOpen)))

end Flow
end TypeShape
