import TypeShape.Flow.Branches
import TypeShape.Proofs.Failure
import TypeShape.Proofs.Flow.Env
import TypeShape.Proofs.Split.Parts

/-!
# Invariants of conditions

A property of types and a property of environments hold of both branches of every condition once
they survive the few things that a condition does: split types, refine entries, join environments.

Main results:

- Theorem `Flow.Invariant.narrow`: narrowing an expression keeps the property of environments.
- Theorem `Flow.Invariant.follow`: both branches of a condition have the properties.
-/

namespace TypeShape

open Table (BothSides)

/-- Both branches have a property of types and one of environments, and what was refined is listed
in order. -/
structure Branches.Holds (P : Ty → Prop) (Q : Env → Prop) (e : Branches) : Prop where
  truthyEnv : Q e.truthyEnv
  falsyEnv : Q e.falsyEnv
  changed : e.changed.Pairwise fun a b => compare a b = .lt
  truthyType : P e.truthyType
  falsyType : P e.falsyType

namespace Flow

/-- What conditions do keeps a property of types and one of environments. -/
structure Invariant (K : Flow) (P : Ty → Prop) (Q : Env → Prop) : Prop where
  atom : ∀ {t : Ty}, t.isAtom = true → P t
  unionOf : ∀ {ts : List Ty}, (∀ t ∈ ts, P t) → P (Ty.unionOf ts)
  typeOf : ∀ {id : Nat} {t : Ty}, K.typing.typeOf id = .ok t → P t
  splitByTruth : ∀ {t : Ty}, P t → BothSides P (K.table.splitByTruth t)
  splitByNil : ∀ {t : Ty}, P t → BothSides P (K.table.splitByNil t)
  splitByClass : ∀ {t : Ty}, P t → ∀ name, BothSides P (K.table.splitByClass t name)
  equalPart : ∀ {t : Ty}, P t → ∀ value, P (K.table.equalPart t value)
  belowPart : ∀ {t ancestor : Ty}, P t → P ancestor → P (K.table.belowPart t ancestor)
  elements : ∀ {t : Ty} {count : Nat} {types : List Ty}, P t →
    K.elementTypes? t count = some types → ∀ u ∈ types, P u
  lookup : ∀ {env : Env} {key : EnvKey} {t : Ty}, Q env → env.lookup key = some t → P t
  refine : ∀ {env : Env} {t : Ty}, Q env → ∀ key, P t → Q (env.refine key t)
  join : ∀ {env env' : Env}, Q env → Q env' → Q (env.join env')

namespace Invariant

variable {K : Flow} {P : Ty → Prop} {Q : Env → Prop} (hI : K.Invariant P Q)

include hI

/-! ## Branches -/

omit hI in
/-- A condition with one outcome keeps the properties. -/
theorem alike {env : Env} {t : Ty} (henv : Q env) (ht : P t) : (Branches.alike env t).Holds P Q :=
  ⟨henv, henv, .nil, ht, ht⟩

/-- So does one that only answers. -/
theorem answering {env env' : Env} {changed : List EnvKey} (henv : Q env) (henv' : Q env')
    (hchanged : changed.Pairwise fun a b => compare a b = .lt) :
    (Branches.answering env env' changed).Holds P Q :=
  ⟨henv, henv', hchanged, hI.atom rfl, hI.atom rfl⟩

/-- So does negation. -/
theorem negate {e : Branches} (he : e.Holds P Q) : e.negate.Holds P Q :=
  hI.answering he.falsyEnv he.truthyEnv he.changed

/-- So does a conjunction. -/
theorem conj {l r : Branches} (hl : l.Holds P Q) (hr : r.Holds P Q) : (l.conj r).Holds P Q where
  truthyEnv := hr.truthyEnv
  falsyEnv := hI.join hl.falsyEnv hr.falsyEnv
  changed := Keyed.ascending_unionKeys hl.changed
  truthyType := hr.truthyType
  falsyType := hI.unionOf (by simp [hl.falsyType, hr.falsyType])

/-- So does a disjunction. -/
theorem disj {l r : Branches} (hl : l.Holds P Q) (hr : r.Holds P Q) : (l.disj r).Holds P Q where
  truthyEnv := hI.join hl.truthyEnv hr.truthyEnv
  falsyEnv := hr.falsyEnv
  changed := Keyed.ascending_unionKeys hl.changed
  truthyType := hI.unionOf (by simp [hl.truthyType, hr.truthyType])
  falsyType := hr.falsyType

/-- Branching on an entry keeps the properties. -/
theorem branchOn (inner : Branches) {key : EnvKey} {t : Ty} (ht : P t) (hinner : inner.Holds P Q) :
    (K.branchOn key t inner.truthyEnv inner.falsyEnv inner.changed).Holds P Q := by
  obtain ⟨hl, hr⟩ := hI.splitByTruth ht
  exact ⟨hI.refine hinner.truthyEnv key hl, hI.refine hinner.falsyEnv key hr,
    Keyed.ascending_addKey hinner.changed, hl, hr⟩

/-- So does splitting a value. -/
theorem splitOnly {t : Ty} {env : Env} (ht : P t) (henv : Q env) :
    (K.splitOnly t env).Holds P Q := by
  obtain ⟨hl, hr⟩ := hI.splitByTruth ht
  exact ⟨henv, henv, .nil, hl, hr⟩

/-! ## Narrowing -/

omit hI in
mutual

/-- Narrowing an expression to a type with the property keeps that of environments. -/
theorem narrow (hI : K.Invariant P Q) {t : Ty} (ht : P t) :
    (n : Expr) → {env : Env} → Q env → Q (narrow n t env).1
  | .var _ name, _, henv => hI.refine henv (.var name) ht
  | .assign _ name value, _, henv => narrow hI ht value (hI.refine henv (.var name) ht)
  | .call id _ _ _, env, henv => by
    unfold Flow.narrow
    split
    · exact hI.refine henv (.call id) ht
    · exact henv
  | .seq _ body, _, henv => narrowLast hI ht body henv
  | .multiAssign _ _ _, _, henv => henv
  | .literal _ _, _, henv => henv
  | .const _ _, _, henv => henv
  | .and _ _ _, _, henv => henv
  | .or _ _ _, _, henv => henv
  | .case _ _ _ _, _, henv => henv
  | .other _, _, henv => henv
termination_by structural n => n

/-- Narrowing the last of some expressions keeps the property of environments. -/
theorem narrowLast (hI : K.Invariant P Q) {t : Ty} (ht : P t) :
    (ns : List Expr) → {env : Env} → Q env → Q (narrowLast ns t env).1
  | [], _, henv => henv
  | [n], _, henv => narrow hI ht n henv
  | _ :: n :: ns, _, henv => narrowLast hI ht (n :: ns) henv
termination_by structural ns => ns

end

/-- Narrowing in both branches keeps the properties. -/
theorem narrowBoth {env : Env} {n : Expr} {truthy falsy : Ty} (henv : Q env) (htruthy : P truthy)
    (hfalsy : P falsy) : (narrowBoth env n truthy falsy).Holds P Q :=
  hI.answering (hI.narrow htruthy n henv) (hI.narrow hfalsy n henv) (Keyed.ascending_sortKeys _)

/-! ## Predicates -/

section Predicates

variable {env : Env} (henv : Q env) {receiver arg : Expr} {e : Branches}

include henv

/-- A class test keeps the properties. -/
theorem followClassTest {subject other : Expr} (h : K.followClassTest subject other env = .ok e) :
    e.Holds P Q := by
  obtain ⟨u, -, h⟩ := exists_of_bind_ok h
  split at h
  · obtain rfl := Except.ok.inj h
    exact hI.answering henv henv .nil
  · obtain ⟨t, ht, h⟩ := exists_of_bind_ok h
    obtain rfl := Except.ok.inj h
    obtain ⟨hl, hr⟩ := hI.splitByClass (hI.typeOf ht) _
    exact hI.narrowBoth henv hl hr

omit henv in
/-- The part that matches a receiver keeps the property of types. -/
theorem matchingPart {receiverType t : Ty} (ht : P t) :
    P (K.matchingPart receiver receiverType t) := by
  unfold Flow.matchingPart
  split
  · exact hI.equalPart ht _
  · split
    · exact (hI.splitByClass ht _).1
    · exact ht

/-- An equality keeps the properties. -/
theorem followEquality (h : K.followEquality receiver arg env = .ok e) : e.Holds P Q := by
  obtain ⟨receiverType, -, h⟩ := exists_of_bind_ok h
  obtain ⟨t, ht, h⟩ := exists_of_bind_ok h
  obtain rfl := Except.ok.inj h
  exact hI.narrowBoth henv (hI.matchingPart (hI.typeOf ht)) (hI.typeOf ht)

/-- So does an ancestor test. -/
theorem followAncestorTest (h : K.followAncestorTest receiver arg env = .ok e) : e.Holds P Q := by
  obtain ⟨ancestor, hancestor, h⟩ := exists_of_bind_ok h
  split at h
  · obtain ⟨t, ht, h⟩ := exists_of_bind_ok h
    obtain rfl := Except.ok.inj h
    exact hI.narrowBoth henv (hI.belowPart (hI.typeOf ht) (hI.typeOf hancestor)) (hI.typeOf ht)
  · obtain rfl := Except.ok.inj h
    exact hI.answering henv henv .nil

/-- A test that needs an argument keeps them if it does for each argument. -/
theorem withArg {question : Question} {args : List Expr} {use : Expr → Except FlowError Branches}
    (huse : ∀ arg, use arg = .ok e → e.Holds P Q) (h : withArg question args env use = .ok e) :
    e.Holds P Q := by
  unfold Flow.withArg at h
  split at h
  · obtain rfl := Except.ok.inj h
    exact alike henv (hI.atom rfl)
  · exact huse _ h

/-- A predicate keeps the properties. -/
theorem followPredicate {question : Question} {args : List Expr}
    (h : K.followPredicate question receiver args env = .ok e) : e.Holds P Q := by
  cases question with
  | receiverIsNil =>
    obtain ⟨t, ht, h⟩ := exists_of_bind_ok h
    obtain rfl := Except.ok.inj h
    obtain ⟨hl, hr⟩ := hI.splitByNil (hI.typeOf ht)
    exact hI.narrowBoth henv hl hr
  | receiverIsNotNil =>
    obtain ⟨t, ht, h⟩ := exists_of_bind_ok h
    obtain rfl := Except.ok.inj h
    obtain ⟨hl, hr⟩ := hI.splitByNil (hI.typeOf ht)
    exact hI.narrowBoth henv hr hl
  | receiverIsArg => exact hI.withArg henv (fun _ => hI.followClassTest henv) h
  | argIsReceiver => exact hI.withArg henv (fun _ => hI.followClassTest henv) h
  | argEqualsReceiver => exact hI.withArg henv (fun _ => hI.followEquality henv) h
  | argIsAncestor => exact hI.withArg henv (fun _ => hI.followAncestorTest henv) h
  | base =>
    obtain rfl := Except.ok.inj h
    exact hI.splitOnly (hI.atom rfl) henv
  | not =>
    obtain rfl := Except.ok.inj h
    exact alike henv (hI.atom rfl)

/-- So does a call. -/
theorem followCall {id : Nat} {t : Ty} (ht : P t) : (K.followCall id t env).Holds P Q := by
  unfold Flow.followCall
  split
  · exact hI.branchOn (.alike env t) (hI.lookup henv ‹_›) (alike henv ht)
  · exact alike henv ht

end Predicates

/-! ## Assignments -/

/-- Assigning variables keeps the property of environments. -/
theorem assignTargets {env : Env} {targets : List String} {types : List Ty} (henv : Q env)
    (htypes : ∀ t ∈ types, P t) : Q (assignTargets env targets types) :=
  List.foldlRecOn (motive := Q) _ _ henv fun _ henv p hp =>
    hI.refine henv (.var p.1) (htypes p.2 (List.of_mem_zip hp).2)

/-- A condition on an assignment keeps the properties. -/
theorem followTargets {targets : List String} {t : Ty} {inner : Branches} (ht : P t)
    (hinner : inner.Holds P Q) : (K.followTargets targets t inner).Holds P Q := by
  obtain ⟨hl, hr⟩ := hI.splitByTruth ht
  refine ⟨?_, hI.assignTargets hinner.falsyEnv ?_, Keyed.ascending_unionKeys hinner.changed, hl, hr⟩
  · dsimp only [Flow.followTargets]
    split
    · exact hI.assignTargets hinner.truthyEnv (hI.elements hl ‹_›)
    · exact hinner.truthyEnv
  · intro u hu
    obtain ⟨x, -, rfl⟩ := List.mem_map.mp hu
    exact hI.atom rfl

/-! ## Evaluation -/

/-- So does a recorded type alone. -/
theorem recorded {id : Nat} {env : Env} {e : Branches} (henv : Q env)
    (h : (do return Branches.alike env (← K.typing.typeOf id)) = Except.ok e) : e.Holds P Q := by
  obtain ⟨t, ht, h⟩ := exists_of_bind_ok h
  obtain rfl := Except.ok.inj h
  exact alike henv (hI.typeOf ht)

mutual

/-- Both branches of a condition have the properties. -/
theorem follow : (n : Expr) → {env : Env} → {e : Branches} → Q env → K.follow n env = .ok e →
    e.Holds P Q
  | .var _ _, env, _, henv, h => by
    obtain ⟨t, ht, h⟩ := exists_of_bind_ok h
    obtain rfl := Except.ok.inj h
    exact hI.branchOn (.alike env t) (hI.typeOf ht) (alike henv (hI.typeOf ht))
  | .assign _ _ value, _, _, henv, h => by
    obtain ⟨inner, hinner, h⟩ := exists_of_bind_ok h
    obtain ⟨t, ht, h⟩ := exists_of_bind_ok h
    obtain rfl := Except.ok.inj h
    exact hI.branchOn inner (hI.typeOf ht) (follow value henv hinner)
  | .multiAssign _ _ value, _, _, henv, h => by
    obtain ⟨inner, hinner, h⟩ := exists_of_bind_ok h
    obtain ⟨t, ht, h⟩ := exists_of_bind_ok h
    obtain rfl := Except.ok.inj h
    exact hI.followTargets (hI.typeOf ht) (follow value henv hinner)
  | .call _ none _ _, _, _, henv, h => by
    obtain ⟨t, ht, h⟩ := exists_of_bind_ok h
    split at h
    · obtain rfl := Except.ok.inj h
      exact alike henv (hI.atom rfl)
    · obtain rfl := Except.ok.inj h
      exact hI.followCall henv (hI.typeOf ht)
  | .call _ (some receiver) _ _, _, _, henv, h => by
    obtain ⟨t, ht, h⟩ := exists_of_bind_ok h
    split at h
    · obtain ⟨inner, hinner, h⟩ := exists_of_bind_ok h
      obtain rfl := Except.ok.inj h
      exact hI.negate (follow receiver henv hinner)
    · exact hI.followPredicate henv h
    · obtain rfl := Except.ok.inj h
      exact hI.followCall henv (hI.typeOf ht)
  | .and _ left right, _, _, henv, h => by
    obtain ⟨l, hl, h⟩ := exists_of_bind_ok h
    obtain ⟨r, hr, h⟩ := exists_of_bind_ok h
    obtain rfl := Except.ok.inj h
    have hl := follow left henv hl
    exact hI.conj hl (follow right hl.truthyEnv hr)
  | .or _ left right, _, _, henv, h => by
    obtain ⟨l, hl, h⟩ := exists_of_bind_ok h
    obtain ⟨r, hr, h⟩ := exists_of_bind_ok h
    obtain rfl := Except.ok.inj h
    have hl := follow left henv hl
    exact hI.disj hl (follow right hl.falsyEnv hr)
  | .seq id body, _, _, henv, h => followLast id body henv h
  | .literal _ _, _, _, henv, h => by
    obtain ⟨t, ht, h⟩ := exists_of_bind_ok h
    obtain rfl := Except.ok.inj h
    exact hI.splitOnly (hI.typeOf ht) henv
  | .const _ _, _, _, henv, h => hI.recorded henv h
  | .case _ _ _ _, _, _, henv, h => hI.recorded henv h
  | .other _, _, _, henv, h => hI.recorded henv h
termination_by structural n => n

/-- The last of some expressions keeps the properties. -/
theorem followLast (id : Nat) : (ns : List Expr) → {env : Env} → {e : Branches} → Q env →
    K.followLast id ns env = .ok e → e.Holds P Q
  | [], _, _, henv, h => by
    obtain rfl := Except.ok.inj h
    cases ht : K.typing.typeOf id with
    | error => exact alike henv (hI.atom rfl)
    | ok t => exact alike henv (hI.typeOf ht)
  | [n], _, _, henv, h => follow n henv h
  | _ :: n :: ns, _, _, henv, h => followLast id (n :: ns) henv h
termination_by structural ns => ns

end

end Invariant
end Flow
end TypeShape
