import TypeShape.Flow.Env
import TypeShape.Flow.Expr
import TypeShape.Split.Class
import TypeShape.Split.Part
import TypeShape.Split.Truth

/-!
# Following conditions

Evaluating an expression as a condition gives an environment for each branch, the type of its
value on each branch, and the entries that were refined.  A call whose recorded type is a
predicate narrows its receiver or argument; conjunction and disjunction thread the environment of
one operand into the other.

Main definitions: `Branches`, `Flow.follow`, `CaseBranches`, `Flow.followCase`.
-/

namespace TypeShape

/-- Both branches of a condition. -/
structure Branches where
  truthyEnv : Env
  falsyEnv : Env
  changed : List EnvKey
  truthyType : Ty
  falsyType : Ty

namespace Branches

/-- Nothing is refined. -/
def alike (env : Env) (t : Ty) : Branches :=
  ⟨env, env, [], t, t⟩

/-- A predicate is true on one branch and false on the other. -/
def answering (truthyEnv falsyEnv : Env) (changed : List EnvKey) : Branches :=
  ⟨truthyEnv, falsyEnv, changed, .trueType, .falseType⟩

/-- The negation exchanges the branches. -/
def negate (e : Branches) : Branches :=
  answering e.falsyEnv e.truthyEnv e.changed

/-- A conjunction, the second operand evaluated where the first is true. -/
def conj (l r : Branches) : Branches where
  truthyEnv := r.truthyEnv
  falsyEnv := l.falsyEnv.join r.falsyEnv
  changed := Keyed.unionKeys l.changed r.changed
  truthyType := r.truthyType
  falsyType := Ty.unionOf [l.falsyType, r.falsyType]

/-- A disjunction, the second operand evaluated where the first is false. -/
def disj (l r : Branches) : Branches where
  truthyEnv := l.truthyEnv.join r.truthyEnv
  falsyEnv := r.falsyEnv
  changed := Keyed.unionKeys l.changed r.changed
  truthyType := Ty.unionOf [l.truthyType, r.truthyType]
  falsyType := r.falsyType

end Branches

/-- What conditions are followed with: the declarations and the recorded types. -/
structure Flow where
  table : Table
  typing : Typing

namespace Flow

/-! ## Narrowing -/

mutual

/-- Gives an expression a type: refines the entries that it denotes and lists them. -/
def narrow : Expr → Ty → Env → Env × List EnvKey
  | .var _ name, t, env => (env.refine (.var name) t, [.var name])
  | .assign _ name value, t, env =>
    let inner := narrow value t (env.refine (.var name) t)
    (inner.1, .var name :: inner.2)
  | .call id _ _ _, t, env =>
    if (env.lookup (.call id)).isSome then (env.refine (.call id) t, [.call id]) else (env, [])
  | .seq _ body, t, env => narrowLast body t env
  | .multiAssign _ _ _, _, env => (env, [])
  | .literal _ _, _, env => (env, [])
  | .const _ _, _, env => (env, [])
  | .and _ _ _, _, env => (env, [])
  | .or _ _ _, _, env => (env, [])
  | .case _ _ _ _, _, env => (env, [])
  | .other _, _, env => (env, [])
termination_by structural n => n

/-- Gives the last of some expressions a type. -/
def narrowLast : List Expr → Ty → Env → Env × List EnvKey
  | [], _, env => (env, [])
  | [n], t, env => narrow n t env
  | _ :: n :: ns, t, env => narrowLast (n :: ns) t env
termination_by structural ns => ns

end

/-- Gives an expression one type on each branch. -/
def narrowBoth (env : Env) (n : Expr) (truthy falsy : Ty) : Branches :=
  let onTrue := narrow n truthy env
  let onFalse := narrow n falsy env
  .answering onTrue.1 onFalse.1 (Keyed.sortKeys (onTrue.2 ++ onFalse.2))

/-- Refines an entry by the truth of a type, after an evaluation. -/
def branchOn (K : Flow) (key : EnvKey) (t : Ty) (truthyEnv falsyEnv : Env)
    (changed : List EnvKey) : Branches :=
  let sides := K.table.splitByTruth t
  { truthyEnv := truthyEnv.refine key sides.1
    falsyEnv := falsyEnv.refine key sides.2
    changed := Keyed.addKey key changed
    truthyType := sides.1
    falsyType := sides.2 }

/-- Splits a type by truth and refines nothing. -/
def splitOnly (K : Flow) (t : Ty) (env : Env) : Branches :=
  let sides := K.table.splitByTruth t
  { Branches.alike env .bot with truthyType := sides.1, falsyType := sides.2 }

/-! ## Predicates -/

/-- The class that a class object is. -/
def classObject? : Ty → Option TypeName
  | .singleton name => some name
  | _ => none

/-- A test of one expression against the class that another one is. -/
def followClassTest (K : Flow) (subject other : Expr) (env : Env) : Except FlowError Branches := do
  match classObject? (← K.typing.typeOf other.id) with
  | none => return .answering env env []
  | some name =>
    let t ← K.typing.typeOf subject.id
    let sides := K.table.splitByClass t name
    return narrowBoth env subject sides.1 sides.2

/-- The value that an expression of a type is known to be. -/
def literalOf? (n : Expr) (t : Ty) : Option Literal :=
  match n, t with
  | .literal _ value, _ => some value
  | _, .literal value => some value
  | _, _ => none

/-- The part of a type that can be equal to a receiver of a given type. -/
def matchingPart (K : Flow) (receiver : Expr) (receiverType t : Ty) : Ty :=
  match literalOf? receiver receiverType with
  | some value => K.table.equalPart t value
  | none =>
    match receiverType with
    | .named .instanceOf name _ => (K.table.splitByClass t name).1
    | _ => t

/-- A test of an argument for equality with a receiver.  Being different from one value rules
nothing out. -/
def followEquality (K : Flow) (receiver arg : Expr) (env : Env) : Except FlowError Branches := do
  let receiverType ← K.typing.typeOf receiver.id
  let t ← K.typing.typeOf arg.id
  return narrowBoth env arg (K.matchingPart receiver receiverType t) t

/-- A test of a class object for an ancestor. -/
def followAncestorTest (K : Flow) (receiver arg : Expr) (env : Env) :
    Except FlowError Branches := do
  let ancestor ← K.typing.typeOf arg.id
  match ancestor with
  | .singleton _ =>
    let t ← K.typing.typeOf receiver.id
    return narrowBoth env receiver (K.table.belowPart t ancestor) t
  | _ => return .answering env env []

/-- A predicate that takes an argument; without one it is of no use. -/
def withArg (question : Question) (args : List Expr) (env : Env)
    (use : Expr → Except FlowError Branches) : Except FlowError Branches :=
  match args with
  | [] => .ok (.alike env (.logic question))
  | arg :: _ => use arg

/-- A call of a predicate other than negation. -/
def followPredicate (K : Flow) (question : Question) (receiver : Expr) (args : List Expr)
    (env : Env) : Except FlowError Branches :=
  match question with
  | .receiverIsNil => do
    let sides := K.table.splitByNil (← K.typing.typeOf receiver.id)
    return narrowBoth env receiver sides.1 sides.2
  | .receiverIsNotNil => do
    let sides := K.table.splitByNil (← K.typing.typeOf receiver.id)
    return narrowBoth env receiver sides.2 sides.1
  | .receiverIsArg => withArg question args env fun arg => K.followClassTest receiver arg env
  | .argIsReceiver => withArg question args env fun arg => K.followClassTest arg receiver env
  | .argEqualsReceiver => withArg question args env fun arg => K.followEquality receiver arg env
  | .argIsAncestor => withArg question args env fun arg => K.followAncestorTest receiver arg env
  | .base => .ok (K.splitOnly (.logic question) env)
  | .not => .ok (.alike env (.logic question))

/-- A call that is no predicate: a pure one is split by truth. -/
def followCall (K : Flow) (id : Nat) (t : Ty) (env : Env) : Branches :=
  match env.lookup (.call id) with
  | some pure => K.branchOn (.call id) pure env env []
  | none => .alike env t

/-! ## Assignments -/

/-- What the targets of a multiple assignment get from a true value, if that is known. -/
def elementTypes? (K : Flow) (t : Ty) (count : Nat) : Option (List Ty) :=
  match K.table.unfoldHead t with
  | .tuple items => some ((List.range count).map fun i =>
      match items[i]? with
      | some item => (K.table.splitByTruth item).1
      | none => .nil)
  | .named .instanceOf name [item] =>
    if name = .array then some (List.replicate count item.optional) else none
  | _ => none

/-- Refines the targets of a multiple assignment. -/
def assignTargets (env : Env) (targets : List String) (types : List Ty) : Env :=
  (targets.zip types).foldl (fun env p => env.refine (.var p.1) p.2) env

/-- A multiple assignment after its value: where the value is true the targets get its elements,
where it is not they are `nil`. -/
def followTargets (K : Flow) (targets : List String) (t : Ty) (inner : Branches) : Branches :=
  let sides := K.table.splitByTruth t
  { truthyEnv :=
      match K.elementTypes? sides.1 targets.length with
      | some types => assignTargets inner.truthyEnv targets types
      | none => inner.truthyEnv
    falsyEnv := assignTargets inner.falsyEnv targets (targets.map fun _ => .nil)
    changed := Keyed.unionKeys inner.changed (targets.map .var)
    truthyType := sides.1
    falsyType := sides.2 }

/-! ## Evaluation -/

mutual

/-- Evaluates an expression as a condition. -/
def follow (K : Flow) : Expr → Env → Except FlowError Branches
  | .var id name, env => do
    let t ← K.typing.typeOf id
    return K.branchOn (.var name) t env env []
  | .assign id name value, env => do
    let inner ← follow K value env
    let t ← K.typing.typeOf id
    return K.branchOn (.var name) t inner.truthyEnv inner.falsyEnv inner.changed
  | .multiAssign id targets value, env => do
    let inner ← follow K value env
    let t ← K.typing.typeOf id
    return K.followTargets targets t inner
  | .call id none _ _, env => do
    match ← K.typing.typeOf id with
    | .logic question => return .alike env (.logic question)
    | t => return K.followCall id t env
  | .call id (some receiver) _ args, env => do
    match ← K.typing.typeOf id with
    | .logic .not => do
      let inner ← follow K receiver env
      return inner.negate
    | .logic question => K.followPredicate question receiver args env
    | t => return K.followCall id t env
  | .and _ left right, env => do
    let l ← follow K left env
    let r ← follow K right l.truthyEnv
    return l.conj r
  | .or _ left right, env => do
    let l ← follow K left env
    let r ← follow K right l.falsyEnv
    return l.disj r
  | .seq id body, env => followLast K id body env
  | .literal id _, env => do
    let t ← K.typing.typeOf id
    return K.splitOnly t env
  | .const id _, env => do
    let t ← K.typing.typeOf id
    return .alike env t
  | .case id _ _ _, env => do
    let t ← K.typing.typeOf id
    return .alike env t
  | .other id, env => do
    let t ← K.typing.typeOf id
    return .alike env t
termination_by structural n => n

/-- Evaluates the last expression of a sequence; an empty sequence is `nil` unless a type is
recorded for it. -/
def followLast (K : Flow) (id : Nat) : List Expr → Env → Except FlowError Branches
  | [], env => .ok (.alike env ((K.typing.typeOf id).toOption.getD .nil))
  | [n], env => follow K n env
  | _ :: n :: ns, env => followLast K id (n :: ns) env
termination_by structural ns => ns

end

/-! ## Case expressions -/

/-- The environments of the clauses of a case expression, in order, and of its else branch. -/
structure CaseBranches where
  clauses : List Env
  elseEnv : Env

/-- The part of a type that a pattern matches, and what it leaves. -/
def matchPattern (K : Flow) (t : Ty) : Expr → Ty × Ty
  | .const _ name => K.table.splitByClass t name
  | .literal _ value => (K.table.equalPart t value, t)
  | _ => (t, t)

/-- The parts that the patterns of a clause match one after the other, and what they leave. -/
def matchPatterns (K : Flow) : List Expr → Ty → List Ty × Ty
  | [], t => ([], t)
  | p :: ps, t =>
    let sides := K.matchPattern t p
    let rest := matchPatterns K ps sides.2
    (sides.1 :: rest.1, rest.2)

/-- The environments of clauses, each given what the earlier ones leave. -/
def followClauses (K : Flow) (scrutinee : Expr) (env : Env) :
    List (Clause Expr) → Ty → List Env × Ty
  | [], t => ([], t)
  | w :: ws, t =>
    let matched := K.matchPatterns w.patterns t
    let rest := followClauses K scrutinee env ws matched.2
    ((narrow scrutinee (Ty.unionOf matched.1) env).1 :: rest.1, rest.2)

/-- Splits an environment across the clauses of a case expression. -/
def followCase (K : Flow) (env : Env) : Expr → Except FlowError CaseBranches
  | .case _ none clauses _ => .ok ⟨clauses.map fun _ => env, env⟩
  | .case _ (some scrutinee) clauses _ => do
    let t ← K.typing.typeOf scrutinee.id
    let result := K.followClauses scrutinee env clauses t
    return ⟨result.1, (narrow scrutinee result.2 env).1⟩
  | _ => .ok ⟨[], env⟩

end Flow
end TypeShape
