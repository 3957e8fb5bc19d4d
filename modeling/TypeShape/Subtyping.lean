import TypeShape.Declaration.Lineage

/-!
# Subtyping

Subtyping follows the declared hierarchy: a class is a subtype of its ancestors, type arguments
are compared for equality, and `untyped` goes with anything.  Structural types are related to
each other position by position and to classes through the class that implements them.

For each pair of types one rule applies; the rules are tried in a fixed order without
backtracking.  Every rule that looks at further types spends one unit of a budget, which ends the
unfolding of aliases that refer to themselves.

Main definitions: `Table.isSubtypeWithin`, `Table.isSubtype`.
-/

namespace TypeShape
namespace Table

/-- The budget of a subtype check. -/
def subtypeBudget : Nat :=
  64

/-- One argument agrees with another: they are equal or one is `untyped`. -/
def argsAgree (a b : Ty) : Bool :=
  a == b || a.isUntyped || b.isUntyped

/-- The type is the application of a class, module or interface of the given name. -/
def isApplicationOf (target : TypeName) : Ty → Bool
  | .named .aliasOf _ _ => false
  | .named _ name _ => name == target
  | _ => false

/-- The arguments of the application of a class, module or interface. -/
def applicationArgs? : Ty → Option (List Ty)
  | .named .aliasOf _ _ => none
  | .named _ _ args => some args
  | _ => none

/-- Subtyping between applications of classes and interfaces: the target is an ancestor, and its
arguments, if any are given, agree with those that the ancestor gets. -/
def applicationBelow (T : Table) (name : TypeName) (args : List Ty) (target : TypeName)
    (targetArgs : List Ty) : Bool :=
  match T.ancestorTypes name with
  | .error _ => false
  | .ok ancestorTypes =>
    match ancestorTypes.find? (isApplicationOf target) with
    | none => false
    | some ancestor =>
      targetArgs.isEmpty ||
        let params := (T.paramsOf name).toOption.getD []
        match Subst.ofLists (params.map (·.name)) (argsOrUntyped params args) {} with
        | .error _ => false
        | .ok s =>
          match applicationArgs? (s.apply ancestor) with
          | none => false
          | some found =>
            found.length == targetArgs.length &&
              (found.zip targetArgs).all fun p => argsAgree p.1 p.2

/-- The class object of one name inherits from that of another. -/
def classObjectBelow (T : Table) (name target : TypeName) : Bool :=
  !T.isModule target &&
    match T.ancestorTypes name with
    | .error _ => false
    | .ok ancestorTypes => ancestorTypes.any (isApplicationOf target)

/-- The class whose instances a tuple of the given items stands for. -/
def tupleClass (items : List Ty) : Ty :=
  .named .instanceOf .array [Ty.unionOf items]

/-- The class whose instances a record with the given fields stands for. -/
def recordClass (fields : List (Literal × Ty)) : Ty :=
  .named .instanceOf .hash
    [Ty.unionOf (fields.map fun f => .literal f.1), Ty.unionOf (fields.map (·.2))]

/-- The last rules, by the form of the left type. -/
def formRule (T : Table) (below : Ty → Ty → Bool) (a b : Ty) : Bool :=
  match a with
  | .literal value =>
    match b with
    | .literal _ => false
    | _ => below (.ofClass value.className) b
  | .tuple items =>
    match b with
    | .tuple others =>
      items.length == others.length && (items.zip others).all fun p => below p.1 p.2
    | _ => below (tupleClass items) b
  | .record fields =>
    match b with
    | .record others =>
      fields.length == others.length && fields.all fun f =>
        match Keyed.get? f.1 others with
        | some other => below f.2 other
        | none => false
    | _ => below (recordClass fields) b
  | .proc _ => below (.ofClass .proc) b
  | .named _ name args =>
    match b with
    | .named _ target targetArgs => T.applicationBelow name args target targetArgs
    | _ => false
  | .singleton name =>
    match b with
    | .singleton target => T.classObjectBelow name target
    | _ => below (.ofClass (if T.isModule name then .moduleClass else .classClass)) b
  | _ => false

/-- The class is that of `true` or of `false`. -/
def isBooleanClass (name : TypeName) : Bool :=
  name == .trueClass || name == .falseClass

/-- The type is one of the two boolean literals or an instance of their classes. -/
def isBoolean : Ty → Bool
  | .literal (.boolean _) => true
  | .named .instanceOf name _ => isBooleanClass name
  | _ => false

/-- The type is an instance of the class of `nil`. -/
def isNilInstance : Ty → Bool
  | .named .instanceOf name _ => name == .nilClass
  | _ => false

/-- The rules for predicate results, booleans and `nil`. -/
def baseRule (T : Table) (below : Ty → Ty → Bool) (a b : Ty) : Bool :=
  match a with
  | .logic _ => below .bool b
  | _ =>
    match b with
    | .bool => isBoolean a
    | _ =>
      match a with
      | .bool => below .trueType b && below .falseType b
      | _ =>
        match b with
        | .nil => isNilInstance a
        | _ =>
          match a with
          | .nil => below (.ofClass .nilClass) b
          | _ => formRule T below a b

/-- The rules for unions and intersections: a union on the left, an intersection and a union on
the right, an intersection on the left. -/
def memberRule (T : Table) (below : Ty → Ty → Bool) (a b : Ty) : Bool :=
  match a with
  | .union ms => ms.all fun m => below m b
  | _ =>
    match b with
    | .inter ms => ms.all fun m => below a m
    | .union ms => ms.any fun m => below a m
    | _ =>
      match a with
      | .inter ms => ms.any fun m => below m b
      | _ => baseRule T below a b

/-- The rules for aliases, first on the left, then on the right. -/
def aliasRule (T : Table) (below : Ty → Ty → Bool) (a b : Ty) : Bool :=
  match a with
  | .named .aliasOf _ _ =>
    match T.expansion? a with
    | some expanded => below expanded b
    | none => false
  | _ =>
    match b with
    | .named .aliasOf _ _ =>
      match T.expansion? b with
      | some expanded => below a expanded
      | none => false
    | _ => memberRule T below a b

/-- Every type is below these. -/
def isCeiling : Ty → Bool
  | .untyped => true
  | .top => true
  | .void => true
  | _ => false

/-- These are below every type. -/
def isFloor : Ty → Bool
  | .untyped => true
  | .bot => true
  | _ => false

/-- The rule for two types that differ, where `below` compares further types. -/
def rule (T : Table) (below : Ty → Ty → Bool) (a b : Ty) : Bool :=
  isCeiling b || isFloor a || aliasRule T below a b

/-- Subtyping within a budget. -/
def isSubtypeWithin (T : Table) : Nat → Ty → Ty → Bool
  | 0, a, b => a == b
  | budget + 1, a, b => a == b || rule T (isSubtypeWithin T budget) a b

/-- The first type is a subtype of the second. -/
def isSubtype (T : Table) (a b : Ty) : Bool :=
  T.isSubtypeWithin subtypeBudget a b

end Table
end TypeShape
