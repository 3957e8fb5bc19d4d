import TypeShape.Ty.Free
import TypeShape.Ty.Lattice
import TypeShape.Ty.Printer

/-!
# Overloads

One overload of a method is a callable under type parameters of its own.  It remembers the
declared members it came from; that record takes no part in equality, because two overloads with
one signature are the same overload wherever they were declared.

Main definitions: `TypeParam`, `MethodName`, `Origin`, `Overload`, `Overload.freeVars`,
`Overload.render`.
-/

namespace TypeShape

/-- How a type parameter may vary. -/
inductive Variance where
  | invariant
  | covariant
  | contravariant
deriving DecidableEq, Inhabited

/-- A type parameter with an optional upper bound. -/
structure TypeParam where
  name : String
  bound : Option Ty := none
  variance : Variance := .invariant
  unchecked : Bool := false
deriving Inhabited

namespace TypeParam

instance : BEq TypeParam where
  beq a b := a.name == b.name && a.bound == b.bound && a.variance == b.variance &&
    a.unchecked == b.unchecked

/-- The written form: the name and the bound. -/
def render (p : TypeParam) : String :=
  match p.bound with
  | none => p.name
  | some bound => p.name ++ " < " ++ bound.render

end TypeParam

/-! ## Where an overload comes from -/

/-- The side of a declaration on which a method is called. -/
inductive Side where
  | ofInstances
  | ofSingleton
deriving DecidableEq, Inhabited

/-- The full name of a method: its side, the type that has it, and its own name. -/
structure MethodName where
  side : Side
  owner : TypeName
  name : String
deriving DecidableEq, Inhabited

namespace MethodName

/-- All instance methods come before all singleton methods; then the owner decides, then the
name. -/
instance : Ord MethodName where
  compare a b :=
    match a.side, b.side with
    | .ofInstances, .ofSingleton => .lt
    | .ofSingleton, .ofInstances => .gt
    | _, _ => (compare a.owner b.owner).then (compare a.name b.name)

/-- A hash mark joins an instance method to its type, a point a singleton method. -/
def render (m : MethodName) : String :=
  match m.side with
  | .ofInstances => m.owner.text ++ "#" ++ m.name
  | .ofSingleton => m.owner.text ++ "." ++ m.name

end MethodName

/-- A declared member that an overload came from. -/
structure Origin where
  method : MethodName
  definedIn : TypeName
deriving DecidableEq, Inhabited

/-- Origins are ordered by method, then by the declaration. -/
instance : Ord Origin where
  compare a b := (compare a.method b.method).then (compare a.definedIn b.definedIn)

/-! ## Overloads -/

/-- One overload of a method.  Origins are distinct and in order. -/
structure Overload where
  typeParams : List TypeParam
  callable : Callable Ty
  origins : List Origin := []

namespace Overload

/-- Overloads are equal when their signatures are. -/
instance : BEq Overload where
  beq a b := a.typeParams == b.typeParams && a.callable == b.callable

/-- The parameter list. -/
def params (o : Overload) : Params Ty :=
  o.callable.arrow.params

/-- The result type. -/
def result (o : Overload) : Ty :=
  o.callable.arrow.result

/-- The block, if one is taken. -/
def block (o : Overload) : Option (Block Ty) :=
  o.callable.block

/-- The same overload with another result. -/
def withResult (o : Overload) (result : Ty) : Overload :=
  { o with callable := o.callable.withResult result }

/-- Every occurrence of a placeholder or variable in the signature, bounds included. -/
def occurrences (o : Overload) : List FreeVar :=
  Ty.occurrencesCallable o.callable ++ o.typeParams.flatMap fun p => Ty.occurrencesOption p.bound

/-- The placeholders and variables of an overload, less its own type parameters. -/
def freeVars (o : Overload) : List FreeVar :=
  (Keyed.sortKeys o.occurrences).filter fun x => o.typeParams.all fun p => x ≠ .var p.name

/-- The type parameters in brackets, or nothing. -/
def renderTypeParams : List TypeParam → String
  | [] => ""
  | ps => "[" ++ ", ".intercalate (ps.map TypeParam.render) ++ "] "

/-- The written form: type parameters, parameters, block, result. -/
def render (o : Overload) : String :=
  renderTypeParams o.typeParams ++ Ty.renderCallable o.callable

end Overload
end TypeShape
