import TypeShape.Declaration.Methods

/-!
# Predicates of the base library

Some methods of the base library answer a question about their receiver or argument.  Their
result is replaced by a type that says which question, so that a condition can narrow what it
asks about.

Main definitions: `Predicate.table`, `DeclaredOverload.question?`, `DeclaredOverload.signature`.
-/

namespace TypeShape

/-- A method that answers a question wherever it is declared in one of some types. -/
structure Predicate where
  method : String
  declaredIn : List TypeName
  instanceOnly : Bool
  question : Question

namespace Predicate

/-- The types that give every object its methods. -/
def anyObject : List TypeName :=
  [.object, .kernel]

/-- The types that declare tests for `nil`. -/
def nilAware : List TypeName :=
  [.object, .nilClass, .kernel]

/-- The types that declare negation. -/
def negatable : List TypeName :=
  [.basicObject, .trueClass, .falseClass, .nilClass]

/-- The types whose case equality compares with a value. -/
def comparable : List TypeName :=
  [.object, .kernel, .string, .integer, .symbol, .trueClass, .falseClass, .nilClass]

/-- The predicates of the base library; the first that fits counts. -/
def table : List Predicate :=
  [⟨"is_a?", anyObject, true, .receiverIsArg⟩,
   ⟨"kind_of?", anyObject, true, .receiverIsArg⟩,
   ⟨"instance_of?", anyObject, true, .receiverIsArg⟩,
   ⟨"nil?", nilAware, true, .receiverIsNil⟩,
   ⟨"present?", nilAware, true, .receiverIsNotNil⟩,
   ⟨"!", negatable, false, .not⟩,
   ⟨"===", [.moduleClass], false, .argIsReceiver⟩,
   ⟨"===", comparable, false, .argEqualsReceiver⟩,
   ⟨"<", [.moduleClass], false, .argIsAncestor⟩,
   ⟨"<=", [.moduleClass], false, .argIsAncestor⟩]

/-- The predicate describes a method of the given name, declaration and kind. -/
def fits (p : Predicate) (method : String) (definedIn : TypeName) (kind : MemberKind) : Bool :=
  p.method == method && p.declaredIn.contains definedIn && (!p.instanceOnly || kind.onInstance)

/-- The question that a declared method answers, if any. -/
def question? (method : String) (definedIn : TypeName) (kind : MemberKind) : Option Question :=
  (table.find? fun p => p.fits method definedIn kind).map (·.question)

end Predicate

namespace DeclaredOverload

/-- The full name of the method that an overload belongs to.  A constructor derived from an
initializer is a singleton method, a module function an instance method. -/
def methodName (d : DeclaredOverload) (name : String) : MethodName where
  side :=
    if name = "new" ∧ d.member = "initialize" then .ofSingleton
    else if d.kind = .singletonMethod then .ofSingleton
    else .ofInstances
  owner := d.implementedIn.getD d.definedIn
  name := name

/-- The overload as it stands in a shape: with its origin, and with the result of a predicate. -/
def signature (d : DeclaredOverload) (name : String) : Overload :=
  let o := { d.overload with origins := [⟨d.methodName name, d.definedIn⟩] }
  match Predicate.question? name d.definedIn d.kind with
  | some question => o.withResult (.logic question)
  | none => o

end DeclaredOverload
end TypeShape
