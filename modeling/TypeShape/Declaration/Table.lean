import TypeShape.Declaration.Basic
import TypeShape.Subst

/-!
# The declaration table

All declarations by name.  A name is either a class, module or interface, or an alias, never
both.  A class or module that is declared again is reopened: it gains includes and members, and a
superclass if it had none.

Main definitions: `Table`, `Table.declareModule`, `Table.declareAlias`, `Table.paramsOf`,
`Table.expansion`, `Table.untypedInstance`.
-/

namespace TypeShape

/-- The declarations of a program, in the order of their names. -/
structure Table where
  modules : List (TypeName × ModuleDecl) := []
  aliases : List (TypeName × AliasDecl) := []
deriving Inhabited

namespace Table

/-- No declarations. -/
def empty : Table :=
  {}

/-- The class, module or interface of a name. -/
def module? (T : Table) (name : TypeName) : Option ModuleDecl :=
  Keyed.get? name T.modules

/-- The alias of a name. -/
def alias? (T : Table) (name : TypeName) : Option AliasDecl :=
  Keyed.get? name T.aliases

/-- The class, module or interface of a name, which must be declared. -/
def fetch (T : Table) (name : TypeName) : Except DeclError ModuleDecl :=
  match T.module? name with
  | some decl => .ok decl
  | none => .error (.undeclared name)

/-! ## Declaring -/

/-- Adds what a second declaration of one name brings. -/
def reopen (existing added : ModuleDecl) : ModuleDecl :=
  { existing with
    superclass := existing.superclass.or added.superclass
    includes := existing.includes ++ added.includes
    members := existing.members ++ added.members }

/-- Declares a class, module or interface, or reopens it. -/
def declareModule (T : Table) (decl : ModuleDecl) : Except DeclError Table :=
  match T.alias? decl.name with
  | some _ => .error (.conflict decl.name .ofAlias (.ofModule decl.kind))
  | none =>
    match T.module? decl.name with
    | none => .ok { T with modules := Keyed.insert decl.name decl T.modules }
    | some existing =>
      if existing.kind = decl.kind then
        .ok { T with modules := Keyed.insert decl.name (reopen existing decl) T.modules }
      else .error (.conflict decl.name (.ofModule existing.kind) (.ofModule decl.kind))

/-- Declares an alias; a second declaration of one alias replaces the first. -/
def declareAlias (T : Table) (decl : AliasDecl) : Except DeclError Table :=
  match T.module? decl.name with
  | some existing => .error (.conflict decl.name (.ofModule existing.kind) .ofAlias)
  | none => .ok { T with aliases := Keyed.insert decl.name decl T.aliases }

/-- Adds a declaration. -/
def declare (T : Table) : Decl → Except DeclError Table
  | .ofModule decl => T.declareModule decl
  | .ofAlias decl => T.declareAlias decl

/-! ## Type parameters and aliases -/

/-- The type parameters of a class, module, interface or alias. -/
def paramsOf (T : Table) (name : TypeName) : Except DeclError (List TypeParam) :=
  match T.module? name with
  | some decl => .ok decl.typeParams
  | none =>
    match T.alias? name with
    | some decl => .ok decl.typeParams
    | none => .error (.undeclared name)

/-- The arguments of an application: missing ones are `untyped`. -/
def argsOrUntyped (params : List TypeParam) (args : List Ty) : List Ty :=
  if args.isEmpty then params.map fun _ => .untyped else args

/-- Binds type parameters to arguments.  Arguments of the wrong number are ignored. -/
def bindParams (params : List TypeParam) (args : List Ty) : Subst :=
  match Subst.ofLists (params.map (·.name)) (argsOrUntyped params args) {} with
  | .ok s => s
  | .error _ => .empty

/-- The body of an alias with its parameters replaced by arguments. -/
def expansion (T : Table) (name : TypeName) (args : List Ty) : Except DeclError Ty :=
  match T.alias? name with
  | some decl => .ok ((bindParams decl.typeParams args).apply decl.body)
  | none => .error (.undeclared name)

/-- One step of unfolding: the expansion of a declared alias, and nothing for other types. -/
def expansion? (T : Table) : Ty → Option Ty
  | .named .aliasOf name args => (T.expansion name args).toOption
  | _ => none

/-- The name is declared as a module. -/
def isModule (T : Table) (name : TypeName) : Bool :=
  match T.module? name with
  | some decl => decl.kind == .moduleDecl
  | none => false

/-- The instance type of a name with every type parameter `untyped`. -/
def untypedInstance (T : Table) (name : TypeName) : Ty :=
  let params := (T.paramsOf name).toOption.getD []
  .named (if name.isInterface then .interfaceOf else .instanceOf) name
    (params.map fun _ => .untyped)

end Table
end TypeShape
