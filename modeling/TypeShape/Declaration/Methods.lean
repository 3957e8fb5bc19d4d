import TypeShape.Declaration.Lineage

/-!
# Method tables of declarations

The methods of the instances of a declaration, of the class or module itself, and of an
interface.  Members of more specific ancestors replace those of less specific ones, and later
members of one declaration replace earlier ones.

Main definitions: `MethodTable`, `Table.instanceMethods`, `Table.singletonMethods`,
`Table.interfaceMethods`.
-/

namespace TypeShape

/-- One declared overload and where it was declared. -/
structure DeclaredOverload where
  overload : Overload
  definedIn : TypeName
  implementedIn : Option TypeName
  kind : MemberKind
  member : String

/-- A method of a declaration. -/
structure DeclaredMethod where
  visibility : Visibility
  defs : List DeclaredOverload

/-- Methods in the order of their names. -/
abbrev MethodTable :=
  List (String × DeclaredMethod)

namespace Table

/-- The overloads of a member as instantiated by its owner. -/
def memberDefs (owner : ModuleDecl) (s : Subst) (m : Member) : List DeclaredOverload :=
  m.overloads.map fun o =>
    { overload := s.applyOverload o
      definedIn := owner.name
      implementedIn := if owner.kind = .classDecl then some owner.name else none
      kind := m.kind
      member := m.name }

/-- Enters the accepted members of an owner, replacing methods of the same name. -/
def enterMembers (methods : MethodTable) (owner : ModuleDecl) (s : Subst)
    (accept : MemberKind → Bool) (privateKind : Option MemberKind) : MethodTable :=
  (owner.members.filter fun m => accept m.kind).foldl (fun methods m =>
    let visibility := if some m.kind = privateKind then .priv else m.visibility
    Keyed.insert m.name ⟨visibility, memberDefs owner s m⟩ methods) methods

/-- The methods of an interface, of any kind and with their own visibility. -/
def interfaceMethods (T : Table) (name : TypeName) : Except DeclError MethodTable := do
  let decl ← T.fetch name
  if decl.kind ≠ .interfaceDecl then .error (.undeclared name)
  else
    let chain ← T.lineage name
    return chain.reverse.foldl (fun methods a =>
      enterMembers methods a.decl a.subst (fun _ => true) none) []

/-- The methods of instances.  Module functions are private here. -/
def instanceMethods (T : Table) (name : TypeName) : Except DeclError MethodTable := do
  let decl ← T.fetch name
  if decl.kind = .interfaceDecl then T.interfaceMethods name
  else
    let chain ← T.lineage name
    return chain.reverse.foldl (fun methods a =>
      enterMembers methods a.decl a.subst MemberKind.onInstance (some .moduleFunction)) []

/-- The declarations from a name up its superclasses, until one repeats or has none.  The first
argument bounds their number. -/
def superclasses (T : Table) : Nat → List TypeName → TypeName → Except DeclError (List ModuleDecl)
  | 0, _, _ => .ok []
  | bound + 1, seen, name =>
    if seen.contains name then .ok []
    else do
      let decl ← T.fetch name
      match decl.superclass with
      | some (.named .instanceOf parent _) => do
        let rest ← superclasses T bound (name :: seen) parent
        return decl :: rest
      | _ => return [decl]

/-- The last instance-side initializer that a declaration has. -/
def initializer? (decl : ModuleDecl) : Option Member :=
  decl.members.reverse.find? fun m => m.name == "initialize" && m.kind.onInstance

/-- The constructor that an initializer gives: its overloads, returning an instance. -/
def constructorOf (a : Ancestor) (m : Member) : DeclaredMethod where
  visibility := .pub
  defs := m.overloads.map fun o =>
    { overload := (a.subst.applyOverload o).withResult (.slot .instanceType)
      definedIn := a.name
      implementedIn := some a.name
      kind := m.kind
      member := m.name }

/-- The constructor from the most specific initializer among the ancestors. -/
def derivedConstructor (T : Table) (name : TypeName) :
    Except DeclError (Option DeclaredMethod) := do
  let chain ← T.lineage name
  return chain.findSome? fun a => (initializer? a.decl).map (constructorOf a)

/-- The class of a class object or module object. -/
def metaclass (kind : DeclKind) : TypeName :=
  if kind = .classDecl then .classClass else .moduleClass

/-- The methods every class or module object has, if their class is declared. -/
def metaMethods (T : Table) (kind : DeclKind) : Except DeclError MethodTable :=
  match T.module? (metaclass kind) with
  | none => .ok []
  | some _ => T.instanceMethods (metaclass kind)

/-- The methods of a class or module itself: those of its metaclass, the derived constructor of
a class, and the singleton-side members of its superclasses and itself. -/
def singletonMethods (T : Table) (name : TypeName) : Except DeclError MethodTable := do
  let decl ← T.fetch name
  if decl.kind = .interfaceDecl then .error (.undeclared name)
  else
    let inherited ← T.metaMethods decl.kind
    let chain ← T.superclasses (T.modules.length + 1) [] name
    let constructor? ← if decl.kind = .classDecl then T.derivedConstructor name else pure none
    let withConstructor :=
      match constructor? with
      | some method => Keyed.insert "new" method inherited
      | none => inherited
    return chain.reverse.foldl (fun methods owner =>
      enterMembers methods owner .empty MemberKind.onSingleton none) withConstructor

end Table
end TypeShape
