import TypeShape.Declaration.Table
import TypeShape.Grammar.Parser
import TypeShape.Toml.Reader

/-!
# Declaration files

Declarations are written as TOML documents with arrays of tables for classes, modules,
interfaces and aliases; the signatures in them are type expressions.  A table with a key that is
not known, without one that is required or with a value of the wrong form makes the whole
document malformed.  A table may also be given as the array of its values in order.

A file is added declaration by declaration: classes, modules, interfaces, then aliases.  What was
added before a faulty declaration stays.

Main definitions: `Manifest.read`, `Table.addFile`, `Table.extend`, `Table.ofSource`.
-/

namespace TypeShape

/-- A member before its signatures are read. -/
structure MemberSource where
  name : String
  kind : MemberKind
  visibility : Visibility
  overloads : List String

/-- A class, module or interface before its signatures are read. -/
structure ModuleSource where
  name : String
  params : List String
  superclass : Option String
  includes : List String
  members : List MemberSource

/-- An alias before its signature is read. -/
structure AliasSource where
  name : String
  params : List String
  body : String

/-- The declarations of a file before their signatures are read. -/
structure Manifest where
  classes : List ModuleSource
  modules : List ModuleSource
  interfaces : List ModuleSource
  aliases : List AliasSource

namespace Manifest

open Toml (Value)

/-! ## Reading -/

/-- A text. -/
def text? : Value → Option String
  | .string text => some text
  | _ => none

/-- The items of an array or of repeated tables. -/
def items? : Value → Option (List Value)
  | .array items => some items
  | .tables items => some (items.map (.table .header))
  | _ => none

/-- A list of texts. -/
def texts? (v : Value) : Option (List String) := do
  (← items? v).mapM text?

/-- The values of the given fields: by key, where no other key may stand, or by position. -/
def fields? (names : List String) (v : Value) : Option (List (Option Value)) :=
  match v with
  | .table _ entries =>
    if entries.all fun e => names.contains e.1 then some (names.map fun n => Keyed.get? n entries)
    else none
  | v => (items? v).map fun items => (List.range names.length).map fun i => items[i]?

/-- A field that must be there. -/
def required {α : Type} (decode : Value → Option α) (v : Option Value) : Option α :=
  v.bind decode

/-- A field that has a value of its own when it is missing. -/
def withDefault {α : Type} (default : α) (decode : Value → Option α) : Option Value → Option α
  | none => some default
  | some v => decode v

/-- A value without content. -/
def isVacant : Value → Bool
  | .array items => items.isEmpty
  | .table _ entries => entries.isEmpty
  | .tables items => items.isEmpty
  | _ => false

/-- A choice: its name, or a table with the name as its only key and nothing under it. -/
def choice? : Value → Option String
  | .string name => some name
  | .table _ [(name, v)] => if isVacant v then some name else none
  | _ => none

/-- The kind of a member. -/
def memberKind? (v : Value) : Option MemberKind := do
  let name ← choice? v
  [MemberKind.instanceMethod, .singletonMethod, .moduleFunction].find? (·.word == name)

/-- The visibility of a member. -/
def visibility? (v : Value) : Option Visibility := do
  let name ← choice? v
  [Visibility.pub, .priv].find? (·.word == name)

/-- A member. -/
def member? (v : Value) : Option MemberSource := do
  match ← fields? ["name", "kind", "visibility", "types"] v with
  | [name, kind, visibility, types] =>
    return { name := ← required text? name
             kind := ← withDefault .instanceMethod memberKind? kind
             visibility := ← withDefault .pub visibility? visibility
             overloads := ← required texts? types }
  | _ => none

/-- The members of a declaration. -/
def members? (v : Value) : Option (List MemberSource) := do
  (← items? v).mapM member?

/-- A class, module or interface. -/
def module? (v : Value) : Option ModuleSource := do
  match ← fields? ["name", "params", "super", "include", "method"] v with
  | [name, params, superclass, includes, members] =>
    return { name := ← required text? name
             params := ← withDefault [] texts? params
             superclass := ← withDefault none (fun v => (text? v).map some) superclass
             includes := ← withDefault [] texts? includes
             members := ← withDefault [] members? members }
  | _ => none

/-- Classes, modules or interfaces. -/
def modules? (v : Value) : Option (List ModuleSource) := do
  (← items? v).mapM module?

/-- An alias. -/
def alias? (v : Value) : Option AliasSource := do
  match ← fields? ["name", "params", "type"] v with
  | [name, params, body] =>
    return { name := ← required text? name
             params := ← withDefault [] texts? params
             body := ← required text? body }
  | _ => none

/-- Aliases. -/
def aliases? (v : Value) : Option (List AliasSource) := do
  (← items? v).mapM alias?

/-- The declarations that a document holds. -/
def read (source : String) : Option Manifest := do
  let entries ← Toml.read source
  match ← fields? ["class", "module", "interface", "alias"] (.table .header entries) with
  | [classes, modules, interfaces, aliases] =>
    return { classes := ← withDefault [] modules? classes
             modules := ← withDefault [] modules? modules
             interfaces := ← withDefault [] modules? interfaces
             aliases := ← withDefault [] aliases? aliases }
  | _ => none

/-! ## Signatures -/

/-- Names the place of a signature that cannot be read. -/
def inContext {α : Type} (context : String) : Except SyntaxError α → Except DeclError α
  | .ok a => .ok a
  | .error e => .error (.badSignature context e)

/-- Reads the type parameters of a declaration. -/
def typeParams (name : TypeName) (params : List String) : Except DeclError (List TypeParam) :=
  params.mapM fun p => inContext ("type parameters of " ++ name.text) (TypeParam.parse p)

/-- Reads the superclass or an included module of a declaration. -/
def ancestor (name : TypeName) (source : String) : Except DeclError Ty :=
  inContext ("ancestors of " ++ name.text) (Ty.parse source)

/-- Reads the signatures of a member. -/
def member (name : TypeName) (m : MemberSource) : Except DeclError Member := do
  let overloads ← m.overloads.mapM fun source =>
    inContext (name.text ++ "#" ++ m.name) (Overload.parse source)
  return { name := m.name, kind := m.kind, visibility := m.visibility, overloads }

/-- Reads the signatures of a class, module or interface. -/
def moduleDecl (kind : DeclKind) (m : ModuleSource) : Except DeclError ModuleDecl := do
  let name := TypeName.ofString m.name
  let superclass ← m.superclass.mapM (ancestor name)
  let includes ← m.includes.mapM (ancestor name)
  let members ← m.members.mapM (member name)
  let params ← typeParams name m.params
  return { name, kind, typeParams := params, superclass, includes, members }

/-- Reads the signature of an alias. -/
def aliasDecl (m : AliasSource) : Except DeclError AliasDecl := do
  let name := TypeName.ofString m.name
  let params ← typeParams name m.params
  let body ← inContext ("alias " ++ name.text) (Ty.parse m.body)
  return { name, typeParams := params, body }

/-- The declarations of a file in the order in which they are added, each read when its turn
comes. -/
def decls (f : Manifest) : List (Except DeclError Decl) :=
  f.classes.map (fun r => (moduleDecl .classDecl r).map .ofModule) ++
    f.modules.map (fun r => (moduleDecl .moduleDecl r).map .ofModule) ++
    f.interfaces.map (fun r => (moduleDecl .interfaceDecl r).map .ofModule) ++
    f.aliases.map (fun r => (aliasDecl r).map .ofAlias)

end Manifest

namespace Table

/-- Adds declarations up to the first faulty one; what was added before it stays. -/
def addAll (T : Table) : List (Except DeclError Decl) → Table × Except DeclError Unit
  | [] => (T, .ok ())
  | .error e :: _ => (T, .error e)
  | .ok decl :: rest =>
    match T.declare decl with
    | .error e => (T, .error e)
    | .ok T => T.addAll rest

/-- Adds what a reader makes of a file: its declarations, or nothing if it is malformed. -/
def addFile (T : Table) : Option Manifest → Table × Except DeclError Unit
  | none => (T, .error .malformed)
  | some file => T.addAll file.decls

/-- Adds the declarations of a file. -/
def extend (T : Table) (source : String) : Table × Except DeclError Unit :=
  T.addFile (Manifest.read source)

/-- The table of one file. -/
def ofSource (source : String) : Except DeclError Table :=
  match Table.empty.extend source with
  | (T, .ok ()) => .ok T
  | (_, .error e) => .error e

/-- The table of a file that may be missing. -/
def ofFile : Option String → Except DeclError Table
  | some source => ofSource source
  | none => .error .unreadable

end Table
end TypeShape
