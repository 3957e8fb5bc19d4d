import TypeShape.Grammar.Token
import TypeShape.Overload

/-!
# Declarations

What a program declares: classes, modules and interfaces with their members, and aliases.

Main definitions: `Member`, `ModuleDecl`, `AliasDecl`, `DeclError`.
-/

namespace TypeShape

/-- The side of a declaration a member lives on.  A module function is on both: a singleton
method and a private instance method. -/
inductive MemberKind where
  | instanceMethod
  | singletonMethod
  | moduleFunction
deriving DecidableEq, Inhabited

namespace MemberKind

/-- The member can be called on instances. -/
def onInstance : MemberKind → Bool
  | .instanceMethod => true
  | .singletonMethod => false
  | .moduleFunction => true

/-- The member can be called on the class or module itself. -/
def onSingleton : MemberKind → Bool
  | .instanceMethod => false
  | .singletonMethod => true
  | .moduleFunction => true

/-- The word for a kind of member. -/
def word : MemberKind → String
  | .instanceMethod => "instance"
  | .singletonMethod => "singleton"
  | .moduleFunction => "singleton_instance"

end MemberKind

/-- Whether a method can be called with an explicit receiver. -/
inductive Visibility where
  | pub
  | priv
deriving DecidableEq, Inhabited

/-- The word for a visibility. -/
def Visibility.word : Visibility → String
  | .pub => "public"
  | .priv => "private"

/-- A declared method with its overloads in order. -/
structure Member where
  name : String
  kind : MemberKind := .instanceMethod
  visibility : Visibility := .pub
  overloads : List Overload

/-- What a declaration with members is. -/
inductive DeclKind where
  | classDecl
  | moduleDecl
  | interfaceDecl
deriving DecidableEq, Inhabited

/-- The word for a kind of declaration. -/
def DeclKind.word : DeclKind → String
  | .classDecl => "class"
  | .moduleDecl => "module"
  | .interfaceDecl => "interface"

/-- A class, module or interface. -/
structure ModuleDecl where
  name : TypeName
  kind : DeclKind
  typeParams : List TypeParam := []
  superclass : Option Ty := none
  includes : List Ty := []
  members : List Member := []

/-- The direct ancestors in the order in which they are visited: included modules from the last
to the first, then the superclass. -/
def ModuleDecl.parents (d : ModuleDecl) : List Ty :=
  d.includes.reverse ++ d.superclass.toList

/-- A name for a type. -/
structure AliasDecl where
  name : TypeName
  typeParams : List TypeParam := []
  body : Ty

/-- A declaration. -/
inductive Decl where
  | ofModule (decl : ModuleDecl)
  | ofAlias (decl : AliasDecl)

/-- What a name was declared as. -/
inductive DeclSort where
  | ofModule (kind : DeclKind)
  | ofAlias
deriving DecidableEq, Inhabited

/-- The word for a sort of declaration. -/
def DeclSort.word : DeclSort → String
  | .ofModule kind => kind.word
  | .ofAlias => "alias"

/-- Why declarations could not be used. -/
inductive DeclError where
  | undeclared (name : TypeName)
  | conflict (name : TypeName) (first second : DeclSort)
  | badSignature (context : String) (error : SyntaxError)
  | malformed
  | unreadable

/-- The wording of an error. -/
def DeclError.message : DeclError → String
  | undeclared name => "unknown type name: " ++ name.text
  | conflict name first second =>
    name.text ++ " is declared both as " ++ first.word ++ " and as " ++ second.word
  | badSignature context error => "invalid signature in " ++ context ++ ": " ++ error.message
  | malformed => "failed to parse declarations"
  | unreadable => "failed to read declarations"

end TypeShape
