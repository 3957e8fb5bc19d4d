import TypeShape.Keyed
import TypeShape.Ty.Basic

/-!
# Expressions and their recorded types

The expressions whose conditions are followed.  Every expression has a number under which its
type is recorded.

Main definitions: `Expr`, `Expr.id`, `Typing`, `FlowError`.
-/

namespace TypeShape

/-- A clause of a case expression. -/
structure Clause (α : Type) where
  patterns : List α
  body : Option α

/-- An expression. -/
inductive Expr where
  | var (id : Nat) (name : String)
  | assign (id : Nat) (name : String) (value : Expr)
  | multiAssign (id : Nat) (targets : List String) (value : Expr)
  | literal (id : Nat) (value : Literal)
  | const (id : Nat) (name : TypeName)
  | call (id : Nat) (receiver : Option Expr) (method : String) (args : List Expr)
  | and (id : Nat) (left right : Expr)
  | or (id : Nat) (left right : Expr)
  | case (id : Nat) (scrutinee : Option Expr) (clauses : List (Clause Expr))
      (otherwise : Option Expr)
  | seq (id : Nat) (body : List Expr)
  | other (id : Nat)
deriving Inhabited

/-- The number of an expression. -/
def Expr.id : Expr → Nat
  | var id _ => id
  | assign id _ _ => id
  | multiAssign id _ _ => id
  | literal id _ => id
  | const id _ => id
  | call id _ _ _ => id
  | and id _ _ => id
  | or id _ _ => id
  | case id _ _ _ => id
  | seq id _ => id
  | other id => id

/-- Why a condition could not be followed. -/
inductive FlowError where
  | unrecorded (id : Nat)
deriving DecidableEq, Inhabited

/-- The wording of an error. -/
def FlowError.message : FlowError → String
  | unrecorded id => "no type recorded for node " ++ toString id

/-- The recorded types of expressions, by number. -/
structure Typing where
  types : List (Nat × Ty) := []
deriving Inhabited

namespace Typing

/-- Nothing is recorded. -/
def empty : Typing :=
  {}

/-- Records the type of an expression. -/
def record (s : Typing) (id : Nat) (t : Ty) : Typing :=
  ⟨Keyed.insert id t s.types⟩

/-- The recorded type of an expression. -/
def typeOf (s : Typing) (id : Nat) : Except FlowError Ty :=
  match Keyed.get? id s.types with
  | some t => .ok t
  | none => .error (.unrecorded id)

end Typing
end TypeShape
