import TypeShape.Name
import TypeShape.Text.Quoted
import TypeShape.Text.Word

/-!
# Literals

Integers, texts, symbols and booleans that stand for themselves in a type, and that key the
fields of a record.

Main definitions: `Literal`, its order, `Literal.className` and `Literal.render`.
-/

namespace TypeShape

/-- A value that is its own type. -/
inductive Literal where
  | integer (value : Int)
  | string (text : String)
  | symbol (name : String)
  | boolean (value : Bool)
deriving DecidableEq, Inhabited

namespace Literal

/-- The place of the sort of a literal: integers, then texts, symbols and booleans. -/
def rank : Literal → Nat
  | integer _ => 0
  | string _ => 1
  | symbol _ => 2
  | boolean _ => 3

/-- Literals of one sort are compared by value, others by the place of their sort. -/
instance : Ord Literal where
  compare a b :=
    match a, b with
    | integer x, integer y => compare x y
    | string x, string y => compare x y
    | symbol x, symbol y => compare x y
    | boolean x, boolean y => compare x y
    | a, b => compare a.rank b.rank

/-- The class whose instance the literal is. -/
def className : Literal → TypeName
  | integer _ => .integer
  | string _ => .string
  | symbol _ => .symbol
  | boolean true => .trueClass
  | boolean false => .falseClass

/-- The written form.  A symbol is quoted unless it is one word. -/
def render : Literal → String
  | integer value => toString value
  | string text => Text.quote text
  | symbol name => if Text.isWord name then ":" ++ name else ":" ++ Text.quote name
  | boolean true => "true"
  | boolean false => "false"

end Literal
end TypeShape
