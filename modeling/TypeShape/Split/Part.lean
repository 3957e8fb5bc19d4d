import TypeShape.Declaration.Unfold
import TypeShape.Subtyping

/-!
# Parts of types

A test for equality with a value selects the part of a type that can equal it, and a test of a
class object against an ancestor the class objects below it.  Neither rules anything out where it
fails.

Main definitions: `Table.equalPart`, `Table.belowPart`, `Table.unfoldHead`, `Table.headDepth`.
-/

namespace TypeShape
namespace Table

/-! ## Values -/

mutual

/-- The part of a type that can equal a literal; aliases are treated as `onAlias` says. -/
def equalPartWith (T : Table) (value : Literal) (onAlias : Ty → Ty) : Ty → Ty
  | .union ms => Ty.unionOf (equalPartMembers T value onAlias ms)
  | .named .aliasOf name args => onAlias (.named .aliasOf name args)
  | .untyped => .literal value
  | .top => .literal value
  | t => if T.isSubtype (.literal value) t then .literal value else .bot
termination_by structural t => t

/-- The parts of the members of a union that can equal a literal. -/
def equalPartMembers (T : Table) (value : Literal) (onAlias : Ty → Ty) : List Ty → List Ty
  | [] => []
  | t :: ts => equalPartWith T value onAlias t :: equalPartMembers T value onAlias ts
termination_by structural ts => ts

end

/-- The part of a type that can equal a literal, through a bounded number of nested aliases. -/
def equalPartWithin (T : Table) (value : Literal) : Nat → Ty → Ty
  | 0 => equalPartWith T value fun _ => .bot
  | depth + 1 => equalPartWith T value fun t =>
      match T.expansion? t with
      | some expanded => equalPartWithin T value depth expanded
      | none => .bot

/-- The part of a type that can equal a literal. -/
def equalPart (T : Table) (t : Ty) (value : Literal) : Ty :=
  T.equalPartWithin value (T.openingDepth t) t

/-! ## Ancestors -/

/-- Unfolds an alias a bounded number of times. -/
def unfoldTimes (T : Table) : Nat → Ty → Ty
  | 0, t => t
  | n + 1, t =>
    match T.expansion? t with
    | some expanded => unfoldTimes T n expanded
    | none => t

/-- The form of a type behind its aliases. -/
def unfoldHead (T : Table) (t : Ty) : Ty :=
  T.unfoldTimes 32 t

/-- The members of a type that can be below an ancestor, to a bounded depth. -/
def belowPartWithin (T : Table) (ancestor : Ty) : Nat → Ty → Ty
  | 0, _ => .bot
  | depth + 1, t =>
    match T.unfoldHead t with
    | .union ms => Ty.unionOf (ms.map (belowPartWithin T ancestor depth))
    | member =>
      if T.isSubtype member ancestor then member
      else if T.isSubtype ancestor member then ancestor
      else .bot

/-- Going from heads to the members of their unions ends within a number of nested unions. -/
def headsWithin (T : Table) : Nat → Ty → Bool
  | 0, _ => false
  | depth + 1, t =>
    match T.unfoldHead t with
    | .union ms => ms.all (headsWithin T depth)
    | _ => true

/-- The search for a number of nested unions within which going from head to head ends. -/
def headSearch (T : Table) (t : Ty) : Deepening Nat :=
  ⟨fun depth => if T.headsWithin depth t then some depth else none⟩

/-- A number of nested unions within which going from head to head ends, if it ends at all. -/
def headDepth (T : Table) (t : Ty) : Nat :=
  ((T.headSearch t).answer (T.unfoldDepth t)).getD 0

/-- The members of a type that can be below an ancestor; a broader member narrows to it. -/
def belowPart (T : Table) (t ancestor : Ty) : Ty :=
  T.belowPartWithin ancestor (T.headDepth t) t

end Table
end TypeShape
