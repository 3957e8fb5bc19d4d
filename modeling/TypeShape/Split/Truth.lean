import TypeShape.Declaration.Table

/-!
# Splitting types by truth

A condition splits the type of a value into the part that can be true and the part that can be
`nil` or `false`; a test for `nil` splits it into the part that can be `nil` and the rest.  Unions
are split member by member, aliases through their expansion, and booleans through their two
literals.

Main definitions: `Table.splitWithin`, `Table.splitByTruth`, `Table.splitByNil`.
-/

namespace TypeShape
namespace Table

/-- How many nested aliases a split looks through. -/
def splitDepth : Nat :=
  64

/-- The side of a type in a split. -/
inductive Placement where
  | left
  | right
  | both
deriving DecidableEq, Inhabited

/-- Types that may hold any value at run time. -/
def isUndecided : Ty → Bool
  | .untyped => true
  | .top => true
  | .void => true
  | .var _ => true
  | .inter _ => true
  | _ => false

/-- The types that can only be `nil` or `false` go to the right. -/
def truthPlacement (t : Ty) : Placement :=
  match t with
  | .nil => .right
  | .literal (.boolean false) => .right
  | .named .instanceOf name _ => if name = .nilClass ∨ name = .falseClass then .right else .left
  | t => if isUndecided t then .both else .left

/-- The types that can only be `nil` go to the right. -/
def nilPlacement (t : Ty) : Placement :=
  match t with
  | .nil => .right
  | .named .instanceOf name _ => if name = .nilClass then .right else .left
  | t => if isUndecided t then .both else .left

/-- Puts a type where its placement says. -/
def place (placement : Ty → Placement) (t : Ty) : Ty × Ty :=
  match placement t with
  | .left => (t, .bot)
  | .right => (.bot, t)
  | .both => (t, t)

/-- Both boolean literals together are the boolean type. -/
def fuseBool : Ty → Ty
  | .union ms => if ms.length = 2 then .bool else .union ms
  | t => t

/-- Splits the boolean type through its literals. -/
def placeBool (placement : Ty → Placement) : Ty × Ty :=
  let t := place placement .trueType
  let f := place placement .falseType
  (fuseBool (Ty.unionOf [t.1, f.1]), fuseBool (Ty.unionOf [t.2, f.2]))

mutual

/-- Splits a type; aliases are split as `onAlias` says. -/
def splitWith (onAlias : Ty → Ty × Ty) (placement : Ty → Placement) : Ty → Ty × Ty
  | .union ms =>
    let sides := splitMembers onAlias placement ms
    (Ty.unionOf sides.1, Ty.unionOf sides.2)
  | .named .aliasOf name args => onAlias (.named .aliasOf name args)
  | .bool => placeBool placement
  | .logic _ => placeBool placement
  | t => place placement t
termination_by structural t => t

/-- Splits the members of a union. -/
def splitMembers (onAlias : Ty → Ty × Ty) (placement : Ty → Placement) :
    List Ty → List Ty × List Ty
  | [] => ([], [])
  | t :: ts =>
    let side := splitWith onAlias placement t
    let sides := splitMembers onAlias placement ts
    (side.1 :: sides.1, side.2 :: sides.2)
termination_by structural ts => ts

end

/-- Splits a type, looking through a bounded number of nested aliases.  An undeclared alias goes
to both sides; beyond the bound an alias is placed as it stands. -/
def splitWithin (T : Table) (placement : Ty → Placement) : Nat → Ty → Ty × Ty
  | 0 => splitWith (place placement) placement
  | depth + 1 => splitWith (fun t =>
      match T.expansion? t with
      | some expanded => splitWithin T placement depth expanded
      | none => (t, t)) placement

/-- The part of a type that can be true, and the part that can be `nil` or `false`. -/
def splitByTruth (T : Table) (t : Ty) : Ty × Ty :=
  T.splitWithin truthPlacement splitDepth t

/-- The part of a type that can be `nil`, and the rest. -/
def splitByNil (T : Table) (t : Ty) : Ty × Ty :=
  (T.splitWithin nilPlacement splitDepth t).swap

end Table
end TypeShape
