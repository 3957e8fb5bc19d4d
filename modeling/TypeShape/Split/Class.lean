import TypeShape.Declaration.Unfold
import TypeShape.Subtyping

/-!
# Splitting types by class

A test against a class splits a type into the part that is an instance and the part that may not
be.  A broader type keeps its second part, since values of other classes may still be in it, and
an alias in which nothing matches is kept as it is.

Main definition: `Table.splitByClass`.
-/

namespace TypeShape
namespace Table

/-- Splits a type that is neither a union nor an alias, `untyped`, top or bottom. -/
def leafByClass (T : Table) (target t : Ty) : Ty × Ty :=
  if T.isSubtype t target then (t, .bot)
  else if T.isSubtype target t then (target, t)
  else (.bot, t)

mutual

/-- Splits a type by a target; aliases are split as `onAlias` says. -/
def byClassWith (T : Table) (target : Ty) (onAlias : Ty → Ty × Ty) : Ty → Ty × Ty
  | .union ms =>
    let sides := byClassMembers T target onAlias ms
    (Ty.unionOf sides.1, Ty.unionOf sides.2)
  | .named .aliasOf name args => onAlias (.named .aliasOf name args)
  | .untyped => (target, .untyped)
  | .top => (target, .top)
  | .bot => (.bot, .bot)
  | t => leafByClass T target t
termination_by structural t => t

/-- Splits the members of a union. -/
def byClassMembers (T : Table) (target : Ty) (onAlias : Ty → Ty × Ty) :
    List Ty → List Ty × List Ty
  | [] => ([], [])
  | t :: ts =>
    let side := byClassWith T target onAlias t
    let sides := byClassMembers T target onAlias ts
    (side.1 :: sides.1, side.2 :: sides.2)
termination_by structural ts => ts

end

/-- An alias in which nothing matched is kept; otherwise its parts are. -/
def keepAlias (t : Ty) (sides : Ty × Ty) : Ty × Ty :=
  if sides.1 == .bot then (.bot, t) else sides

/-- Splits a type by a target, through a bounded number of nested aliases. -/
def byClassWithin (T : Table) (target : Ty) : Nat → Ty → Ty × Ty
  | 0 => byClassWith T target fun t => (.bot, t)
  | depth + 1 => byClassWith T target fun t =>
      match T.expansion? t with
      | some expanded => keepAlias t (byClassWithin T target depth expanded)
      | none => (.bot, t)

/-- The part of a type that is an instance of a name, and the part that may not be. -/
def splitByClass (T : Table) (t : Ty) (name : TypeName) : Ty × Ty :=
  T.byClassWithin (T.untypedInstance name) (T.openingDepth t) t

end Table
end TypeShape
