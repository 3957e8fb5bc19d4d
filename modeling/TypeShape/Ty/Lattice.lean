import TypeShape.Ty.Basic

/-!
# Unions and intersections

How lists of types are joined and met.  Both constructions flatten one level, keep the first of
equal members in order of occurrence, and collapse when fewer than two members are left.  A union
drops the bottom type and is absorbed by `untyped`; an intersection drops the top type.

Main definitions: `Ty.distinct`, `Ty.unionOf`, `Ty.interOf`, `Ty.optional`.
-/

namespace TypeShape
namespace Ty

/-- Appends a type unless an equal one is there. -/
def pushNew (members : List Ty) (t : Ty) : List Ty :=
  if members.any (· == t) then members else members ++ [t]

/-- The first of equal types, in order of occurrence. -/
def distinct (ts : List Ty) : List Ty :=
  ts.foldl pushNew []

/-- Adds what a type contributes to a union. -/
def addToUnion (members : List Ty) : Ty → List Ty
  | union inner => inner.foldl pushNew members
  | bot => members
  | t => pushNew members t

/-- Adds what a type contributes to an intersection. -/
def addToInter (members : List Ty) : Ty → List Ty
  | inter inner => inner.foldl pushNew members
  | top => members
  | t => pushNew members t

/-- The union with the given members: nothing is the bottom type, one member is that member. -/
def collapseUnion : List Ty → Ty
  | [] => bot
  | [t] => t
  | ms => union ms

/-- The intersection with the given members: nothing is the top type, one member is that
member. -/
def collapseInter : List Ty → Ty
  | [] => top
  | [t] => t
  | ms => inter ms

/-- The union of a list of types in normal form. -/
def unionOf (ts : List Ty) : Ty :=
  let members := ts.foldl addToUnion []
  if members.any isUntyped then untyped else collapseUnion members

/-- The intersection of a list of types in normal form. -/
def interOf (ts : List Ty) : Ty :=
  collapseInter (ts.foldl addToInter [])

/-- A type or `nil`. -/
def optional (t : Ty) : Ty :=
  unionOf [t, nil]

end Ty
end TypeShape
