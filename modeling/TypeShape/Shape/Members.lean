import TypeShape.Shape.Basic
import TypeShape.Overload.Merge

/-!
# Shapes of unions and intersections

A value of a union has the methods that all members have, with overloads merged across the
members.  A value of an intersection has the methods that some member has.

Main definitions: `Shape.commonOverloads?`, `Shape.ofUnion`, `Shape.ofInter`.
-/

namespace TypeShape
namespace Shape

/-- All origins of some overloads. -/
def allOrigins (overloads : List Overload) : List Origin :=
  Keyed.sortKeys (overloads.flatMap (·.origins))

/-- Two lists of equal overloads also agree on where they come from, one by one or as a whole. -/
def sameOverloads (left right : List Overload) : Bool :=
  left == right &&
    (left.map (·.origins) == right.map (·.origins) || allOrigins left == allOrigins right)

/-- Appends an overload unless an equal one is there. -/
def pushOverload (merged : List Overload) (o : Overload) : List Overload :=
  if merged.any (· == o) then merged else merged ++ [o]

/-- Every merge of an overload on the left with one on the right, the first of equal ones. -/
def crossOverloads (left right : List Overload) : List Overload :=
  (left.flatMap fun a => right.filterMap fun b => a.merge? b).foldl pushOverload []

/-- The overloads that two methods have in common, if any. -/
def commonOverloads? (left right : List Overload) : Option (List Overload) :=
  if sameOverloads left right then some left
  else
    match crossOverloads left right with
    | [] => none
    | merged => some merged

/-- The entries of one method in all of some shapes, if all have it. -/
def entries? (name : String) (shapes : List Shape) : Option (List Entry) :=
  shapes.mapM fun s => s.get? name

/-- One entry for the entries of a method in all members of a union. -/
def commonEntry? : List Entry → Option Entry
  | [] => none
  | e :: es => do
    let overloads ← es.foldlM (fun merged e => commonOverloads? merged e.overloads) e.overloads
    return ⟨overloads, (e :: es).any (·.isPrivate)⟩

/-- The shape of a union from the shapes of its members. -/
def ofUnion (t : Ty) : List Shape → Shape
  | [] => ⟨t, []⟩
  | s :: ss => ⟨t, s.methodNames.filterMap fun name =>
      ((entries? name (s :: ss)).bind commonEntry?).map fun e => (name, e)⟩

/-- Adds a method of a further member of an intersection: a later entry wins, except that a
private one never replaces a public one. -/
def addMethod (methods : List (String × Entry)) (m : String × Entry) : List (String × Entry) :=
  match Keyed.get? m.1 methods with
  | some existing =>
    if !existing.isPrivate && m.2.isPrivate then methods else Keyed.insert m.1 m.2 methods
  | none => Keyed.insert m.1 m.2 methods

/-- The shape of an intersection from the shapes of its members. -/
def ofInter (t : Ty) (shapes : List Shape) : Shape :=
  ⟨t, shapes.foldl (fun methods s => s.methods.foldl addMethod methods) []⟩

end Shape
end TypeShape
