import TypeShape.Declaration.Table
import TypeShape.Deepening
import TypeShape.Ty.Weight

/-!
# How far aliases unfold

Unfolding replaces an alias by its expansion, over and over.  It need not end.  When no alias leads
back to itself, it does, and the length of any chain of steps is bounded: inside the body of one
alias a chain meets at most as many further aliases as the body has nodes.

It may also end where an alias does lead back to itself: with `untyped` as an argument a union is
absorbed, and what it would lead to is gone.  So the bound is where the search for a depth starts,
and a depth that is not enough is raised.

Main definitions: `Table.unfoldFactor`, `Table.unfoldDepth`, `Table.opensWithin`,
`Table.openingDepth`.
-/

namespace TypeShape
namespace Table

/-- How much longer chains can get through the bodies of all aliases. -/
def unfoldFactor (T : Table) : Nat :=
  T.aliases.foldl (fun n e => n * (e.2.body.weight + 2)) 1

/-- A bound on the depth to which a type unfolds when no alias leads back to itself. -/
def unfoldDepth (T : Table) (t : Ty) : Nat :=
  (t.weight + 1) * T.unfoldFactor

/-- The weight of all alias bodies together. -/
def aliasWeight (T : Table) : Nat :=
  T.aliases.foldl (fun n e => n + e.2.body.weight) 0

/-! ## Opening unions and aliases -/

mutual

/-- Taking a type apart ends; it goes through unions, and through aliases as `onAlias` says. -/
def opensWith (onAlias : Ty → Bool) : Ty → Bool
  | .union ms => opensMembers onAlias ms
  | .named .aliasOf name args => onAlias (.named .aliasOf name args)
  | _ => true
termination_by structural t => t

/-- Taking the members of a union apart ends. -/
def opensMembers (onAlias : Ty → Bool) : List Ty → Bool
  | [] => true
  | t :: ts => opensWith onAlias t && opensMembers onAlias ts
termination_by structural ts => ts

end

/-- Taking a type apart ends within a number of nested aliases. -/
def opensWithin (T : Table) : Nat → Ty → Bool
  | 0 => opensWith fun t => (T.expansion? t).isNone
  | depth + 1 => opensWith fun t =>
      match T.expansion? t with
      | some expanded => opensWithin T depth expanded
      | none => true

/-- The search for a number of nested aliases within which taking a type apart ends. -/
def openingSearch (T : Table) (t : Ty) : Deepening Nat :=
  ⟨fun depth => if T.opensWithin depth t then some depth else none⟩

/-- A number of nested aliases within which taking a type apart ends, if it ends at all. -/
def openingDepth (T : Table) (t : Ty) : Nat :=
  ((T.openingSearch t).answer (T.unfoldDepth t)).getD 0

end Table
end TypeShape
