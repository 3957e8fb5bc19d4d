import TypeShape.Keyed
import TypeShape.Ty.Lattice
import TypeShape.Ty.Printer

/-!
# Environments

What is known at one point of a program: the types of variables, and of those calls that are known
to be free of side effects.

Main definitions: `EnvKey`, `Env`, `Env.lookup`, `Env.refine`, `Env.join`.
-/

namespace TypeShape

/-- An entry of an environment: a variable, or a call by the node that makes it. -/
inductive EnvKey where
  | var (name : String)
  | call (id : Nat)
deriving DecidableEq, Inhabited

namespace EnvKey

/-- Variables by name, then calls by node. -/
instance : Ord EnvKey where
  compare a b :=
    match a, b with
    | var x, var y => compare x y
    | var _, call _ => .lt
    | call _, var _ => .gt
    | call i, call j => compare i j

/-- The written form of a key. -/
def render : EnvKey → String
  | var name => name
  | call id => "call#" ++ toString id

end EnvKey

/-- The types of variables and of pure calls, in order. -/
structure Env where
  vars : List (String × Ty) := []
  calls : List (Nat × Ty) := []
deriving Inhabited

namespace Env

instance : BEq Env where
  beq a b := a.vars == b.vars && a.calls == b.calls

/-- Nothing is known. -/
def empty : Env :=
  {}

/-- What is known of a variable or call. -/
def lookup (e : Env) : EnvKey → Option Ty
  | .var name => Keyed.get? name e.vars
  | .call id => Keyed.get? id e.calls

/-- Sets what is known of a variable or call. -/
def refine (e : Env) (key : EnvKey) (t : Ty) : Env :=
  match key with
  | .var name => { e with vars := Keyed.insert name t e.vars }
  | .call id => { e with calls := Keyed.insert id t e.calls }

/-- Adds an entry; one that is there already is joined with it. -/
def joinEntry {κ : Type} [DecidableEq κ] [Ord κ] (entries : List (κ × Ty)) (entry : κ × Ty) :
    List (κ × Ty) :=
  match Keyed.get? entry.1 entries with
  | some t => Keyed.insert entry.1 (Ty.unionOf [t, entry.2]) entries
  | none => Keyed.insert entry.1 entry.2 entries

/-- What is known where two paths meet: the union of what both know, and what only one knows. -/
def join (a b : Env) : Env where
  vars := b.vars.foldl joinEntry a.vars
  calls := b.calls.foldl joinEntry a.calls

end Env
end TypeShape
