/-!
# Lists of entries in key order

Tables, records and keyword parameters are finite maps whose entries are always listed by
ascending key.  They are kept as lists of pairs; these are the operations that keep the order.

Main definitions: `get?`, `insert`, `erase`, `ofList`, `addKey` for plain sets of keys.
-/

namespace TypeShape
namespace Keyed

variable {κ ν : Type}

/-- The value stored under a key. -/
def get? [DecidableEq κ] (key : κ) : List (κ × ν) → Option ν
  | [] => none
  | (k, v) :: rest => if k = key then some v else get? key rest

/-- Some entry has the key. -/
def hasKey [DecidableEq κ] (key : κ) (entries : List (κ × ν)) : Bool :=
  (get? key entries).isSome

/-- Stores a value under a key, in key order, replacing the value the key had. -/
def insert [Ord κ] (key : κ) (value : ν) : List (κ × ν) → List (κ × ν)
  | [] => [(key, value)]
  | (k, v) :: rest =>
    match compare key k with
    | .lt => (key, value) :: (k, v) :: rest
    | .eq => (key, value) :: rest
    | .gt => (k, v) :: insert key value rest

/-- Removes the entry of a key. -/
def erase [DecidableEq κ] (key : κ) (entries : List (κ × ν)) : List (κ × ν) :=
  entries.filter fun e => e.1 ≠ key

/-- The entries of a list in key order; of two entries with one key the later counts. -/
def ofList [Ord κ] (entries : List (κ × ν)) : List (κ × ν) :=
  entries.foldl (fun acc e => insert e.1 e.2 acc) []

/-- Adds a key to a list of distinct keys in ascending order. -/
def addKey [Ord κ] (key : κ) : List κ → List κ
  | [] => [key]
  | k :: rest =>
    match compare key k with
    | .lt => key :: k :: rest
    | .eq => k :: rest
    | .gt => k :: addKey key rest

/-- The distinct keys of a list in ascending order. -/
def sortKeys [Ord κ] (keys : List κ) : List κ :=
  keys.foldl (fun acc k => addKey k acc) []

/-- Two sets of keys together. -/
def unionKeys [Ord κ] (a b : List κ) : List κ :=
  b.foldl (fun acc k => addKey k acc) a

end Keyed
end TypeShape
