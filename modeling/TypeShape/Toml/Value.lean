import TypeShape.Keyed

/-!
# Values of TOML documents

A document is a table of values.  A table is opened by a header, made on the way to one, made by
a dotted key, or written inline; where it comes from decides what may still be added to it.

Numbers, booleans and dates are kept as they are written.

Main definitions: `Toml.Value`, `Toml.addDotted`, `Toml.openTable`, `Toml.openElement`,
`Toml.atPath`.
-/

namespace TypeShape
namespace Toml

/-- How a table came about. -/
inductive TableOrigin where
  | header
  | onPath
  | dotted
  | inline
deriving DecidableEq, Inhabited

/-- A value: a text, another scalar, an array, a table, or the tables of repeated headers. -/
inductive Value where
  | string (text : String)
  | scalar (text : String)
  | array (items : List Value)
  | table (origin : TableOrigin) (entries : List (String × Value))
  | tables (items : List (List (String × Value)))
deriving Inhabited

/-- The entries of a table. -/
abbrev Entries :=
  List (String × Value)

/-- Changes the value of a key, or adds the key. -/
def alter (key : String) (change : Option Value → Option Value) : Entries → Option Entries
  | [] => (change none).map fun v => [(key, v)]
  | (k, v) :: rest =>
    if k = key then (change (some v)).map fun w => (k, w) :: rest
    else (alter key change rest).map fun rest => (k, v) :: rest

/-- Changes the last of some tables. -/
def changeLast (change : Entries → Option Entries) : List Entries → Option (List Entries)
  | [] => none
  | [es] => (change es).map fun es => [es]
  | es :: rest => (changeLast change rest).map fun rest => es :: rest

/-- Adds a key that is not there yet. -/
def addNew (key : String) (value : Value) (entries : Entries) : Option Entries :=
  if Keyed.hasKey key entries then none else some (entries ++ [(key, value)])

/-- Adds a value under a dotted key.  The tables on the way are made if they are missing; one
that a header opened is not added to. -/
def addDotted (key : String) (value : Value) : List String → Entries → Option Entries
  | [] => addNew key value
  | [p] => alter p fun
    | none => (addNew key value []).map (.table .dotted)
    | some (.table .dotted es) => (addNew key value es).map (.table .dotted)
    | some _ => none
  | p :: q :: ps => alter p fun
    | none => (addDotted key value (q :: ps) []).map (.table .dotted)
    | some (.table .dotted es) => (addDotted key value (q :: ps) es).map (.table .dotted)
    | some (.table .onPath es) => (addDotted key value (q :: ps) es).map (.table .onPath)
    | some (.tables items) => (changeLast (addDotted key value (q :: ps)) items).map .tables
    | some _ => none

/-- Changes the table at the end of a path of headers.  Tables on the way are made if they are
missing; of repeated tables the last is meant. -/
def atPath (change : Entries → Option Entries) : List String → Entries → Option Entries
  | [] => change
  | p :: ps => alter p fun
    | none => (atPath change ps []).map (.table .onPath)
    | some (.table .inline _) => none
    | some (.table origin es) => (atPath change ps es).map (.table origin)
    | some (.tables items) => (changeLast (atPath change ps) items).map .tables
    | some _ => none

/-- Opens the table of a header.  It must be new or made only on the way to another. -/
def openTable (key : String) : Entries → Option Entries :=
  alter key fun
    | none => some (.table .header [])
    | some (.table .onPath es) => some (.table .header es)
    | some _ => none

/-- Opens a further table of a repeated header. -/
def openElement (key : String) : Entries → Option Entries :=
  alter key fun
    | none => some (.tables [[]])
    | some (.tables items) => some (.tables (items ++ [[]]))
    | some _ => none

end Toml
end TypeShape
