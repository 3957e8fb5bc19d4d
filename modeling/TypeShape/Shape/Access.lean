import TypeShape.Shape.Basic

/-!
# Shapes of tuples, records and procs

A tuple has the methods of an array, a record those of a hash, and a proc those of its class.
Access to a known index or key is refined: there are further overloads that take exactly that
index or key and know what it holds.

Main definitions: `Shape.ofTuple`, `Shape.ofRecord`, `Shape.ofProc`.
-/

namespace TypeShape
namespace Shape

/-- An overload with required parameters only. -/
def plainOverload (params : List Ty) (result : Ty) : Overload :=
  { typeParams := [], callable := ⟨⟨{ required := params }, result⟩, none⟩ }

/-- The type parameter of the overloads that take a default. -/
def defaultParam : String :=
  "T"

/-- The overloads that fetch one key: alone, with a default value, and with a block that is given
the missing key. -/
def lookupOverloads (key value missing : Ty) : List Overload :=
  let default := Ty.var defaultParam
  let result := Ty.unionOf [value, default]
  let block : Block Ty := ⟨⟨{ required := [missing] }, default⟩, false, none⟩
  [plainOverload [key] value,
   { typeParams := [{ name := defaultParam }]
     callable := ⟨⟨{ required := [key, default] }, result⟩, none⟩ },
   { typeParams := [{ name := defaultParam }]
     callable := ⟨⟨{ required := [key] }, result⟩, some block⟩ }]

/-- Puts overloads before those that a shape has for a method, and makes it public. -/
def refine (base : Shape) (name : String) (overloads : List Overload) : Entry :=
  .ofPublic (overloads ++ ((base.get? name).map (·.overloads)).getD [])

/-- Refines access by the given keys and what they hold. -/
def refineAccess (base : Shape) (cells : List (Ty × Ty)) (missing : Ty) : Shape :=
  ((base.insert "[]" (base.refine "[]" (cells.map fun c => plainOverload [c.1] c.2))).insert
    "[]=" (base.refine "[]=" (cells.map fun c => plainOverload [c.1, c.2] c.2))).insert
    "fetch" (base.refine "fetch" (cells.flatMap fun c => lookupOverloads c.1 c.2 missing))

/-- The items of a tuple by index. -/
def tupleCells (items : List Ty) : List (Ty × Ty) :=
  items.mapIdx fun i t => (.literal (.integer i), t)

/-- The fields of a record by key. -/
def recordCells (fields : List (Literal × Ty)) : List (Ty × Ty) :=
  fields.map fun f => (.literal f.1, f.2)

/-- The shape of a tuple from that of the array of its items. -/
def ofTuple (t : Ty) (items : List Ty) (base : Shape) : Shape :=
  let first := items.head?.getD .nil
  let last := items.getLast?.getD .nil
  (((refineAccess base (tupleCells items) (.ofClass .integer)).insert
    "first" (.ofPublic [plainOverload [] first])).insert
    "last" (.ofPublic [plainOverload [] last])).relabel t

/-- The shape of a record from that of the hash of its fields. -/
def ofRecord (t : Ty) (fields : List (Literal × Ty)) (base : Shape) : Shape :=
  (refineAccess base (recordCells fields) (Ty.unionOf (fields.map fun f => .literal f.1))).relabel t

/-- The shape of a proc: calling it takes its own signature. -/
def ofProc (t : Ty) (c : Callable Ty) (base : Shape) : Shape :=
  let call := Entry.ofPublic [{ typeParams := [], callable := c }]
  ((base.insert "[]" call).insert "call" call).relabel t

end Shape
end TypeShape
