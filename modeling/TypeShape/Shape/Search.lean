import TypeShape.Declaration.Unfold
import TypeShape.Deepening
import TypeShape.Shape.Context
import TypeShape.Shape.Members
import TypeShape.Shape.Predicate
import TypeShape.Shape.Access
import TypeShape.Subtyping

/-!
# Finding shapes

A search finds the shapes of types and remembers what it found: the shapes of declarations and
of unions.  While it looks through an alias or the bound of a variable it keeps a note, so that a
type that leads back to itself is reported as a cycle.  The notes are taken away again however
the search ends.

A search need not end: an alias may unfold into ever larger types.  So a search is made to a
bounded depth, where it may have no answer, and a depth that is not enough is raised.

Main definitions: `Cache`, `Search`, `Search.within`, `Search.find`, `Search.shape`,
`Search.shapeAsSelf`.
-/

namespace TypeShape

/-- What searches remember, and the types they are looking through, the latest first. -/
structure Cache where
  instances : List (TypeName × Shape) := []
  classObjects : List (TypeName × Shape) := []
  unions : List ((Ty × Context) × Shape) := []
  pending : List Ty := []

/-- A search that may fail and that keeps what was remembered either way.  One that goes on too
long has no answer and remembers nothing. -/
abbrev Search :=
  ExceptT ShapeError (StateT Cache Option)

/-- Nothing is remembered. -/
def Cache.empty : Cache :=
  {}

namespace Search

/-- How a type is looked at: from outside, or as what stands for the receiver, whose own
placeholder then stays open. -/
inductive View where
  | outside
  | asReceiver
deriving DecidableEq, Inhabited

/-- The receiver of a shape that describes the type itself. -/
def receiverIn (view : View) (t : Ty) : Option Ty :=
  match view with
  | .outside => some t
  | .asReceiver => none

/-! ## Declarations -/

/-- A result that may be an error of the declarations. -/
def ofDecl {α : Type} : Except DeclError α → Search α
  | .ok a => pure a
  | .error e => throw (.declaration e)

/-- A result that may be an error of a substitution. -/
def ofSubst {α : Type} : Except SubstError α → Search α
  | .ok a => pure a
  | .error e => throw (.substitution e)

/-- The shape that declared methods give under a label. -/
def shapeOfMethods (label : Ty) (methods : MethodTable) : Shape where
  type := label
  methods := methods.map fun m =>
    (m.1, ⟨m.2.defs.map fun o => o.signature m.1, m.2.visibility == .priv⟩)

/-- The methods of an instance or interface, by the spelling of the name. -/
def instanceTable (T : Table) (name : TypeName) : Except DeclError MethodTable :=
  if name.isInterface then T.interfaceMethods name else T.instanceMethods name

/-- The shape of the instances of a name, remembered. -/
def instanceShape (T : Table) (name : TypeName) : Search Shape := do
  match Keyed.get? name (← get).instances with
  | some shape => return shape
  | none =>
    let methods ← ofDecl (instanceTable T name)
    let shape := shapeOfMethods .bot methods
    modify fun b => { b with instances := Keyed.insert name shape b.instances }
    return shape

/-- The shape of a class or module object, remembered. -/
def classObjectBase (T : Table) (name : TypeName) : Search Shape := do
  match Keyed.get? name (← get).classObjects with
  | some shape => return shape
  | none =>
    let methods ← ofDecl (T.singletonMethods name)
    let shape := shapeOfMethods (.singleton name) methods
    modify fun b => { b with classObjects := Keyed.insert name shape b.classObjects }
    return shape

/-- The anchors of a nominal type: itself, its class object, and its untyped instance. -/
def nominalAnchors (T : Table) (t : Ty) : Subst :=
  match t with
  | .singleton name =>
    .ofAnchors { selfType := some t, classType := some t,
                 instanceType := some (T.untypedInstance name) }
  | .named .instanceOf name _ =>
    .ofAnchors { selfType := some t, classType := some (.singleton name),
                 instanceType := some (T.untypedInstance name) }
  | _ => .empty

/-- Binds the type parameters of a name to the arguments of an application. -/
def argumentSubst (T : Table) (name : TypeName) (args : List Ty) : Search Subst :=
  if args.isEmpty then pure .empty
  else do
    let params ← ofDecl (T.paramsOf name)
    ofSubst (Subst.ofLists (params.map (·.name)) args {})

/-- The shape of the instances of a class without arguments, for a receiver of another form. -/
def classShape (T : Table) (name : TypeName) (receiver label : Option Ty) : Search Shape := do
  let shape ← instanceShape T name
  return shape.subst ((nominalAnchors T (.ofClass name)).withSelf receiver) label

/-- The shape of an application of a generic class, for a receiver of another form. -/
def applicationShape (T : Table) (name : TypeName) (args : List Ty) (receiver label : Option Ty) :
    Search Shape := do
  let app ← argumentSubst T name args
  let s ← ofSubst (((nominalAnchors T (.named .instanceOf name args)).withSelf receiver).andThen app)
  let shape ← instanceShape T name
  return shape.subst s label

/-- The shape of a class or module object as seen from outside or as the receiver. -/
def classObjectShape (T : Table) (name : TypeName) (receiver : Option Ty) : Search Shape := do
  let shape ← classObjectBase T name
  let s := (nominalAnchors T (.singleton name)).withSelf receiver
  return shape.subst s (some (.singleton name))

/-- The shape of an interface. -/
def interfaceShape (T : Table) (name : TypeName) (args : List Ty) (receiver : Option Ty) :
    Search Shape := do
  let app ← argumentSubst T name args
  let s ← ofSubst ((Subst.ofAnchors { selfType := receiver }).andThen app)
  let shape ← instanceShape T name
  return shape.subst s (some (.named .interfaceOf name args))

/-- The shape of a boolean: what both its classes have. -/
def boolShape (T : Table) (t : Ty) (receiver : Option Ty) : Search Shape := do
  let onTrue ← classShape T .trueClass receiver none
  let onFalse ← classShape T .falseClass receiver none
  return Shape.ofUnion t [onTrue, onFalse]

/-! ## Types -/

/-- Looks through a type unless that is already going on. -/
def lookingThrough {α : Type} (t : Ty) (search : Search α) : Search α := fun b =>
  if b.pending.any (· == t) then some (.error (.cycle t), b)
  else
    (search { b with pending := t :: b.pending }).map fun r =>
      (r.1, { r.2 with pending := r.2.pending.tail })

/-- The class of a member of a union that is a literal. -/
def literalClass? : Ty → Option TypeName
  | .literal value => some value.className
  | _ => none

/-- Adds a member of a union to its group: literals of one class go together, and so do all
other members. -/
def addToGroup (groups : List (Option TypeName × List Ty)) (t : Ty) :
    List (Option TypeName × List Ty) :=
  if groups.any (·.1 == literalClass? t) then
    groups.map fun g => if g.1 == literalClass? t then (g.1, g.2 ++ [t]) else g
  else groups ++ [(literalClass? t, [t])]

/-- The groups of the members of a union, in the order of their first members. -/
def memberGroups (members : List Ty) : List (Option TypeName × List Ty) :=
  members.foldl addToGroup []

/-- The shapes of some types, as long as all have one. -/
def shapesOf (search : Ty → Search (Option Shape)) : List Ty → Search (Option (List Shape))
  | [] => pure (some [])
  | t :: ts => do
    match ← search t with
    | none => return none
    | some shape =>
      match ← shapesOf search ts with
      | none => return none
      | some shapes => return some (shape :: shapes)

/-- The shapes of a group of members. -/
def groupShapes (T : Table) (search : Ty → Search (Option Shape)) :
    Option TypeName × List Ty → Search (Option (List Shape))
  | (some name, literals) => do
    let shape ← classShape T name (some (Ty.unionOf literals)) (some (Ty.unionOf literals))
    return some [shape]
  | (none, members) => shapesOf search members

/-- The shapes of all groups, as long as all have them. -/
def allGroupShapes (T : Table) (search : Ty → Search (Option Shape)) :
    List (Option TypeName × List Ty) → Search (Option (List Shape))
  | [] => pure (some [])
  | g :: gs => do
    match ← groupShapes T search g with
    | none => return none
    | some shapes =>
      match ← allGroupShapes T search gs with
      | none => return none
      | some rest => return some (shapes ++ rest)

/-- The shape remembered for a union in a context. -/
def rememberedUnion? (b : Cache) (t : Ty) (c : Context) : Option Shape :=
  (b.unions.find? fun e => e.1.1 == t && e.1.2 == c).map (·.2)

/-- The shape of a union, remembered. -/
def searchUnion (T : Table) (search : Ty → Search (Option Shape)) (t : Ty) (members : List Ty)
    (c : Context) : Search (Option Shape) := do
  match rememberedUnion? (← get) t c with
  | some shape => return some shape
  | none =>
    match ← allGroupShapes T search (memberGroups members) with
    | none => return none
    | some shapes =>
      let shape := Shape.ofUnion t shapes
      modify fun b => { b with unions := ((t, c), shape) :: b.unions }
      return some shape

/-- The shape of an intersection. -/
def searchInter (search : Ty → Search (Option Shape)) (t : Ty) (members : List Ty) :
    Search (Option Shape) := do
  match ← shapesOf search members with
  | none => return none
  | some shapes => return some (Shape.ofInter t shapes)

/-- The shape of a placeholder: that of its anchor. -/
def searchSlot (search : Ty → Context → View → Search (Option Shape)) (s : Slot) (c : Context)
    (view : View) : Search (Option Shape) :=
  match view with
  | .asReceiver => throw (.openReceiver (.slot s))
  | .outside =>
    match c.anchors.get? s with
    | none => throw (.noAnchor (.slot s))
    | some anchor => search anchor c (if s = .selfType then .asReceiver else .outside)

/-- A context that may be refused. -/
def ofContext : Except ShapeError Context → Search Context
  | .ok c => pure c
  | .error e => throw e

/-- The shape of a type variable: that of its bound.  Seen from outside, the receiver inside the
bound is first the bound, then the variable. -/
def searchVar (search : Ty → Context → View → Search (Option Shape)) (x : String) (c : Context)
    (view : View) : Search (Option Shape) :=
  match c.bound? x with
  | none => pure none
  | some bound => lookingThrough (.var x) do
    match view with
    | .asReceiver => do
      let shape ← search bound c .asReceiver
      return shape.map fun s => s.relabel (.var x)
    | .outside => do
      let inner ← ofContext (Context.make { selfType := some bound } c.bounds)
      let shape ← search bound inner .asReceiver
      return shape.map fun s => s.subst (.ofAnchors { selfType := some (.var x) }) (some (.var x))

/-- The shape of an alias: that of its expansion. -/
def searchAlias (T : Table) (search : Ty → Context → View → Search (Option Shape)) (name : TypeName)
    (args : List Ty) (c : Context) : Search (Option Shape) :=
  lookingThrough (.named .aliasOf name args) do
    let expanded ← ofDecl (T.expansion name args)
    let shape ← search expanded c .outside
    return shape.map fun s => s.relabel (.named .aliasOf name args)

/-- The shape of a type, where `search` finds the shapes of further types. -/
def searchWith (T : Table) (search : Ty → Context → View → Search (Option Shape)) (t : Ty)
    (c : Context) (view : View) : Search (Option Shape) :=
  match t with
  | .slot s => searchSlot search s c view
  | .singleton name => some <$> classObjectShape T name (receiverIn view t)
  | .named .instanceOf name args => some <$> applicationShape T name args (receiverIn view t) (some t)
  | .named .interfaceOf name args => some <$> interfaceShape T name args (receiverIn view t)
  | .named .aliasOf name args => searchAlias T search name args c
  | .literal value => some <$> classShape T value.className (receiverIn view t) (some t)
  | .bool => some <$> boolShape T t (receiverIn view t)
  | .logic _ => some <$> boolShape T t (some t)
  | .nil => some <$> classShape T .nilClass (some t) (some t)
  | .proc callable => do
    let base ← classShape T .proc (receiverIn view t) none
    return some (Shape.ofProc t callable base)
  | .var x => searchVar search x c view
  | .union members => searchUnion T (fun m => search m c .outside) t members c
  | .inter members => searchInter (fun m => search m c .outside) t members
  | .tuple items => do
    let base ← applicationShape T .array [Ty.unionOf items] (some t) none
    return some (Shape.ofTuple t items base)
  | .record fields => do
    let base ← applicationShape T .hash
      [Ty.unionOf (fields.map fun f => .literal f.1), Ty.unionOf (fields.map (·.2))] (some t) none
    return some (Shape.ofRecord t fields base)
  | .untyped => pure none
  | .top => pure none
  | .bot => pure none
  | .void => pure none

/-- The shape of a type to a bounded depth; what goes on beyond it has no answer. -/
def within (T : Table) : Nat → Ty → Context → View → Search (Option Shape)
  | 0, _, _, _ => fun _ => none
  | depth + 1, t, c, view => searchWith T (within T depth) t c view

/-- The weight of a context. -/
def contextWeight (c : Context) : Nat :=
  Ty.weightOption c.anchors.selfType + Ty.weightOption c.anchors.classType +
    Ty.weightOption c.anchors.instanceType + Ty.weightKeywords c.bounds

/-- A depth that is enough for most searches that end. -/
def searchDepth (T : Table) (t : Ty) (c : Context) : Nat :=
  let w := t.weight + contextWeight c + T.aliasWeight
  (w + 2) * (2 * w + 4) * T.unfoldFactor

/-- The shape of a type, at whatever depth the search for it ends. -/
def find (T : Table) (t : Ty) (c : Context) (view : View) : Search (Option Shape) := fun b =>
  Deepening.answer ⟨fun depth => within T depth t c view b⟩ (searchDepth T t c)

/-- The shape of a type in a context.  There is none for unbounded variables and for types
without methods.  A shape of the receiver itself keeps its placeholder. -/
def shape (T : Table) (t : Ty) (c : Context) : Search (Option Shape) := do
  match ← find T t c .outside with
  | none => return none
  | some s =>
    match t, c.anchorSubst? with
    | .slot .selfType, _ => return some s
    | _, some anchors => return some (s.subst anchors none)
    | _, none => return some s

/-- The shape of a type that stands for the receiver. -/
def shapeAsSelf (T : Table) (t : Ty) (c : Context) : Search (Option Shape) :=
  find T t c .asReceiver

end Search
end TypeShape
