import TypeShape.Subst

/-!
# Shapes

The shape of a type is the table of methods that can be called on its values.

Main definitions: `Entry`, `Shape`, `Shape.subst`, `Shape.publicPart`.
-/

namespace TypeShape

/-- The overloads of one method, tried in order, and whether it is private. -/
structure Entry where
  overloads : List Overload
  isPrivate : Bool

namespace Entry

instance : BEq Entry where
  beq a b := a.overloads == b.overloads && a.isPrivate == b.isPrivate

/-- An entry that can be called with an explicit receiver. -/
def ofPublic (overloads : List Overload) : Entry :=
  ⟨overloads, false⟩

/-- Applies a substitution to every overload. -/
def subst (e : Entry) (s : Subst) : Entry :=
  { e with overloads := e.overloads.map s.applyOverload }

end Entry

/-- The type that a shape describes and its methods in the order of their names. -/
structure Shape where
  type : Ty
  methods : List (String × Entry)

namespace Shape

instance : BEq Shape where
  beq a b := a.type == b.type && a.methods == b.methods

/-- The entry of a method. -/
def get? (s : Shape) (name : String) : Option Entry :=
  Keyed.get? name s.methods

/-- The names of the methods, in order. -/
def methodNames (s : Shape) : List String :=
  s.methods.map (·.1)

/-- Sets the entry of a method. -/
def insert (s : Shape) (name : String) (entry : Entry) : Shape :=
  { s with methods := Keyed.insert name entry s.methods }

/-- Describes another type with the same methods. -/
def relabel (s : Shape) (type : Ty) : Shape :=
  { s with type }

/-- Applies a substitution to every overload.  The described type becomes the given one, or is
substituted too. -/
def subst (s : Shape) (σ : Subst) (type : Option Ty) : Shape where
  type := type.getD (σ.apply s.type)
  methods := s.methods.map fun m => (m.1, m.2.subst σ)

/-- The methods that can be called with an explicit receiver. -/
def publicPart (s : Shape) : Shape :=
  { s with methods := s.methods.filter fun m => !m.2.isPrivate }

end Shape
end TypeShape
