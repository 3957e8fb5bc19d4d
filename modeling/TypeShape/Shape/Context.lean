import TypeShape.Declaration.Basic
import TypeShape.Subst

/-!
# Contexts of shape queries

What the placeholders stand for and which upper bounds type variables have.  The types that
placeholders stand for mention no placeholder themselves.

Main definitions: `ShapeError`, `Context`, `Context.make`, `Context.ofInstance`.
-/

namespace TypeShape

/-- Why a shape could not be found. -/
inductive ShapeError where
  | openAnchor (slot : Slot) (type : Ty)
  | noAnchor (type : Ty)
  | openReceiver (type : Ty)
  | cycle (type : Ty)
  | declaration (error : DeclError)
  | substitution (error : SubstError)

/-- The wording of an error. -/
def ShapeError.message : ShapeError → String
  | openAnchor slot type =>
    slot.word ++ " anchor must not mention self, instance or class: " ++ type.render
  | noAnchor type => "`" ++ type.render ++ "` has no anchor in the configuration"
  | openReceiver type => "`" ++ type.render ++ "` cannot be resolved as the self anchor"
  | cycle type => "cyclic type while building shape: " ++ type.render
  | declaration error => error.message
  | substitution error => error.message

/-- What placeholders and type variables stand for; bounds are in the order of their names. -/
structure Context where
  anchors : Anchors := {}
  bounds : List (String × Ty) := []
deriving Inhabited

namespace Context

instance : BEq Context where
  beq a b := a.anchors == b.anchors && a.bounds == b.bounds

/-- Nothing is known of placeholders and variables. -/
def empty : Context :=
  {}

/-- An anchor that mentions a placeholder is refused. -/
def checkAnchor (slot : Slot) : Option Ty → Except ShapeError Unit
  | some t => if t.mentionsSlot then .error (.openAnchor slot t) else .ok ()
  | none => .ok ()

/-- Makes a context of closed anchors. -/
def make (anchors : Anchors) (bounds : List (String × Ty)) : Except ShapeError Context := do
  checkAnchor .selfType anchors.selfType
  checkAnchor .classType anchors.classType
  checkAnchor .instanceType anchors.instanceType
  return { anchors, bounds }

/-- The context of an instance of the given type. -/
def ofInstance (t : Ty) : Except ShapeError Context :=
  let classType :=
    match t with
    | .named .instanceOf name _ => some (.singleton name)
    | _ => none
  make { selfType := some t, classType, instanceType := some t } []

/-- The same anchors with other bounds. -/
def withBounds (c : Context) (bounds : List (String × Ty)) : Context :=
  { c with bounds }

/-- The upper bound of a type variable. -/
def bound? (c : Context) (name : String) : Option Ty :=
  Keyed.get? name c.bounds

/-- The substitution of the anchors, if there is any. -/
def anchorSubst? (c : Context) : Option Subst :=
  if c.anchors.isEmpty then none else some (.ofAnchors c.anchors)

end Context
end TypeShape
