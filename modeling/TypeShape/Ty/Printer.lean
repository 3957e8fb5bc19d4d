import TypeShape.Ty.Basic

/-!
# The written form of types

Types are written as the grammar of type expressions reads them.  Inside a union
the members that bind more loosely, intersections and procs, stand in parentheses; inside an
intersection unions and procs do.

Main definitions: `Ty.render`, `Ty.renderArrow`, `Ty.renderBlock`, `Ty.renderCallable`.
-/

namespace TypeShape
namespace Ty

/-- Members of a union that are written in parentheses. -/
def looseInUnion : Ty → Bool
  | inter _ => true
  | proc _ => true
  | _ => false

/-- Members of an intersection that are written in parentheses. -/
def looseInInter : Ty → Bool
  | union _ => true
  | proc _ => true
  | _ => false

/-- Puts a text in parentheses when asked to. -/
def parenthesize (loose : Bool) (text : String) : String :=
  if loose then "(" ++ text ++ ")" else text

/-- Type arguments in brackets, or nothing. -/
def bracketArgs : List String → String
  | [] => ""
  | args => "[" ++ ", ".intercalate args ++ "]"

/-- The key of a record field with the mark that follows it. -/
def renderKey : Literal → String
  | .symbol name =>
    if Text.isWord name then name ++ ": " else (Literal.symbol name).render ++ " => "
  | key => key.render ++ " => "

mutual

/-- The written form of a type. -/
def render : Ty → String
  | slot s => s.word
  | untyped => "untyped"
  | top => "top"
  | bot => "bot"
  | void => "void"
  | nil => "nil"
  | bool => "bool"
  | named _ name args => name.text ++ bracketArgs (renderList args)
  | singleton name => "singleton(" ++ name.text ++ ")"
  | union ms => " | ".intercalate (renderMembers looseInUnion ms)
  | inter ms => " & ".intercalate (renderMembers looseInInter ms)
  | literal value => value.render
  | tuple items => "[" ++ ", ".intercalate (renderList items) ++ "]"
  | record fields => "\x7b " ++ ", ".intercalate (renderFields fields) ++ " \x7d"
  | proc c => "^" ++ renderCallable c
  | var name => name
  | logic question => "logic(" ++ question.word ++ ")"
termination_by structural t => t

/-- The written forms of a list of types. -/
def renderList : List Ty → List String
  | [] => []
  | t :: ts => render t :: renderList ts
termination_by structural ts => ts

/-- The written forms of members, in parentheses where they bind more loosely. -/
def renderMembers (loose : Ty → Bool) : List Ty → List String
  | [] => []
  | t :: ts => parenthesize (loose t) (render t) :: renderMembers loose ts
termination_by structural ts => ts

/-- The written forms of record fields. -/
def renderFields : List (Literal × Ty) → List String
  | [] => []
  | (key, t) :: fs => (renderKey key ++ render t) :: renderFields fs
termination_by structural fs => fs

/-- The written forms of keyword parameters, each after a mark. -/
def renderKeywords (mark : String) : List (String × Ty) → List String
  | [] => []
  | (name, t) :: ks => (mark ++ name ++ ": " ++ render t) :: renderKeywords mark ks
termination_by structural ks => ks

/-- The written forms of types after a mark. -/
def renderMarked (mark : String) : List Ty → List String
  | [] => []
  | t :: ts => (mark ++ render t) :: renderMarked mark ts
termination_by structural ts => ts

/-- The written form of a type that may be missing, after a mark. -/
def renderOption (mark : String) : Option Ty → List String
  | none => []
  | some t => [mark ++ render t]
termination_by structural t => t

/-- The written form of a parameter list. -/
def renderParams : Params Ty → String
  | ⟨r, o, s, k, p, t⟩ =>
    "(" ++ ", ".intercalate
      (renderList r ++ renderMarked "?" o ++ renderOption "*" s ++ renderKeywords "" k ++
        renderKeywords "?" p ++ renderOption "**" t) ++ ")"
termination_by structural p => p

/-- The binding of the receiver inside a block. -/
def renderReceiver : Option Ty → String
  | none => ""
  | some t => " [self: " ++ render t ++ "]"
termination_by structural t => t

/-- The written form of a block. -/
def renderBlock : Block Ty → String
  | ⟨⟨p, t⟩, optional, receiver⟩ =>
    (if optional then "?" else "") ++ "\x7b " ++ renderParams p ++ renderReceiver receiver ++
      " -> " ++ render t ++ " \x7d"
termination_by structural b => b

/-- The written form of a block that may be missing, after a blank. -/
def renderBlockOption : Option (Block Ty) → String
  | none => ""
  | some b => " " ++ renderBlock b
termination_by structural b => b

/-- The written form of a callable: parameters, block, result. -/
def renderCallable : Callable Ty → String
  | ⟨⟨p, t⟩, b⟩ => renderParams p ++ renderBlockOption b ++ " -> " ++ render t
termination_by structural c => c

end

/-! ### Written forms in containers -/

theorem renderList_eq_map (ts : List Ty) : renderList ts = ts.map render := by
  induction ts with
  | nil => rfl
  | cons t ts ih => simp only [renderList, List.map_cons, ih]

theorem renderMembers_eq_map (loose : Ty → Bool) (ts : List Ty) :
    renderMembers loose ts = ts.map fun t => parenthesize (loose t) (render t) := by
  induction ts with
  | nil => rfl
  | cons t ts ih => simp only [renderMembers, List.map_cons, ih]

theorem renderMarked_eq_map (mark : String) (ts : List Ty) :
    renderMarked mark ts = ts.map fun t => mark ++ render t := by
  induction ts with
  | nil => rfl
  | cons t ts ih => simp only [renderMarked, List.map_cons, ih]

theorem renderFields_eq_map (fs : List (Literal × Ty)) :
    renderFields fs = fs.map fun f => renderKey f.1 ++ render f.2 := by
  induction fs with
  | nil => rfl
  | cons f fs ih => simp only [renderFields, List.map_cons, ih]

theorem renderKeywords_eq_map (mark : String) (ks : List (String × Ty)) :
    renderKeywords mark ks = ks.map fun k => mark ++ k.1 ++ ": " ++ render k.2 := by
  induction ks with
  | nil => rfl
  | cons k ks ih => simp only [renderKeywords, List.map_cons, ih]

/-! ### Arrows -/

/-- The written form of an arrow. -/
def renderArrow (a : Arrow Ty) : String :=
  renderParams a.params ++ " -> " ++ render a.result

end Ty
end TypeShape
