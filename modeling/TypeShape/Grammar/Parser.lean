import TypeShape.Grammar.Lexer
import TypeShape.Overload

/-!
# Reading type expressions

Type expressions are read by descent over the tokens that are left.  From loose to tight they
are unions, intersections, optional types and primary types; a primary type may hold further
types, always after at least one token of its own.  So the number of tokens bounds the depth, and
every loop consumes the mark that continues it.

A name that is written with leading colons or several segments is nominal.  A single
segment is a keyword, a type variable if it begins with a capital letter, and nominal otherwise.

Main definitions: `Cursor`, `Parser`, `Ty.parse`, `Overload.parse`, `TypeParam.parse`.
-/

namespace TypeShape

/-- The tokens that are left and the place where the text ends. -/
structure Cursor where
  rest : List Token
  stop : Nat
deriving DecidableEq, Inhabited

namespace Cursor

/-- The token a number of places ahead; beyond the last one is the end of the text. -/
def peekAt (c : Cursor) (ahead : Nat) : TokenKind :=
  match c.rest.drop ahead with
  | [] => .eof
  | t :: _ => t.kind

/-- The next token. -/
def peek (c : Cursor) : TokenKind :=
  c.peekAt 0

/-- The place of the next token. -/
def offset (c : Cursor) : Nat :=
  match c.rest with
  | [] => c.stop
  | t :: _ => t.offset

/-- Moves past a number of tokens, not past the end. -/
def advance (c : Cursor) (count : Nat) : Cursor :=
  { c with rest := c.rest.drop count }

end Cursor

/-- A reader of a part of the tokens. -/
abbrev Parser :=
  StateT Cursor (Except SyntaxError)

namespace Parser

/-! ## Single tokens -/

/-- The next token, which stays. -/
def peek : Parser TokenKind := fun c =>
  .ok (c.peek, c)

/-- The number of tokens that are left. -/
def remaining : Parser Nat := fun c =>
  .ok (c.rest.length, c)

/-- Takes the next token. -/
def next : Parser TokenKind := fun c =>
  .ok (c.peek, c.advance 1)

/-- Moves past some tokens. -/
def skip (count : Nat) : Parser Unit := fun c =>
  .ok ((), c.advance count)

/-- Takes the next token if it is the given one. -/
def accept (kind : TokenKind) : Parser Bool := fun c =>
  if c.peek = kind then .ok (true, c.advance 1) else .ok (false, c)

/-- Fails at the next token. -/
def fail {α : Type} (cause : SyntaxCause) : Parser α := fun c =>
  .error ⟨cause, c.offset⟩

/-- Takes a required mark. -/
def require (kind : TokenKind) (what : Expected) : Parser Unit := do
  if ← accept kind then pure () else fail (.missing what)

/-- Takes an identifier.  The error names the token that was taken and points after it. -/
def word : Parser String := do
  match ← next with
  | .ident name => pure name
  | kind => fail (.notIdent kind)

/-! ## Lists -/

/-- Further items, each after a separator.  The bound is the number of tokens that are left. -/
def more {α : Type} (separator : TokenKind) (item : Parser α) : Nat → Parser (List α)
  | 0 => pure []
  | n + 1 => do
    if ← accept separator then
      let x ← item
      let xs ← more separator item n
      pure (x :: xs)
    else pure []

/-- One or more items with separators between them. -/
def sepBy {α : Type} (separator : TokenKind) (item : Parser α) : Parser (List α) := do
  let x ← item
  let xs ← more separator item (← remaining)
  pure (x :: xs)

/-! ## Types, given a reader of primary types -/

/-- Question marks after a type, each of which adds `nil`. -/
def optionalMarks : Nat → Ty → Parser Ty
  | 0, t => pure t
  | n + 1, t => do
    if ← accept .question then optionalMarks n t.optional else pure t

/-- A primary type and its question marks. -/
def optionalType (primary : Parser Ty) : Parser Ty := do
  let t ← primary
  optionalMarks (← remaining) t

/-- A single member is that member. -/
def joinMembers (join : List Ty → Ty) : List Ty → Ty
  | [t] => t
  | ts => join ts

/-- Optional types between ampersands. -/
def interType (primary : Parser Ty) : Parser Ty := do
  let ts ← sepBy .amp (optionalType primary)
  pure (joinMembers Ty.interOf ts)

/-- Intersections between bars: any type. -/
def anyType (primary : Parser Ty) : Parser Ty := do
  let ts ← sepBy .pipe (interType primary)
  pure (joinMembers Ty.unionOf ts)

/-- Types between commas up to a closing bracket. -/
def typeList (primary : Parser Ty) : Parser (List Ty) := do
  if ← accept .rbracket then pure []
  else
    let ts ← sepBy .comma (anyType primary)
    require .rbracket .listEnd
    pure ts

/-! ### Parameters and blocks -/

/-- One parameter of a list. -/
inductive Param where
  | required (t : Ty)
  | optional (t : Ty)
  | rest (t : Ty)
  | keyword (name : String) (t : Ty)
  | optionalKeyword (name : String) (t : Ty)
  | restKeywords (t : Ty)

/-- Adds a parameter to a list.  A repeated keyword or rest parameter replaces the earlier
one. -/
def Param.addTo (p : Params Ty) : Param → Params Ty
  | required t => { p with required := p.required ++ [t] }
  | optional t => { p with optional := p.optional ++ [t] }
  | rest t => { p with rest := some t }
  | keyword name t => { p with keywords := Keyed.insert name t p.keywords }
  | optionalKeyword name t => { p with optionalKeywords := Keyed.insert name t p.optionalKeywords }
  | restKeywords t => { p with restKeywords := some t }

/-- One parameter; up to three tokens tell of which kind it is. -/
def param (primary : Parser Ty) : Parser Param := do
  let c ← get
  match c.peekAt 0, c.peekAt 1, c.peekAt 2 with
  | .question, .ident name, .colon => do
    skip 3
    return .optionalKeyword name (← anyType primary)
  | .question, _, _ => do
    skip 1
    return .optional (← anyType primary)
  | .starStar, _, _ => do
    skip 1
    return .restKeywords (← anyType primary)
  | .star, _, _ => do
    skip 1
    return .rest (← anyType primary)
  | .ident name, .colon, _ => do
    skip 2
    return .keyword name (← anyType primary)
  | _, _, _ => return .required (← anyType primary)

/-- Parameters in parentheses, or none if no parenthesis opens. -/
def params (primary : Parser Ty) : Parser (Params Ty) := do
  if ← accept .lparen then
    if ← accept .rparen then pure {}
    else
      let items ← sepBy .comma (param primary)
      require .rparen .paramsEnd
      pure (items.foldl Param.addTo {})
  else pure {}

/-- The binding of the receiver in a block, in brackets. -/
def blockReceiver (primary : Parser Ty) : Parser (Option Ty) := do
  if ← accept .lbracket then
    let name ← word
    if name = "self" then
      require .colon .selfColon
      let t ← anyType primary
      require .rbracket .selfEnd
      pure (some t)
    else fail (.notSelf name)
  else pure none

/-- What a block holds after its opening brace. -/
def blockBody (primary : Parser Ty) (optional : Bool) : Parser (Block Ty) := do
  let ps ← params primary
  let receiver ← blockReceiver primary
  require .arrow .blockArrow
  let result ← anyType primary
  require .rbrace .blockEnd
  pure ⟨⟨ps, result⟩, optional, receiver⟩

/-- A block in braces, perhaps after a question mark, or none if no brace opens. -/
def block (primary : Parser Ty) : Parser (Option (Block Ty)) := do
  let c ← get
  match c.peekAt 0, c.peekAt 1 with
  | .question, .lbrace => do
    skip 2
    return some (← blockBody primary true)
  | .lbrace, _ => do
    skip 1
    return some (← blockBody primary false)
  | _, _ => return none

/-! ### Primary types -/

/-- The key of a record field and the mark after it.  The error names the first token and points
after it. -/
def recordKey : Parser Literal := do
  let first ← next
  match first, ← peek with
  | .ident name, .colon => do
    skip 1
    return .symbol name
  | .symbol name, .fatArrow => do
    skip 1
    return .symbol name
  | .str text, .fatArrow => do
    skip 1
    return .string text
  | .integer value, .fatArrow => do
    skip 1
    return .integer value
  | _, _ => fail (.notKey first)

/-- A field of a record. -/
def recordField (primary : Parser Ty) : Parser (Literal × Ty) := do
  let key ← recordKey
  let t ← anyType primary
  pure (key, t)

/-- What a record holds after its opening brace. -/
def recordBody (primary : Parser Ty) : Parser Ty := do
  if ← accept .rbrace then pure (.record [])
  else
    let fields ← sepBy .comma (recordField primary)
    require .rbrace .recordEnd
    pure (.record (Keyed.ofList fields))

/-- What a proc type holds after its caret. -/
def procBody (primary : Parser Ty) : Parser Ty := do
  let ps ← params primary
  let b ← block primary
  require .arrow .procArrow
  let result ← optionalType primary
  pure (.proc ⟨⟨ps, result⟩, b⟩)

/-- Segments of a name after its first one. -/
def segments (first : String) : Parser (List String) := do
  let others ← more .colonColon word (← remaining)
  pure (first :: others)

/-- The name in parentheses after the word for a class object. -/
def singletonBody : Parser Ty := do
  require .lparen .singletonStart
  let _ ← accept .colonColon
  let path ← segments (← word)
  require .rparen .singletonEnd
  pure (.singleton (.ofString ("::".intercalate path)))

/-- The types that are one fixed word. -/
def wordType? (word : String) : Option Ty :=
  match word with
  | "self" => some (.slot .selfType)
  | "instance" => some (.slot .instanceType)
  | "class" => some (.slot .classType)
  | "untyped" => some .untyped
  | "top" => some .top
  | "bot" => some .bot
  | "void" => some .void
  | "nil" => some .nil
  | "bool" => some .bool
  | "boolish" => some .bool
  | "true" => some .trueType
  | "false" => some .falseType
  | _ => none

/-- The word begins with a capital letter. -/
def isCapitalized (word : String) : Bool :=
  match word.toList with
  | c :: _ => c.isUpper
  | [] => false

/-- What a name is an application of, by the spelling of its last segment. -/
def nominalKind (name : TypeName) : Nominal :=
  if name.isInterface then .interfaceOf else if name.isAlias then .aliasOf else .instanceOf

/-- Arguments in brackets, or none if no bracket opens. -/
def typeArgs (primary : Parser Ty) : Parser (List Ty) := do
  if ← accept .lbracket then typeList primary else pure []

/-- The rest of a name that is not a keyword. -/
def nominalBody (primary : Parser Ty) (absolute : Bool) (first : String) : Parser Ty := do
  let path ← segments first
  let args ← typeArgs primary
  if !absolute && path.length = 1 && isCapitalized first then
    if args.isEmpty then pure (.var first) else fail (.variableArgs first)
  else
    let name := TypeName.ofString ("::".intercalate path)
    pure (.named (nominalKind name) name args)

/-- A keyword, a variable or a nominal type. -/
def name (primary : Parser Ty) : Parser Ty := do
  let absolute ← accept .colonColon
  let first ← word
  if !absolute && (← peek) ≠ .colonColon then
    if first = "singleton" then singletonBody
    else
      match wordType? first with
      | some t => pure t
      | none => nominalBody primary absolute first
  else nominalBody primary absolute first

/-- A primary type whose inner types are read by `inner`. -/
def primaryWith (inner : Parser Ty) : Parser Ty := do
  match ← peek with
  | .lparen => do
    skip 1
    let t ← anyType inner
    require .rparen .parenEnd
    return t
  | .lbracket => do
    skip 1
    return .tuple (← typeList inner)
  | .lbrace => do
    skip 1
    recordBody inner
  | .caret => do
    skip 1
    procBody inner
  | .integer value => do
    skip 1
    return .literal (.integer value)
  | .str text => do
    skip 1
    return .literal (.string text)
  | .symbol symbol => do
    skip 1
    return .literal (.symbol symbol)
  | .colonColon => name inner
  | .ident _ => name inner
  | kind => fail (.notType kind)

/-- A primary type of at most the given depth.  Each level takes a token, so the number of tokens
that are left is depth enough; at depth zero none is left. -/
def primary : Nat → Parser Ty
  | 0 => do fail (.notType (← peek))
  | depth + 1 => primaryWith (primary depth)

/-! ## Whole texts -/

/-- A type. -/
def type : Parser Ty := do
  anyType (primary (← remaining))

/-- Whether the tokens that are left begin with two identifiers. -/
def wordPair? : Parser (Option String) := fun c =>
  match c.peekAt 0, c.peekAt 1 with
  | .ident word, .ident _ => .ok (some word, c)
  | _, _ => .ok (none, c)

/-- The markers before the name of a type parameter. -/
def typeParamMarkers : Nat → Bool × Variance → Parser (Bool × Variance)
  | 0, markers => pure markers
  | n + 1, markers => do
    match ← wordPair? with
    | some "unchecked" => do
      skip 1
      typeParamMarkers n (true, markers.2)
    | some "out" => do
      skip 1
      typeParamMarkers n (markers.1, .covariant)
    | some "in" => do
      skip 1
      typeParamMarkers n (markers.1, .contravariant)
    | _ => pure markers

/-- A type parameter: markers, a name and an upper bound. -/
def typeParam : Parser TypeParam := do
  let (unchecked, variance) ← typeParamMarkers (← remaining) (false, .invariant)
  let name ← word
  if ← accept .lt then
    let bound ← type
    pure { name, bound := some bound, variance, unchecked }
  else pure { name, variance, unchecked }

/-- Type parameters in brackets, or none if no bracket opens. -/
def typeParams : Parser (List TypeParam) := do
  if ← accept .lbracket then
    let ps ← sepBy .comma typeParam
    require .rbracket .typeParamsEnd
    pure ps
  else pure []

/-- An overload: type parameters, parameters, block, arrow, result. -/
def overload : Parser Overload := do
  let ps ← typeParams
  let inner := primary (← remaining)
  let arguments ← params inner
  let b ← block inner
  require .arrow .arrow
  let result ← anyType inner
  pure { typeParams := ps, callable := ⟨⟨arguments, result⟩, b⟩ }

/-- Reads a whole text. -/
def run {α : Type} (parser : Parser α) (source : String) : Except SyntaxError α := do
  let tokens ← Token.scan source
  let (a, c) ← parser ⟨tokens, source.utf8ByteSize⟩
  match c.peek with
  | .eof => pure a
  | kind => .error ⟨.trailing kind, c.offset⟩

end Parser

/-- Reads a type. -/
def Ty.parse (source : String) : Except SyntaxError Ty :=
  Parser.type.run source

/-- Reads an overload. -/
def Overload.parse (source : String) : Except SyntaxError Overload :=
  Parser.overload.run source

/-- Reads a type parameter. -/
def TypeParam.parse (source : String) : Except SyntaxError TypeParam :=
  Parser.typeParam.run source

end TypeShape
