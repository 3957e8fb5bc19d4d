import TypeShape.Grammar.Token
import TypeShape.Text.Blank
import TypeShape.Text.Word

/-!
# From text to tokens

Blanks separate tokens.  A colon begins a symbol only where no word ends right before it, so that
the colon after a keyword name is a mark of its own.

Main definitions: `Lexer.lexeme` reads one token, `Token.scan` a whole text.
-/

namespace TypeShape

namespace Lexer

/-- The length of a list of characters in bytes of UTF-8. -/
def byteLength (cs : List Char) : Nat :=
  cs.foldl (fun n c => n + c.utf8Size) 0

/-- One token, the characters after it, and whether its last character belongs to a word. -/
structure Lexeme where
  kind : TokenKind
  rest : List Char
  wordEnd : Bool := false

/-- The marks of one character. -/
def mark? (c : Char) : Option TokenKind :=
  if c = '(' then some .lparen
  else if c = ')' then some .rparen
  else if c = '[' then some .lbracket
  else if c = ']' then some .rbracket
  else if c = '\x7b' then some .lbrace
  else if c = '\x7d' then some .rbrace
  else if c = ',' then some .comma
  else if c = '|' then some .pipe
  else if c = '&' then some .amp
  else if c = '?' then some .question
  else if c = '^' then some .caret
  else if c = '<' then some .lt
  else none

/-- The character that a backslash and another character stand for. -/
def unescape (c : Char) : Char :=
  if c = 'n' then '\n' else if c = 't' then '\t' else c

/-- The text up to a closing quote and what follows the quote. -/
def quoted? (close : Char) : List Char → Option (List Char × List Char)
  | [] => none
  | c :: cs =>
    if c = close then some ([], cs)
    else if c = '\\' then
      match cs with
      | [] => none
      | e :: cs => (quoted? close cs).map fun r => (unescape e :: r.1, r.2)
    else (quoted? close cs).map fun r => (c :: r.1, r.2)

/-- The number that decimal digits spell. -/
def digitsValue (ds : List Char) : Nat :=
  ds.foldl (fun n d => 10 * n + (d.toNat - '0'.toNat)) 0

/-- The first number that is too large for an integer: two to the power 63. -/
def integerBound : Nat :=
  9223372036854775808

/-- Reads an optional minus sign and decimal digits as a number of 64 bits. -/
def integer? : List Char → Option Int
  | '-' :: ds =>
    if ds.isEmpty || !ds.all Char.isDigit then none
    else if digitsValue ds ≤ integerBound then some (-(digitsValue ds : Int))
    else none
  | ds =>
    if ds.isEmpty || !ds.all Char.isDigit then none
    else if digitsValue ds < integerBound then some (digitsValue ds : Int)
    else none

/-- Reads a number; underscores between the digits are skipped. -/
def number (offset : Nat) (c : Char) (cs : List Char) : Except SyntaxError Lexeme :=
  let inside := fun d : Char => d.isDigit || d == '_'
  let text := (c :: cs.takeWhile inside).filter (· ≠ '_')
  match integer? text with
  | some value => .ok ⟨.integer value, cs.dropWhile inside, true⟩
  | none => .error ⟨.badInteger (String.ofList text), offset⟩

/-- Reads a quoted text whose opening quote stands at the given place. -/
def quotedToken (offset : Nat) (make : String → TokenKind) (quote : Char) (cs : List Char) :
    Except SyntaxError Lexeme :=
  match quoted? quote cs with
  | some (text, rest) => .ok ⟨make (String.ofList text), rest, false⟩
  | none => .error ⟨.unterminated, offset⟩

/-- Reads what starts with a colon. -/
def colonToken (afterWord : Bool) (offset : Nat) : List Char → Except SyntaxError Lexeme
  | ':' :: cs => .ok ⟨.colonColon, cs, false⟩
  | c :: cs =>
    if !afterWord && Text.isWordStart c then
      .ok ⟨.symbol (String.ofList ((c :: cs).takeWhile Text.isWordChar)),
        (c :: cs).dropWhile Text.isWordChar, true⟩
    else if !afterWord && (c == '"' || c == '\'') then
      quotedToken (offset + 1) .symbol c cs
    else .ok ⟨.colon, c :: cs, false⟩
  | [] => .ok ⟨.colon, [], false⟩

/-- Reads the token that starts with a character that is not blank. -/
def lexeme (afterWord : Bool) (offset : Nat) (c : Char) (cs : List Char) :
    Except SyntaxError Lexeme :=
  match mark? c with
  | some kind => .ok ⟨kind, cs, false⟩
  | none =>
    if c = '*' then
      match cs with
      | '*' :: cs => .ok ⟨.starStar, cs, false⟩
      | cs => .ok ⟨.star, cs, false⟩
    else if c = '=' then
      match cs with
      | '>' :: cs => .ok ⟨.fatArrow, cs, false⟩
      | _ => .error ⟨.badChar c, offset⟩
    else if c = '-' then
      match cs with
      | '>' :: cs => .ok ⟨.arrow, cs, false⟩
      | cs => number offset c cs
    else if c.isDigit then number offset c cs
    else if c = '"' || c = '\'' then quotedToken offset .str c cs
    else if c = ':' then colonToken afterWord offset cs
    else if Text.isWordStart c then
      .ok ⟨.ident (String.ofList ((c :: cs).takeWhile Text.isWordChar)),
        (c :: cs).dropWhile Text.isWordChar, true⟩
    else .error ⟨.badChar c, offset⟩

/-- Reads the tokens of the characters that are left of a text of `total` bytes.  The first
argument bounds their number. -/
def scanFrom (total : Nat) : Nat → Bool → List Char → Except SyntaxError (List Token)
  | _, _, [] => .ok []
  | 0, _, _ :: _ => .ok []
  | n + 1, afterWord, c :: cs =>
    if Text.isBlank c then scanFrom total n false cs
    else do
      let offset := total - byteLength (c :: cs)
      let next ← lexeme afterWord offset c cs
      let tokens ← scanFrom total n next.wordEnd next.rest
      return ⟨next.kind, offset⟩ :: tokens

end Lexer

/-- The tokens of a text, without the end of the text. -/
def Token.scan (source : String) : Except SyntaxError (List Token) :=
  Lexer.scanFrom source.utf8ByteSize source.toList.length false source.toList

end TypeShape
