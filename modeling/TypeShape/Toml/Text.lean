/-!
# Quoted texts of TOML documents

The four forms of quoted text: basic texts with escapes, literal texts without, and both over
several lines.  A line break inside a text is read as a single newline, and one right after the
opening quotes is dropped.

Every reader takes the characters after the opening quotes and gives the text and the characters
after the closing quotes.  The first argument of a reader bounds the number of its steps.

Main definition: `Toml.quoted`.
-/

namespace TypeShape
namespace Toml

/-- A character that may stand for itself in a text or comment. -/
def isTextChar (c : Char) : Bool :=
  c == '\t' || (0x20 ≤ c.toNat && c.toNat ≠ 0x7f)

/-- A blank inside a line. -/
def isInlineBlank (c : Char) : Bool :=
  c == ' ' || c == '\t'

/-- The characters after a line break. -/
def afterNewline? : List Char → Option (List Char)
  | '\n' :: cs => some cs
  | '\r' :: '\n' :: cs => some cs
  | _ => none

/-- Puts a character before a text that was read. -/
def prepend (c : Char) : Option (List Char × List Char) → Option (List Char × List Char) :=
  Option.map fun r => (c :: r.1, r.2)

/-- The value of a hexadecimal digit. -/
def hexDigit? (c : Char) : Option Nat :=
  if c.isDigit then some (c.toNat - '0'.toNat)
  else if 'a' ≤ c ∧ c ≤ 'f' then some (c.toNat - 'a'.toNat + 10)
  else if 'A' ≤ c ∧ c ≤ 'F' then some (c.toNat - 'A'.toNat + 10)
  else none

/-- The character whose code point the first hexadecimal digits spell. -/
def codePoint? (digits : Nat) (cs : List Char) : Option (Char × List Char) := do
  let head := cs.take digits
  if head.length ≠ digits then none
  else
    let value ← head.foldlM (fun n c => (hexDigit? c).map (16 * n + ·)) 0
    if h : value.isValidChar then some (Char.ofNatAux value h, cs.drop digits) else none

/-- The character that an escape stands for, after its backslash. -/
def escape? : List Char → Option (Char × List Char)
  | 'b' :: cs => some ('\x08', cs)
  | 't' :: cs => some ('\t', cs)
  | 'n' :: cs => some ('\n', cs)
  | 'f' :: cs => some ('\x0c', cs)
  | 'r' :: cs => some ('\r', cs)
  | '"' :: cs => some ('"', cs)
  | '\\' :: cs => some ('\\', cs)
  | 'u' :: cs => codePoint? 4 cs
  | 'U' :: cs => codePoint? 8 cs
  | _ => none

/-- A basic text on one line. -/
def basicText : Nat → List Char → Option (List Char × List Char)
  | 0, _ => none
  | n + 1, cs =>
    match cs with
    | [] => none
    | '"' :: cs => some ([], cs)
    | '\\' :: cs => (escape? cs).bind fun r => prepend r.1 (basicText n r.2)
    | c :: cs => if isTextChar c then prepend c (basicText n cs) else none

/-- A literal text on one line. -/
def literalText : List Char → Option (List Char × List Char)
  | [] => none
  | '\'' :: cs => some ([], cs)
  | c :: cs => if isTextChar c then prepend c (literalText cs) else none

/-- The end of a text over several lines: up to two quotes may stand before the closing three. -/
def closing? (quote : Char) (cs : List Char) : Option (List Char × List Char) :=
  let run := cs.takeWhile (· == quote)
  if run.length < 3 then none
  else
    let kept := min (run.length - 3) 2
    some (List.replicate kept quote, cs.drop (kept + 3))

/-- Skips blanks and line breaks. -/
def skipSpace : Nat → List Char → List Char
  | 0, cs => cs
  | n + 1, cs =>
    match cs with
    | [] => []
    | c :: rest =>
      if isInlineBlank c then skipSpace n rest
      else
        match afterNewline? cs with
        | some rest => skipSpace n rest
        | none => cs

/-- The characters after a backslash that ends its line and the blanks that follow it. -/
def lineContinuation? (bound : Nat) (cs : List Char) : Option (List Char) :=
  (afterNewline? (cs.dropWhile isInlineBlank)).map (skipSpace bound)

/-- A basic text over several lines. -/
def basicLines : Nat → List Char → Option (List Char × List Char)
  | 0, _ => none
  | n + 1, cs =>
    match closing? '"' cs with
    | some r => some r
    | none =>
      match cs with
      | [] => none
      | '\\' :: cs =>
        match lineContinuation? cs.length cs with
        | some cs => basicLines n cs
        | none => (escape? cs).bind fun r => prepend r.1 (basicLines n r.2)
      | c :: rest =>
        match afterNewline? cs with
        | some cs => prepend '\n' (basicLines n cs)
        | none => if isTextChar c then prepend c (basicLines n rest) else none

/-- A literal text over several lines. -/
def literalLines : Nat → List Char → Option (List Char × List Char)
  | 0, _ => none
  | n + 1, cs =>
    match closing? '\'' cs with
    | some r => some r
    | none =>
      match cs with
      | [] => none
      | c :: rest =>
        match afterNewline? cs with
        | some cs => prepend '\n' (literalLines n cs)
        | none => if isTextChar c then prepend c (literalLines n rest) else none

/-- The characters without a line break at their start. -/
def dropNewline (cs : List Char) : List Char :=
  (afterNewline? cs).getD cs

/-- A quoted text of any form, from its opening quote. -/
def quoted (cs : List Char) : Option (String × List Char) :=
  let text : Option (List Char × List Char) :=
    match cs with
    | '"' :: '"' :: '"' :: cs => basicLines (cs.length + 1) (dropNewline cs)
    | '"' :: cs => basicText (cs.length + 1) cs
    | '\'' :: '\'' :: '\'' :: cs => literalLines (cs.length + 1) (dropNewline cs)
    | '\'' :: cs => literalText cs
    | _ => none
  text.map fun r => (String.ofList r.1, r.2)

/-- A quoted text on one line, from its opening quote. -/
def quotedLine (cs : List Char) : Option (String × List Char) :=
  let text : Option (List Char × List Char) :=
    match cs with
    | '"' :: cs => basicText (cs.length + 1) cs
    | '\'' :: cs => literalText cs
    | _ => none
  text.map fun r => (String.ofList r.1, r.2)

end Toml
end TypeShape
