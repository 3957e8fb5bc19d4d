import TypeShape.Toml.Moment
import TypeShape.Toml.Value

/-!
# Reading TOML documents

A document is read line by line: headers open tables, and key-value pairs are added to the table
opened last.  Arrays, inline tables and dotted keys are nested only up to a limit.

Main definition: `Toml.read`.
-/

namespace TypeShape
namespace Toml

/-- Skips blanks inside a line. -/
def skipInline (cs : List Char) : List Char :=
  cs.dropWhile isInlineBlank

/-- Skips a comment up to the end of its line. -/
def skipComment : List Char → List Char
  | '#' :: cs => cs.dropWhile isTextChar
  | cs => cs

/-- Skips blanks, comments and line breaks. -/
def skipTrivia : Nat → List Char → List Char
  | 0, cs => cs
  | n + 1, cs =>
    let rest := skipComment (skipInline cs)
    match afterNewline? rest with
    | some rest => skipTrivia n rest
    | none => rest

/-- The characters after the end of a line, which may hold a comment. -/
def lineEnd? (cs : List Char) : Option (List Char) :=
  match skipComment (skipInline cs) with
  | [] => some []
  | rest => afterNewline? rest

/-- How deep arrays and inline tables are nested at most, and how many parts a key has. -/
def nestingLimit : Nat :=
  79

/-! ## Keys -/

/-- A character of a key without quotes. -/
def isBareChar (c : Char) : Bool :=
  c.isAlphanum || c == '_' || c == '-'

/-- One part of a key. -/
def keyPart (cs : List Char) : Option (String × List Char) :=
  match cs with
  | [] => none
  | c :: _ =>
    if c = '"' ∨ c = '\'' then quotedLine cs
    else if isBareChar c then
      some (String.ofList (cs.takeWhile isBareChar), cs.dropWhile isBareChar)
    else none

/-- Further parts of a key, each after a point. -/
def keyParts : Nat → List Char → Option (List String × List Char)
  | 0, cs => some ([], cs)
  | n + 1, cs =>
    match skipInline cs with
    | '.' :: rest => do
      let (part, rest) ← keyPart (skipInline rest)
      let (parts, rest) ← keyParts n rest
      return (part :: parts, rest)
    | rest => some ([], rest)

/-- A key: the parts before the last, the last part, and what follows the key. -/
def key (cs : List Char) : Option (List String × String × List Char) := do
  let (first, rest) ← keyPart (skipInline cs)
  let (others, rest) ← keyParts rest.length rest
  if nestingLimit ≤ others.length then none
  match (first :: others).reverse with
  | [] => none
  | last :: before => some (before.reverse, last, rest)

/-! ## Scalars -/

/-- A character of a number, boolean or date. -/
def isScalarChar (c : Char) : Bool :=
  c.isAlphanum || c == '_' || c == '-' || c == '+' || c == '.' || c == ':'

/-- A number, boolean, date or time. -/
def isScalar (cs : List Char) : Bool :=
  let special := ["true", "false", "inf", "nan", "+inf", "-inf", "+nan", "-nan"]
  special.contains (String.ofList cs) || isInteger cs || isFraction cs || isMoment cs

/-- A number, boolean, date or time, as it is written.  A time after a date and a single space
belongs to it. -/
def scalar (cs : List Char) : Option (Value × List Char) :=
  let text := cs.takeWhile isScalarChar
  let rest := cs.dropWhile isScalarChar
  let time := rest.tail.takeWhile isScalarChar
  if isDate text && rest.head? == some ' ' && isTimeOfDate time then
    some (.scalar (String.ofList (text ++ ' ' :: time)), rest.tail.dropWhile isScalarChar)
  else if isScalar text then some (.scalar (String.ofList text), rest)
  else none

/-! ## Values -/

/-- Further items of an array, up to its closing bracket; a comma may stand before it. -/
def arrayItems (value : List Char → Option (Value × List Char)) :
    Nat → List Char → Option (List Value × List Char)
  | 0, _ => none
  | n + 1, cs =>
    match skipTrivia cs.length cs with
    | ']' :: rest => some ([], rest)
    | cs => do
      let (item, rest) ← value cs
      match skipTrivia rest.length rest with
      | ']' :: rest => return ([item], rest)
      | ',' :: rest =>
        let (items, rest) ← arrayItems value n rest
        return (item :: items, rest)
      | _ => none

/-- A key, an equals sign and a value. -/
def keyValue (value : List Char → Option (Value × List Char)) (cs : List Char) :
    Option (List String × String × Value × List Char) := do
  let (path, last, rest) ← key cs
  match skipInline rest with
  | '=' :: rest =>
    let (v, rest) ← value (skipInline rest)
    return (path, last, v, rest)
  | _ => none

/-- Further pairs of an inline table, up to its closing brace. -/
def inlinePairs (value : List Char → Option (Value × List Char)) :
    Nat → Entries → List Char → Option (Entries × List Char)
  | 0, _, _ => none
  | n + 1, entries, cs => do
    let (path, last, v, rest) ← keyValue value cs
    let entries ← addDotted last v path entries
    match skipInline rest with
    | '\x7d' :: rest => return (entries, rest)
    | ',' :: rest => inlinePairs value n entries rest
    | _ => none

/-- A value that holds no others: a text or another scalar. -/
def plainValue (cs : List Char) : Option (Value × List Char) :=
  if cs.head? = some '"' ∨ cs.head? = some '\'' then
    (quoted cs).map fun r => (.string r.1, r.2)
  else scalar cs

/-- A value whose arrays and inline tables are nested at most as deep as the first argument
says. -/
def value : Nat → List Char → Option (Value × List Char)
  | 0, cs => plainValue cs
  | depth + 1, cs =>
    match cs with
    | '[' :: rest =>
      (arrayItems (value depth) (rest.length + 1) rest).map fun r => (.array r.1, r.2)
    | '\x7b' :: rest =>
      match skipInline rest with
      | '\x7d' :: rest => some (.table .inline [], rest)
      | rest => (inlinePairs (value depth) (rest.length + 1) [] rest).map fun r =>
          (.table .inline r.1, r.2)
    | cs => plainValue cs

/-! ## Documents -/

/-- A document as far as it was read: its entries and the path of the table opened last. -/
structure Document where
  entries : Entries := []
  path : List String := []

/-- A header in double brackets, which opens a further table. -/
def elementHeader (d : Document) (cs : List Char) : Option (Document × List Char) := do
  let (path, last, rest) ← key cs
  match skipInline rest with
  | ']' :: ']' :: rest =>
    let entries ← atPath (openElement last) path d.entries
    return (⟨entries, path ++ [last]⟩, rest)
  | _ => none

/-- A header in single brackets, which opens a table. -/
def tableHeader (d : Document) (cs : List Char) : Option (Document × List Char) := do
  let (path, last, rest) ← key cs
  match skipInline rest with
  | ']' :: rest =>
    let entries ← atPath (openTable last) path d.entries
    return (⟨entries, path ++ [last]⟩, rest)
  | _ => none

/-- A key-value pair of the table opened last. -/
def pair (d : Document) (cs : List Char) : Option (Document × List Char) := do
  let (path, last, v, rest) ← keyValue (value nestingLimit) cs
  let entries ← atPath (addDotted last v path) d.path d.entries
  return (⟨entries, d.path⟩, rest)

/-- What stands on a line: a header or a pair. -/
def expression (d : Document) (cs : List Char) : Option (Document × List Char) :=
  match cs with
  | '[' :: '[' :: rest => elementHeader d rest
  | '[' :: rest => tableHeader d rest
  | cs => pair d cs

/-- Reads the lines of a document; the first argument bounds their number. -/
def lines : Nat → Document → List Char → Option Document
  | 0, d, _ => some d
  | n + 1, d, cs =>
    match lineEnd? cs with
    | some [] => some d
    | some rest => lines n d rest
    | none => do
      let (d, rest) ← expression d (skipInline cs)
      let rest ← lineEnd? rest
      lines n d rest

/-- Reads a document; a byte order mark before it is skipped. -/
def read (source : String) : Option Entries :=
  let cs := source.toList
  let cs := if cs.head? = some '\uFEFF' then cs.tail else cs
  (lines (cs.length + 1) {} cs).map (·.entries)

end Toml
end TypeShape
