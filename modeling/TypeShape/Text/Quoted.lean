import TypeShape.Text.Hidden

/-!
# Quoted text

How a text is written between double quotes: the common controls have short escapes, quotes and
backslashes are escaped, any other character that cannot be seen is written by its code point,
and everything else stands for itself.

Main definitions: `escape` for one character, `quote` for a whole text.
-/

namespace TypeShape
namespace Text

/-- A character of ASCII that is not a control. -/
def isVisibleAscii (c : Char) : Bool :=
  0x20 ≤ c.toNat && c.toNat < 0x7f

/-- A character that is written as itself when no escape of its own exists. -/
def isVisible (c : Char) : Bool :=
  isVisibleAscii c || (0x80 ≤ c.toNat && !isHidden c)

/-- The escape that spells a character by its code point in hexadecimal. -/
def codePoint (c : Char) : List Char :=
  ['\\', 'u', '\x7b'] ++ Nat.toDigits 16 c.toNat ++ ['\x7d']

/-- The written form of one character inside a quoted text. -/
def escape (c : Char) : List Char :=
  if c = '\x00' then ['\\', '0']
  else if c = '\t' then ['\\', 't']
  else if c = '\n' then ['\\', 'n']
  else if c = '\r' then ['\\', 'r']
  else if c = '"' then ['\\', '"']
  else if c = '\\' then ['\\', '\\']
  else if isVisible c then [c]
  else codePoint c

/-- A text between double quotes, with its characters escaped. -/
def quote (s : String) : String :=
  String.ofList (['"'] ++ s.toList.flatMap escape ++ ['"'])

end Text
end TypeShape
