/-!
# Blank characters

The characters that may stand between two tokens of a type expression.  They are the
characters with the Unicode property White_Space, which is larger than the blanks of ASCII:
a no-break space separates tokens, a zero-width space does not.

Main definition: `isBlank`.
-/

namespace TypeShape
namespace Text

/-- The code point ranges, both ends included, of the property White_Space. -/
def blankRanges : List (Nat × Nat) :=
  [(0x9, 0xd), (0x20, 0x20), (0x85, 0x85), (0xa0, 0xa0), (0x1680, 0x1680), (0x2000, 0x200a),
   (0x2028, 0x2029), (0x202f, 0x202f), (0x205f, 0x205f), (0x3000, 0x3000)]

/-- A blank character separates tokens and is otherwise skipped. -/
def isBlank (c : Char) : Bool :=
  blankRanges.any fun r => r.1 ≤ c.toNat && c.toNat ≤ r.2

end Text
end TypeShape
