/-!
# Words

A word is a letter or underscore followed by letters, digits and underscores.  Identifiers of
type expressions, keyword names and the symbols that are written without quotes are words.
Only ASCII letters and digits count.

Main definitions: `isWordStart`, `isWordChar`, `isWord`.
-/

namespace TypeShape
namespace Text

/-- A letter or an underscore. -/
def isWordStart (c : Char) : Bool :=
  c.isAlpha || c == '_'

/-- A letter, a digit or an underscore. -/
def isWordChar (c : Char) : Bool :=
  c.isAlphanum || c == '_'

/-- The text is one whole word. -/
def isWord (s : String) : Bool :=
  match s.toList with
  | [] => false
  | c :: cs => isWordStart c && cs.all isWordChar

/-- A character that may start a word may also continue one. -/
theorem isWordChar_of_isWordStart {c : Char} (h : isWordStart c = true) : isWordChar c = true := by
  simp only [isWordStart, isWordChar, Char.isAlphanum, Bool.or_eq_true] at h ⊢
  exact h.imp_left Or.inl

end Text
end TypeShape
