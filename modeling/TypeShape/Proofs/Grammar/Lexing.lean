import Mathlib.Tactic.Common
import TypeShape.Grammar.Lexer

/-!
# Texts and their tokens

A text that is put together from smaller ones has the tokens of all of them, as long as no token
runs on into the next text.  A word, a number or a symbol may run on; it ends where a blank, a mark
or a colon follows that begins no symbol.  Marks, quoted texts and blanks never run on.

Main results:

- Theorem `Lexer.Lexes.append`: texts one after another.
- Theorems `Lexer.lexes_word`, `Lexer.lexes_integer`, `Lexer.lexes_quote` and
  `Lexer.lexes_symbol`: the tokens with a text of their own.
- Theorem `Lexer.Lexes.scan`: the tokens of a whole text.
-/

namespace TypeShape

/-- All lists but the first stand after a separator. -/
theorem intercalate_cons {α : Type} (separator l : List α) (ls : List (List α)) :
    separator.intercalate (l :: ls) = l ++ ls.flatMap (separator ++ ·) := by
  induction ls generalizing l with
  | nil => simp
  | cons l' ls ih => rw [List.intercalate_cons_cons, ih, List.flatMap_cons, List.append_assoc,
      List.append_assoc]

/-! ## Classes of characters -/

namespace Text

/-- Letters are told by their code points. -/
theorem isAlpha_eq (c : Char) :
    c.isAlpha = (decide (c.val ≥ 'A'.val ∧ c.val ≤ 'Z'.val) ||
      (decide (c.val ≥ 'a'.val) && decide (c.val ≤ 'z'.val))) :=
  rfl

/-- The characters of words are letters, digits and the underscore. -/
theorem isWordChar_iff {c : Char} :
    isWordChar c = true ↔
      (65 ≤ c.toNat ∧ c.toNat ≤ 90) ∨ (97 ≤ c.toNat ∧ c.toNat ≤ 122) ∨
        (48 ≤ c.toNat ∧ c.toNat ≤ 57) ∨ c.toNat = 95 := by
  simp [isWordChar, Char.isAlphanum, isAlpha_eq, Char.isDigit, UInt32.le_iff_toNat_le, Char.ext_iff,
    ← UInt32.toNat_inj]
  grind

/-- No character of a word is blank. -/
theorem isBlank_of_isWordChar {c : Char} (h : isWordChar c = true) : isBlank c = false := by
  rw [isWordChar_iff] at h
  simp [isBlank, blankRanges]
  omega

/-- No word starts with a digit. -/
theorem isDigit_of_isWordStart {c : Char} (h : isWordStart c = true) : c.isDigit = false := by
  simp_all [isWordStart, isAlpha_eq, Char.isDigit, UInt32.le_iff_toNat_le, Char.ext_iff,
    ← UInt32.toNat_inj]
  grind

/-- The character is written as itself in a quoted text, or with an escape that is read back. -/
def isLegible (c : Char) : Bool :=
  escape c == [c] || ['\n', '\t', '"', '\\'].contains c

/-- Digits can be part of words. -/
theorem isWordChar_of_isDigit {c : Char} (h : c.isDigit = true) : isWordChar c = true := by
  simp [isWordChar, Char.isAlphanum, h]

/-- A word has a first character that starts it and further ones that continue it. -/
theorem exists_of_isWord {w : String} (h : isWord w = true) :
    ∃ c cs, w.toList = c :: cs ∧ isWordStart c = true ∧ ∀ d ∈ c :: cs, isWordChar d = true := by
  unfold isWord at h
  cases hw : w.toList with
  | nil => simp [hw] at h
  | cons c cs =>
    simp only [hw, Bool.and_eq_true, List.all_eq_true] at h
    exact ⟨c, cs, rfl, h.1, List.forall_mem_cons.mpr ⟨isWordChar_of_isWordStart h.1, h.2⟩⟩

end Text

namespace Lexer

open Text

/-! ## Where tokens end -/

/-- No token runs on into the text: nothing follows, or a blank, a mark, or a colon that begins no
symbol. -/
def separates : List Char → Bool
  | [] => true
  | ':' :: c :: _ => c == ':' || c == ' '
  | c :: _ => c == ' ' || (mark? c).isSome

/-- Nothing is asked of the text. -/
def anything (_ : List Char) : Prop :=
  True

/-- No token runs on into the text. -/
def boundary (cs : List Char) : Prop :=
  separates cs = true

/-- The characters that are marks. -/
def marks : List Char :=
  ['(', ')', '[', ']', '\x7b', '\x7d', ',', '|', '&', '?', '^', '<']

/-- The marks of one character are listed. -/
theorem eq_of_mark? {c : Char} {kind : TokenKind} (h : mark? c = some kind) : c ∈ marks := by
  by_contra hmem
  simp only [marks, List.mem_cons, List.not_mem_nil, or_false, not_or] at hmem
  simp [mark?, hmem] at h

/-- No mark is blank. -/
theorem isBlank_of_mark? {c : Char} {kind : TokenKind} (h : mark? c = some kind) :
    isBlank c = false := by
  have hall : marks.all (fun c => !isBlank c) = true := rfl
  simpa using List.all_eq_true.mp hall c (eq_of_mark? h)

/-- No mark is part of a word. -/
theorem isWordChar_of_mark? {c : Char} {kind : TokenKind} (h : mark? c = some kind) :
    isWordChar c = false := by
  have hall : marks.all (fun c => !isWordChar c) = true := rfl
  simpa using List.all_eq_true.mp hall c (eq_of_mark? h)

/-- No character of a word is a mark. -/
theorem mark?_of_isWordChar {c : Char} (h : isWordChar c = true) : mark? c = none := by
  refine Option.eq_none_iff_forall_ne_some.mpr fun kind hmark => ?_
  rw [isWordChar_of_mark? hmark] at h
  cases h

/-- What separates starts with no character of a word. -/
theorem boundary.isWordChar {c : Char} {cs : List Char} (h : boundary (c :: cs)) :
    isWordChar c = false := by
  unfold boundary separates at h
  split at h
  · simp at *
  · rename_i heq
    obtain ⟨rfl, -⟩ := List.cons.inj heq
    decide
  · rename_i d ds _ heq
    obtain ⟨rfl, -⟩ := List.cons.inj heq
    rcases Bool.or_eq_true_iff.mp h with hblank | hmark
    · obtain rfl := beq_iff_eq.mp hblank
      decide
    · obtain ⟨kind, hkind⟩ := Option.isSome_iff_exists.mp hmark
      exact isWordChar_of_mark? hkind

/-- At a boundary it does not matter whether a word came before. -/
theorem lexeme_of_boundary {c : Char} {cs : List Char} (h : boundary (c :: cs))
    (hblank : isBlank c = false) (afterWord : Bool) (offset : Nat) :
    lexeme afterWord offset c cs = lexeme false offset c cs := by
  unfold boundary separates at h
  split at h
  · simp at *
  · rename_i d ds heq
    obtain ⟨rfl, rfl⟩ := List.cons.inj heq
    rcases Bool.or_eq_true_iff.mp h with hd | hd <;> obtain rfl := beq_iff_eq.mp hd
    · rfl
    · cases afterWord <;> rfl
  · rename_i d ds _ heq
    obtain ⟨rfl, rfl⟩ := List.cons.inj heq
    rcases Bool.or_eq_true_iff.mp h with hd | hmark
    · obtain rfl := beq_iff_eq.mp hd
      cases hblank
    · obtain ⟨kind, hkind⟩ := Option.isSome_iff_exists.mp hmark
      simp only [lexeme, hkind]

/-- At a boundary it does not matter whether a word ended before. -/
theorem scanFrom_of_boundary {cs : List Char} (h : boundary cs) (total n : Nat) (afterWord : Bool) :
    scanFrom total n afterWord cs = scanFrom total n false cs := by
  cases cs with
  | nil => simp only [scanFrom]
  | cons c cs =>
    cases n with
    | zero => rfl
    | succ n =>
      simp only [scanFrom]
      split
      · rfl
      · rename_i hblank
        rw [lexeme_of_boundary h (Bool.eq_false_iff.mpr hblank)]

/-! ## Texts one after another -/

/-- Wherever the text is followed by what is asked for, it is read as tokens of such kinds, and
reading goes on with what follows. -/
def Lexes (follow : List Char → Prop) (cs : List Char) (kinds : List TokenKind) : Prop :=
  ∀ total n rest, follow rest → (cs ++ rest).length ≤ n →
    ∃ n' tokens, rest.length ≤ n' ∧ tokens.map Token.kind = kinds ∧
      scanFrom total n false (cs ++ rest) = (scanFrom total n' false rest).map (tokens ++ ·)

namespace Lexes

variable {follow follow' : List Char → Prop} {cs cs' : List Char} {ks ks' : List TokenKind}

/-- No characters give no tokens. -/
theorem nil : Lexes follow [] [] := by
  intro total n rest _ hn
  refine ⟨n, [], hn, rfl, ?_⟩
  rw [List.nil_append]
  cases scanFrom total n false rest <;> rfl

/-- What may follow can be restricted. -/
theorem mono (h : Lexes follow cs ks) (hfollow : ∀ rest, follow' rest → follow rest) :
    Lexes follow' cs ks :=
  fun total n rest hrest => h total n rest (hfollow rest hrest)

/-- Texts that are read one by one are read together, if the second may follow the first. -/
theorem append (h : Lexes follow cs ks) (h' : Lexes follow' cs' ks')
    (hfollow : ∀ rest, follow' rest → follow (cs' ++ rest)) :
    Lexes follow' (cs ++ cs') (ks ++ ks') := by
  intro total n rest hrest hn
  rw [List.append_assoc] at hn ⊢
  obtain ⟨n₁, tokens, hn₁, hkinds, hscan⟩ := h total n (cs' ++ rest) (hfollow rest hrest) hn
  obtain ⟨n₂, tokens', hn₂, hkinds', hscan'⟩ := h' total n₁ rest hrest hn₁
  refine ⟨n₂, tokens ++ tokens', hn₂, ?_, ?_⟩
  · rw [List.map_append, hkinds, hkinds']
  · rw [hscan, hscan']
    cases scanFrom total n₂ false rest with
    | error e => rfl
    | ok ts => simp [Except.map]

/-- A text that never runs on can stand before any other. -/
theorem append_of_anything (h : Lexes anything cs ks) (h' : Lexes follow' cs' ks') :
    Lexes follow' (cs ++ cs') (ks ++ ks') :=
  h.append h' fun _ _ => trivial

/-- The tokens of a whole text. -/
theorem scan {source : String} (h : Lexes boundary source.toList ks) :
    ∃ tokens, Token.scan source = .ok tokens ∧ tokens.map Token.kind = ks := by
  obtain ⟨n', tokens, -, hkinds, hscan⟩ :=
    h source.utf8ByteSize source.toList.length [] rfl (by simp)
  rw [List.append_nil] at hscan
  refine ⟨tokens, ?_, hkinds⟩
  rw [Token.scan, hscan]
  simp [scanFrom, Except.map]

end Lexes

/-! ## Single tokens -/

/-- A blank gives no token. -/
theorem lexes_blank : Lexes anything [' '] [] := by
  intro total n rest _ hn
  obtain ⟨m, rfl⟩ : ∃ m, n = m + 1 := ⟨n - 1, by simp at hn; omega⟩
  refine ⟨m, [], by simpa using hn, rfl, ?_⟩
  change scanFrom total m false rest = _
  cases scanFrom total m false rest <;> rfl

/-- Scanning takes one lexeme and goes on behind it. -/
theorem scanFrom_cons {afterWord : Bool} {c : Char} {cs : List Char} {total n : Nat} {l : Lexeme}
    (hblank : isBlank c = false)
    (h : lexeme afterWord (total - byteLength (c :: cs)) c cs = .ok l) :
    scanFrom total (n + 1) afterWord (c :: cs) =
      (scanFrom total n l.wordEnd l.rest).map (⟨l.kind, total - byteLength (c :: cs)⟩ :: ·) := by
  simp only [scanFrom, hblank, Bool.false_eq_true, if_false, h]
  change (scanFrom total n l.wordEnd l.rest).bind _ = _
  cases scanFrom total n l.wordEnd l.rest <;> rfl

/-- A token that is read whatever follows, or up to a boundary. -/
theorem lexes_of_lexeme {follow : List Char → Prop} {c : Char} {cs : List Char} {kind : TokenKind}
    {w : Bool} (hblank : isBlank c = false)
    (h : ∀ offset rest, follow rest →
      lexeme false offset c (cs ++ rest) = .ok ⟨kind, rest, w⟩)
    (hend : w = true → ∀ rest, follow rest → boundary rest) :
    Lexes follow (c :: cs) [kind] := by
  intro total n rest hrest hn
  obtain ⟨m, rfl⟩ : ∃ m, n = m + 1 := ⟨n - 1, by simp at hn; omega⟩
  refine ⟨m, [⟨kind, total - byteLength (c :: cs ++ rest)⟩], by simp at hn; omega, rfl, ?_⟩
  have hafter : scanFrom total m w rest = scanFrom total m false rest := by
    cases w with
    | false => rfl
    | true => exact scanFrom_of_boundary (hend rfl rest hrest) total m true
  rw [List.cons_append, scanFrom_cons hblank (h _ rest hrest), hafter]
  rfl

/-- A mark gives its token, whatever follows. -/
theorem lexes_mark {c : Char} {kind : TokenKind} (h : mark? c = some kind) :
    Lexes anything [c] [kind] := by
  refine lexes_of_lexeme (w := false) (isBlank_of_mark? h) (fun offset rest _ => ?_) nofun
  simp only [lexeme, h, List.nil_append]

/-- An arrow is read as one token. -/
theorem lexes_arrow : Lexes anything ['-', '>'] [.arrow] :=
  lexes_of_lexeme (by decide) (fun _ _ _ => rfl) nofun

/-- So is a fat arrow. -/
theorem lexes_fatArrow : Lexes anything ['=', '>'] [.fatArrow] :=
  lexes_of_lexeme (by decide) (fun _ _ _ => rfl) nofun

/-- So are two stars. -/
theorem lexes_starStar : Lexes anything ['*', '*'] [.starStar] :=
  lexes_of_lexeme (by decide) (fun _ _ _ => rfl) nofun

/-- So are two colons. -/
theorem lexes_colonColon : Lexes anything [':', ':'] [.colonColon] :=
  lexes_of_lexeme (by decide) (fun _ _ _ => rfl) nofun

/-- A colon that a blank follows is a colon. -/
theorem lexes_colon : Lexes anything [':', ' '] [.colon] := by
  have hcolon : Lexes (fun rest => rest.head? = some ' ') [':'] [.colon] := by
    refine lexes_of_lexeme (w := false) (by decide) (fun offset rest hrest => ?_) nofun
    cases rest with
    | nil => cases hrest
    | cons c cs =>
      obtain rfl := Option.some.inj hrest
      rfl
  exact hcolon.append lexes_blank fun _ _ => rfl

/-- A single star is no pair of stars. -/
theorem lexes_star : Lexes (fun rest => rest.head? ≠ some '*') ['*'] [.star] := by
  refine lexes_of_lexeme (w := false) (by decide) (fun offset rest hrest => ?_) nofun
  cases rest with
  | nil => rfl
  | cons c cs =>
    have hc : c ≠ '*' := fun h => hrest (by rw [h]; rfl)
    have hmark : mark? '*' = none := rfl
    simp only [lexeme, hmark, if_true, List.nil_append]
    split
    · simp_all
    · rfl

/-- A text that starts with a star has one or two stars as its first token. -/
theorem Lexes.first_star {cs : List Char} {ks : List TokenKind}
    (h : Lexes boundary ('*' :: cs) ks) :
    ks.head? = some .star ∨ ks.head? = some .starStar := by
  obtain ⟨n', tokens, -, rfl, hscan⟩ := h 0 (cs.length + 1) [] rfl (by simp)
  obtain ⟨l, hl, hkind⟩ : ∃ l, lexeme false (0 - byteLength ('*' :: cs)) '*' cs = .ok l ∧
      (l.kind = .star ∨ l.kind = .starStar) := by
    have hmark : mark? '*' = none := rfl
    simp only [lexeme, hmark, if_true]
    split
    · exact ⟨_, rfl, Or.inr rfl⟩
    · exact ⟨_, rfl, Or.inl rfl⟩
  rw [List.append_nil, scanFrom_cons (by decide) hl] at hscan
  cases hrest : scanFrom 0 cs.length l.wordEnd l.rest with
  | error e =>
    rw [hrest, scanFrom] at hscan
    cases hscan
  | ok ts =>
    rw [hrest, scanFrom] at hscan
    have htokens := (Except.ok.inj hscan).symm
    beta_reduce at htokens
    rw [List.append_nil] at htokens
    rw [htokens]
    exact hkind.imp (congrArg some) (congrArg some)

/-! ## Words, numbers and quoted texts -/

/-- Characters of words are taken up to a boundary. -/
theorem takeWhile_append {p : Char → Bool} (hp : ∀ c, p c = true → isWordChar c = true)
    {cs rest : List Char} (hcs : ∀ c ∈ cs, p c = true) (hrest : boundary rest) :
    (cs ++ rest).takeWhile p = cs ∧ (cs ++ rest).dropWhile p = rest := by
  have hstop : rest.takeWhile p = [] ∧ rest.dropWhile p = rest := by
    cases rest with
    | nil => exact ⟨rfl, rfl⟩
    | cons c rest =>
      have hc : ¬ p c = true := by
        intro h
        have hword := hrest.isWordChar
        rw [hp c h] at hword
        cases hword
      exact ⟨List.takeWhile_cons_of_neg hc, List.dropWhile_cons_of_neg hc⟩
  rw [List.takeWhile_append_of_pos hcs, List.dropWhile_append_of_pos hcs, hstop.1, hstop.2]
  exact ⟨List.append_nil cs, rfl⟩

/-- A word takes all its characters and ends there. -/
theorem lexeme_of_isWordStart {c : Char} (h : isWordStart c = true) (offset : Nat)
    (cs : List Char) :
    lexeme false offset c cs = .ok ⟨.ident (String.ofList ((c :: cs).takeWhile isWordChar)),
      (c :: cs).dropWhile isWordChar, true⟩ := by
  have hne : ∀ d, isWordStart d = false → c ≠ d := by
    rintro d hd rfl
    rw [hd] at h
    cases h
  simp only [lexeme, mark?_of_isWordChar (isWordChar_of_isWordStart h), isDigit_of_isWordStart h, h,
    hne '*' rfl, hne '=' rfl, hne '-' rfl, hne '"' rfl, hne '\'' rfl, hne ':' rfl, decide_false,
    Bool.or_false, Bool.false_eq_true, if_false, if_true]

/-- A word is read back as an identifier. -/
theorem lexes_word {w : String} (h : isWord w = true) : Lexes boundary w.toList [.ident w] := by
  obtain ⟨c, cs, hw, hstart, hall⟩ := exists_of_isWord h
  rw [hw]
  refine lexes_of_lexeme (w := true) (isBlank_of_isWordChar (isWordChar_of_isWordStart hstart))
    (fun offset rest hrest => ?_) fun _ rest hrest => hrest
  obtain ⟨htake, hdrop⟩ := takeWhile_append (fun _ h => h) hall hrest
  rw [lexeme_of_isWordStart hstart, ← List.cons_append, htake, hdrop, ← hw, String.ofList_toList]

/-- In quotes a plain character stands for itself. -/
theorem quoted?_cons {close c : Char} {cs : List Char} (h : c ≠ close) (h' : c ≠ '\\') :
    quoted? close (c :: cs) = (quoted? close cs).map fun r => (c :: r.1, r.2) := by
  rw [quoted?.eq_def]
  simp only [if_neg h, if_neg h']

/-- In quotes a character after a backslash is unescaped. -/
theorem quoted?_backslash {close e : Char} {cs : List Char} (h : close ≠ '\\') :
    quoted? close ('\\' :: e :: cs) = (quoted? close cs).map fun r => (unescape e :: r.1, r.2) := by
  rw [quoted?.eq_def]
  simp only [if_neg h.symm, if_true]

/-- What is written for a legible character is read as the character. -/
theorem quoted?_escape {c : Char} (h : isLegible c = true) (cs : List Char) :
    quoted? '"' (escape c ++ cs) = (quoted? '"' cs).map fun r => (c :: r.1, r.2) := by
  rcases Bool.or_eq_true_iff.mp h with hself | hmem
  · have hself : escape c = [c] := beq_iff_eq.mp hself
    have hne : ∀ d, escape d ≠ [d] → c ≠ d := by
      rintro d hd rfl
      exact hd hself
    rw [hself]
    exact quoted?_cons (hne '"' (by decide)) (hne '\\' (by decide))
  · have hmem : c = '\n' ∨ c = '\t' ∨ c = '"' ∨ c = '\\' := by simpa using hmem
    rcases hmem with rfl | rfl | rfl | rfl <;> exact quoted?_backslash (by decide)

/-- Escaped characters are read back, up to the closing quote. -/
theorem quoted?_flatMap_escape {cs : List Char} (h : ∀ c ∈ cs, isLegible c = true)
    (rest : List Char) : quoted? '"' (cs.flatMap escape ++ '"' :: rest) = some (cs, rest) := by
  induction cs with
  | nil =>
    rw [List.flatMap_nil, List.nil_append, quoted?.eq_def]
    rfl
  | cons c cs ih =>
    obtain ⟨hc, hcs⟩ := List.forall_mem_cons.mp h
    rw [List.flatMap_cons, List.append_assoc, quoted?_escape hc, ih hcs]
    rfl

/-- The characters of a quoted text. -/
theorem toList_quote (s : String) :
    (quote s).toList = '"' :: (s.toList.flatMap escape ++ ['"']) := by
  simp [quote]

/-- A quote starts a text. -/
theorem lexeme_quote (afterWord : Bool) (offset : Nat) (cs : List Char) :
    lexeme afterWord offset '"' cs = quotedToken offset .str '"' cs :=
  rfl

/-- A colon starts a symbol or is a mark. -/
theorem lexeme_colon (afterWord : Bool) (offset : Nat) (cs : List Char) :
    lexeme afterWord offset ':' cs = colonToken afterWord offset cs :=
  rfl

/-- A colon before a quote starts a quoted symbol. -/
theorem colonToken_quote (offset : Nat) (cs : List Char) :
    colonToken false offset ('"' :: cs) = quotedToken (offset + 1) .symbol '"' cs :=
  rfl

/-- A quoted text is read back. -/
theorem lexes_quote {s : String} (h : ∀ c ∈ s.toList, isLegible c = true) :
    Lexes anything (quote s).toList [.str s] := by
  rw [toList_quote]
  refine lexes_of_lexeme (w := false) (by decide) (fun offset rest _ => ?_) nofun
  rw [lexeme_quote, quotedToken, List.append_assoc, List.singleton_append, quoted?_flatMap_escape h]
  simp only [String.ofList_toList]

/-- A symbol in quotes. -/
theorem lexes_symbol_quote {s : String} (h : ∀ c ∈ s.toList, isLegible c = true) :
    Lexes anything (':' :: (quote s).toList) [.symbol s] := by
  rw [toList_quote]
  refine lexes_of_lexeme (w := false) (by decide) (fun offset rest _ => ?_) nofun
  rw [lexeme_colon, List.cons_append, colonToken_quote, quotedToken, List.append_assoc,
    List.singleton_append, quoted?_flatMap_escape h]
  simp only [String.ofList_toList]

/-- A symbol that is one word. -/
theorem lexes_symbol_word {w : String} (h : isWord w = true) :
    Lexes boundary (':' :: w.toList) [.symbol w] := by
  obtain ⟨c, cs, hw, hstart, hall⟩ := exists_of_isWord h
  rw [hw]
  refine lexes_of_lexeme (w := true) (by decide) (fun offset rest hrest => ?_)
    fun _ rest hrest => hrest
  obtain ⟨htake, hdrop⟩ := takeWhile_append (fun _ h => h) hall hrest
  rw [lexeme_colon, List.cons_append]
  unfold colonToken
  split
  · rename_i heq
    obtain ⟨rfl, -⟩ := List.cons.inj heq
    cases hstart
  · rename_i d ds _ heq
    obtain ⟨rfl, rfl⟩ := List.cons.inj heq
    simp only [hstart, Bool.not_false, Bool.and_self, if_true]
    rw [← List.cons_append, htake, hdrop, ← hw, String.ofList_toList]
  · cases ‹c :: (cs ++ rest) = []›

/-- The decimal digits of a number, the first of them apart. -/
theorem exists_toDigits (n : Nat) :
    ∃ d ds, Nat.toDigits 10 n = d :: ds ∧ ∀ c ∈ d :: ds, c.isDigit = true := by
  cases hdigits : Nat.toDigits 10 n with
  | nil => exact absurd hdigits Nat.toDigits_ne_nil
  | cons d ds =>
    refine ⟨d, ds, rfl, fun c hc => ?_⟩
    exact Nat.isDigit_of_mem_toDigits (by decide) (by decide) (hdigits ▸ hc)

/-- A digit is no character that is none. -/
theorem ne_of_isDigit {c d : Char} (hc : c.isDigit = true) (hd : d.isDigit = false) : c ≠ d := by
  rintro rfl
  rw [hd] at hc
  cases hc

/-- The digits of a number have its value. -/
theorem digitsValue_toDigits (n : Nat) : digitsValue (Nat.toDigits 10 n) = n :=
  Nat.ofDigitChars_ten_toDigits

/-- The digits of a number within bounds are read as it. -/
theorem integer?_toDigits {n : Nat} (h : n < integerBound) :
    integer? (Nat.toDigits 10 n) = some (n : Int) := by
  obtain ⟨d, ds, hdigits, hall⟩ := exists_toDigits n
  have hvalue := digitsValue_toDigits n
  rw [hdigits] at hvalue ⊢
  have hd : d ≠ '-' := ne_of_isDigit (hall d List.mem_cons_self) rfl
  have hcheck : (d :: ds).all Char.isDigit = true := List.all_eq_true.mpr hall
  unfold integer?
  split
  · simp_all
  · simp only [hcheck, hvalue, h, List.isEmpty_cons, Bool.not_true, Bool.or_self, if_true,
      Bool.false_eq_true, if_false]

/-- With a minus sign they are read as its negative, which may be one further from zero. -/
theorem integer?_minus_toDigits {n : Nat} (h : n ≤ integerBound) :
    integer? ('-' :: Nat.toDigits 10 n) = some (-(n : Int)) := by
  obtain ⟨d, ds, hdigits, hall⟩ := exists_toDigits n
  have hvalue := digitsValue_toDigits n
  rw [hdigits] at hvalue ⊢
  have hcheck : (d :: ds).all Char.isDigit = true := List.all_eq_true.mpr hall
  simp only [integer?, hcheck, hvalue, h, List.isEmpty_cons, Bool.not_true, Bool.or_self, if_true,
    Bool.false_eq_true, if_false]

/-- A number is read up to a boundary, from its sign or first digit on. -/
theorem number_append {c : Char} {cs rest : List Char} {v : Int} (hc : c ≠ '_')
    (hcs : ∀ d ∈ cs, d.isDigit = true) (hv : integer? (c :: cs) = some v) (hrest : boundary rest)
    (offset : Nat) : number offset c (cs ++ rest) = .ok ⟨.integer v, rest, true⟩ := by
  have hinside : ∀ d : Char, (d.isDigit || d == '_') = true → isWordChar d = true := by
    intro d hd
    rcases Bool.or_eq_true_iff.mp hd with hd | hd
    · exact isWordChar_of_isDigit hd
    · obtain rfl := beq_iff_eq.mp hd
      rfl
  have hdigits : ∀ d ∈ cs, (d.isDigit || d == '_') = true := by simp_all
  obtain ⟨htake, hdrop⟩ := takeWhile_append hinside hdigits hrest
  have hfilter : (c :: cs).filter (· ≠ '_') = c :: cs := by
    refine List.filter_eq_self.mpr (List.forall_mem_cons.mpr ⟨by simpa using hc, fun d hd => ?_⟩)
    exact decide_eq_true (ne_of_isDigit (hcs d hd) rfl)
  simp only [number, htake, hdrop, hfilter, hv]

/-- An integer within bounds is read back. -/
theorem lexes_integer {v : Int} (hlow : -integerBound ≤ v) (hhigh : v < integerBound) :
    Lexes boundary (toString v).toList [.integer v] := by
  cases v with
  | ofNat n =>
    obtain ⟨d, ds, hdigits, hall⟩ := exists_toDigits n
    have hd := hall d List.mem_cons_self
    have htext : (toString (Int.ofNat n)).toList = d :: ds := by
      rw [← hdigits]
      exact Nat.toList_repr
    rw [htext]
    refine lexes_of_lexeme (w := true) (isBlank_of_isWordChar (isWordChar_of_isDigit hd))
      (fun offset rest hrest => ?_) fun _ rest hrest => hrest
    have hvalue : integer? (d :: ds) = some (n : Int) := by
      rw [← hdigits]
      exact integer?_toDigits (by simp only [Int.ofNat_eq_natCast] at hhigh; omega)
    have hnumber := number_append (ne_of_isDigit hd rfl)
      (fun c hc => hall c (List.mem_cons_of_mem d hc)) hvalue hrest offset
    simp only [lexeme, mark?_of_isWordChar (isWordChar_of_isDigit hd),
      ne_of_isDigit hd (d := '*') rfl, ne_of_isDigit hd (d := '=') rfl,
      ne_of_isDigit hd (d := '-') rfl, hd, if_true, if_false]
    exact hnumber
  | negSucc n =>
    obtain ⟨d, ds, hdigits, hall⟩ := exists_toDigits (n + 1)
    have hd := hall d List.mem_cons_self
    have htext : (toString (Int.negSucc n)).toList = '-' :: d :: ds := by
      rw [← hdigits, ← Nat.toList_repr]
      exact String.toList_append
    rw [htext]
    refine lexes_of_lexeme (w := true) (by decide) (fun offset rest hrest => ?_)
      fun _ rest hrest => hrest
    have hvalue : integer? ('-' :: d :: ds) = some (Int.negSucc n) := by
      rw [← hdigits, integer?_minus_toDigits (by omega)]
      rfl
    have hnumber := number_append (by decide) hall hvalue hrest offset
    have hmark : mark? '-' = none := rfl
    have hstar : '-' ≠ '*' := by decide
    have hequals : '-' ≠ '=' := by decide
    simp only [lexeme, hmark, hstar, hequals, if_false, if_true]
    split
    · simp_all
    · exact hnumber

end Lexer
end TypeShape
