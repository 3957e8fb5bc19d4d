import TypeShape.Proofs.Grammar.NormalForm
import TypeShape.Proofs.Grammar.Printed

/-!
# What tokens are made of

Identifiers are words, numbers have 64 bits, and the characters of texts and symbols come from the
text that is scanned.  So every type that is read is made of words, numbers in range and sets in
normal form, whatever the text.

Main results:

- Theorem `Token.madeOf_of_scan`: what the tokens of a text are made of.
- Theorems `Ty.wellSpelled_of_parse` and `Overload.wellSpelled_of_parse`: what types and overloads
  that are read are made of.
-/

namespace TypeShape

open Lexer Text

/-! ## Tokens -/

/-- Identifiers are words, numbers are in range, and texts are made of some characters. -/
def TokenKind.MadeOf (L : Char → Prop) : TokenKind → Prop
  | ident w => isWord w = true
  | integer value => -integerBound ≤ value ∧ value < integerBound
  | str text => ∀ c ∈ text.toList, L c
  | symbol name => ∀ c ∈ name.toList, L c
  | _ => True

/-- The token is the same wherever it stands. -/
def TokenKind.isMark : TokenKind → Bool
  | ident _ => false
  | integer _ => false
  | str _ => false
  | symbol _ => false
  | _ => true

/-- Marks are made of nothing that could be illegible. -/
theorem TokenKind.madeOf_of_isMark {L : Char → Prop} {kind : TokenKind} (h : kind.isMark = true) :
    kind.MadeOf L := by
  cases kind with
  | ident w => cases h
  | integer value => cases h
  | str text => cases h
  | symbol name => cases h
  | _ => trivial

namespace Lexer

variable {L : Char → Prop}

/-- Integers that are read are within bounds. -/
theorem bounds_of_integer? {ds : List Char} {value : Int} (h : integer? ds = some value) :
    -integerBound ≤ value ∧ value < integerBound := by
  have hpos : 0 < integerBound := by decide
  unfold integer? at h
  split at h
  · split at h
    · cases h
    · split at h
      · obtain rfl := Option.some.inj h
        constructor <;> omega
      · cases h
  · split at h
    · cases h
    · split at h
      · obtain rfl := Option.some.inj h
        constructor <;> omega
      · cases h

/-- What is taken as a word is one. -/
theorem isWord_takeWhile {c : Char} {cs : List Char} (h : isWordStart c = true) :
    isWord (String.ofList ((c :: cs).takeWhile isWordChar)) = true := by
  rw [List.takeWhile_cons_of_pos (isWordChar_of_isWordStart h), isWord, String.toList_ofList]
  simp [h]

/-- What is known of a token and of the characters after it. -/
structure Lexeme.MadeOf (L : Char → Prop) (l : Lexeme) : Prop where
  kind : l.kind.MadeOf L
  rest : ∀ c ∈ l.rest, L c

/-- A number that is read is made of good characters. -/
theorem number_madeOf {offset : Nat} {c : Char} {cs : List Char} {l : Lexeme}
    (h : number offset c cs = .ok l) (hcs : ∀ d ∈ cs, L d) : l.MadeOf L := by
  dsimp only [number] at h
  split at h
  · obtain rfl := Except.ok.inj h
    exact ⟨bounds_of_integer? ‹_›, fun d hd => hcs d (List.dropWhile_subset _ hd)⟩
  · cases h

/-- So is a mark. -/
theorem madeOf_of_mark? {c : Char} {kind : TokenKind} (h : mark? c = some kind) :
    kind.MadeOf L := by
  have hall : marks.all (fun c => (mark? c).all TokenKind.isMark) = true := rfl
  have hmark := List.all_eq_true.mp hall c (eq_of_mark? h)
  rw [h] at hmark
  exact TokenKind.madeOf_of_isMark hmark

section MadeOf

variable (hL : ∀ c, L c → L (unescape c))

include hL

/-- The text in quotes and the rest are made of good characters. -/
theorem quoted?_madeOf {close : Char} {cs : List Char} {r : List Char × List Char}
    (h : quoted? close cs = some r) (hcs : ∀ c ∈ cs, L c) :
    (∀ c ∈ r.1, L c) ∧ ∀ c ∈ r.2, L c := by
  fun_induction quoted? close cs generalizing r with
  | case1 => cases h
  | case2 cs =>
    obtain rfl := Option.some.inj h
    exact ⟨by simp, (List.forall_mem_cons.mp hcs).2⟩
  | case3 => cases h
  | case4 e cs _ ih =>
    obtain ⟨r, hr, rfl⟩ := Option.map_eq_some_iff.mp h
    obtain ⟨-, hcs⟩ := List.forall_mem_cons.mp hcs
    obtain ⟨he, hcs⟩ := List.forall_mem_cons.mp hcs
    obtain ⟨htext, hrest⟩ := ih hr hcs
    exact ⟨List.forall_mem_cons.mpr ⟨hL e he, htext⟩, hrest⟩
  | case5 c cs _ _ ih =>
    obtain ⟨r, hr, rfl⟩ := Option.map_eq_some_iff.mp h
    obtain ⟨hc, hcs⟩ := List.forall_mem_cons.mp hcs
    obtain ⟨htext, hrest⟩ := ih hr hcs
    exact ⟨List.forall_mem_cons.mpr ⟨hc, htext⟩, hrest⟩

/-- So is a token that is read from quotes. -/
theorem quotedToken_madeOf {offset : Nat} (make : String → TokenKind) {quote : Char}
    {cs : List Char} {l : Lexeme}
    (hmake : ∀ text : String, (∀ c ∈ text.toList, L c) → (make text).MadeOf L)
    (h : quotedToken offset make quote cs = .ok l) (hcs : ∀ c ∈ cs, L c) : l.MadeOf L := by
  unfold quotedToken at h
  split at h
  · obtain rfl := Except.ok.inj h
    obtain ⟨htext, hrest⟩ := quoted?_madeOf hL ‹_› hcs
    exact ⟨hmake _ (by simpa using htext), hrest⟩
  · cases h

/-- So is what is read after a colon. -/
theorem colonToken_madeOf {afterWord : Bool} {offset : Nat} {cs : List Char} {l : Lexeme}
    (h : colonToken afterWord offset cs = .ok l) (hcs : ∀ c ∈ cs, L c) : l.MadeOf L := by
  unfold colonToken at h
  split at h
  · obtain rfl := Except.ok.inj h
    exact ⟨trivial, (List.forall_mem_cons.mp hcs).2⟩
  · split at h
    · obtain rfl := Except.ok.inj h
      refine ⟨fun c hc => hcs c ?_, fun c hc => hcs c (List.dropWhile_subset _ hc)⟩
      rw [String.toList_ofList] at hc
      exact List.takeWhile_subset _ hc
    · split at h
      · exact quotedToken_madeOf hL .symbol (fun _ htext => htext) h (List.forall_mem_cons.mp hcs).2
      · obtain rfl := Except.ok.inj h
        exact ⟨trivial, hcs⟩
  · obtain rfl := Except.ok.inj h
    exact ⟨trivial, hcs⟩

/-- What a token is made of, by the character that it starts with. -/
theorem lexeme_madeOf {afterWord : Bool} {offset : Nat} {c : Char} {cs : List Char} {l : Lexeme}
    (h : lexeme afterWord offset c cs = .ok l) (hcs : ∀ d ∈ c :: cs, L d) : l.MadeOf L := by
  have hrest := (List.forall_mem_cons.mp hcs).2
  have hafter : ∀ {d : Char} {ds : List Char}, cs = d :: ds → ∀ e ∈ ds, L e := fun heq e he =>
    hrest e (heq ▸ List.mem_cons_of_mem _ he)
  unfold lexeme at h
  split at h
  · obtain rfl := Except.ok.inj h
    exact ⟨madeOf_of_mark? ‹_›, hrest⟩
  · split at h
    · split at h
      · obtain rfl := Except.ok.inj h
        exact ⟨trivial, hafter rfl⟩
      · obtain rfl := Except.ok.inj h
        exact ⟨trivial, hrest⟩
    · split at h
      · split at h
        · obtain rfl := Except.ok.inj h
          exact ⟨trivial, hafter rfl⟩
        · cases h
      · split at h
        · split at h
          · obtain rfl := Except.ok.inj h
            exact ⟨trivial, hafter rfl⟩
          · exact number_madeOf h hrest
        · split at h
          · exact number_madeOf h hrest
          · split at h
            · exact quotedToken_madeOf hL .str (fun _ htext => htext) h hrest
            · split at h
              · exact colonToken_madeOf hL h hrest
              · split at h
                · obtain rfl := Except.ok.inj h
                  exact ⟨isWord_takeWhile ‹_›, fun d hd => hcs d (List.dropWhile_subset _ hd)⟩
                · cases h

/-- So are all tokens of a text. -/
theorem madeOf_of_scanFrom {total n : Nat} {afterWord : Bool} {cs : List Char} {ts : List Token}
    (h : scanFrom total n afterWord cs = .ok ts) (hcs : ∀ c ∈ cs, L c) :
    ∀ t ∈ ts, t.kind.MadeOf L := by
  induction n generalizing afterWord cs ts with
  | zero => cases cs <;> obtain rfl := Except.ok.inj h <;> simp
  | succ n ih =>
    cases cs with
    | nil =>
      obtain rfl := Except.ok.inj h
      simp
    | cons c cs =>
      rw [scanFrom] at h
      split at h
      · exact ih h (List.forall_mem_cons.mp hcs).2
      · obtain ⟨l, hl, h⟩ := exists_of_bind_ok h
        obtain ⟨ts', hts', h⟩ := exists_of_bind_ok h
        obtain rfl := Except.ok.inj h
        obtain ⟨hkind, hrest⟩ := lexeme_madeOf hL hl hcs
        exact List.forall_mem_cons.mpr ⟨hkind, ih hts' hrest⟩

end MadeOf

end Lexer

/-- The tokens of a text are made of its characters. -/
theorem Token.madeOf_of_scan {L : Char → Prop} (hL : ∀ c, L c → L (unescape c)) {source : String}
    (hsource : ∀ c ∈ source.toList, L c) {ts : List Token} (h : Token.scan source = .ok ts) :
    ∀ t ∈ ts, t.kind.MadeOf L :=
  madeOf_of_scanFrom hL h hsource

/-! ## Sets of members -/

namespace Ty

/-- The test for spelling is kept by unions and intersections. -/
theorem stable_wellSpelledHere : Stable wellSpelledHere where
  untyped := rfl
  bot := rfl
  top := rfl
  union := stable_normalHere.union
  inter := stable_normalHere.inter

/-- So is the test for legible texts. -/
theorem stable_legibleHere : Stable legibleHere :=
  .of_sets rfl rfl rfl (fun _ => rfl) fun _ => rfl

end Ty

/-! ## What is read -/

namespace Parser

variable {L : Char → Prop}

/-- Parameters with good names are printable. -/
theorem Named.isPrintable {p : Params Ty} (h : Named (TokenKind.MadeOf L) p) :
    p.isPrintable = true := by
  simp only [Params.isPrintable, keywordsPrintable, Bool.and_eq_true, List.all_eq_true,
    decide_eq_true_eq]
  exact ⟨⟨h.keywords, h.sorted⟩, h.optionalKeywords, h.sortedOptional⟩

/-- So are callables. -/
theorem NamedCallable.isPrintable {c : Callable Ty} (h : NamedCallable (TokenKind.MadeOf L) c) :
    c.isPrintable = true := by
  refine Bool.and_eq_true_iff.mpr ⟨h.params.isPrintable, ?_⟩
  cases hb : c.block with
  | none => rfl
  | some b => exact (h.block b hb).isPrintable

/-- An integer token is in range. -/
theorem inRange_integer {value : Int} (h : TokenKind.MadeOf L (.integer value)) :
    (Literal.integer value).inRange = true := by
  simp only [Literal.inRange, Bool.and_eq_true, decide_eq_true_eq]
  exact h

/-- A key that is read is one that can be written, and in range. -/
theorem KeyOf.wellSpelled {key : Literal} (h : KeyOf (TokenKind.MadeOf L) key) :
    key.isKey = true ∧ key.inRange = true := by
  cases h with
  | integer hvalue => exact ⟨rfl, inRange_integer hvalue⟩
  | _ => exact ⟨rfl, rfl⟩

/-- Words make a path. -/
theorem isPath_ofString {path : List String} (hne : path ≠ [])
    (hwords : ∀ w ∈ path, Text.isWord w = true) :
    (TypeName.ofString ("::".intercalate path)).isPath = true := by
  rw [TypeName.ofString_intercalate hne hwords]
  exact TypeName.isPath_iff.mpr ⟨path, hne, hwords, rfl⟩

/-- Spelling is kept by everything that parses types. -/
theorem admits_wellSpelledHere : Admits (TokenKind.MadeOf L) Ty.wellSpelledHere where
  stable := Ty.stable_wellSpelledHere
  keyword {w t} h := by
    unfold wordType? at h
    split at h <;> first | (obtain rfl := Option.some.inj h; rfl) | cases h
  integer h := inRange_integer h
  string _ := rfl
  symbol _ := rfl
  var hword hcap := Bool.and_eq_true_iff.mpr ⟨hword, hcap⟩
  singleton hne hwords := isPath_ofString hne hwords
  named _ hne hwords := Bool.and_eq_true_iff.mpr ⟨isPath_ofString hne hwords, beq_self_eq_true _⟩
  tuple _ := rfl
  record hkeys hsorted := by
    simp only [Ty.wellSpelledHere, Bool.and_eq_true, List.all_eq_true, decide_eq_true_eq]
    exact ⟨fun f hf => (hkeys f hf).wellSpelled, hsorted⟩
  proc h := h.isPrintable

end Parser

/-- A type that is read is made of words, numbers in range and sets in normal form. -/
theorem Ty.wellSpelled_of_parse {source : String} {t : Ty} (h : Ty.parse source = .ok t) :
    t.WellSpelled :=
  (Parser.yields_type Parser.admits_wellSpelledHere).run
    (fun _ => Token.madeOf_of_scan (L := fun _ => True) (fun _ _ => trivial) fun _ _ => trivial) h

/-- So are the parts of an overload that is read. -/
theorem Overload.wellSpelled_of_parse {source : String} {o : Overload}
    (h : Overload.parse source = .ok o) : o.WellSpelled := by
  obtain ⟨htypes, hcallable, hparams⟩ := (Parser.yields_overload Parser.admits_wellSpelledHere).run
    (fun _ => Token.madeOf_of_scan (L := fun _ => True) (fun _ _ => trivial) fun _ _ => trivial) h
  exact ⟨htypes, hcallable.isPrintable, hparams⟩

end TypeShape
