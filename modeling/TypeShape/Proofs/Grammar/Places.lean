import Mathlib.Data.String.Basic
import TypeShape.Proofs.Failure
import TypeShape.Proofs.Grammar.Lexing

/-!
# Where tokens stand

Every token of a text says how many bytes of the text come before it.  Each one takes at least one
character, so the tokens follow each other at growing places, all before the end of the text.

Main results:

- Theorem `Lexer.lexeme_taken`: a token takes its first character and leaves an end of the rest.
- Theorem `Token.placed_of_scan`: where the tokens of a text stand.
-/

namespace TypeShape

open Lexer

/-! ## Lengths in bytes -/

namespace Lexer

/-- The length of a text in bytes is that of its encoding. -/
theorem byteLength_eq (cs : List Char) : byteLength cs = String.utf8Len cs := by
  have hfrom : ∀ n, cs.foldl (fun n c => n + c.utf8Size) n = n + String.utf8Len cs := by
    induction cs with
    | nil => exact fun n => rfl
    | cons c cs ih =>
      intro n
      rw [List.foldl_cons, ih, String.utf8Len_cons]
      omega
  rw [byteLength, hfrom, Nat.zero_add]

/-! ## One token -/

/-- No mark is the end. -/
theorem ne_eof_of_mark? {c : Char} {kind : TokenKind} (h : mark? c = some kind) : kind ≠ .eof := by
  have hall : marks.all (fun c => mark? c ≠ some .eof) = true := rfl
  rintro rfl
  simpa [h] using List.all_eq_true.mp hall c (eq_of_mark? h)

/-- What is left after a token is an end of what followed its first character. -/
structure Lexeme.Taken (cs : List Char) (l : Lexeme) : Prop where
  kind : l.kind ≠ .eof
  rest : l.rest <:+ cs

/-- A number is taken from the front of the text. -/
theorem number_taken {offset : Nat} {c : Char} {cs : List Char} {l : Lexeme}
    (h : number offset c cs = .ok l) : l.Taken cs := by
  dsimp only [number] at h
  split at h
  · obtain rfl := Except.ok.inj h
    exact ⟨by simp, List.dropWhile_suffix _⟩
  · cases h

/-- What is left behind a quote is the end of the text. -/
theorem suffix_of_quoted? {close : Char} {cs : List Char} {r : List Char × List Char}
    (h : quoted? close cs = some r) : r.2 <:+ cs := by
  fun_induction quoted? close cs generalizing r with
  | case1 => cases h
  | case2 cs =>
    obtain rfl := Option.some.inj h
    exact List.suffix_cons _ _
  | case3 => cases h
  | case4 e cs _ ih =>
    obtain ⟨r, hr, rfl⟩ := Option.map_eq_some_iff.mp h
    exact ((ih hr).trans (List.suffix_cons _ _)).trans (List.suffix_cons _ _)
  | case5 c cs _ _ ih =>
    obtain ⟨r, hr, rfl⟩ := Option.map_eq_some_iff.mp h
    exact (ih hr).trans (List.suffix_cons _ _)

/-- A token in quotes is taken from the front of the text. -/
theorem quotedToken_taken {offset : Nat} {make : String → TokenKind} {quote : Char}
    {cs : List Char} {l : Lexeme} (hmake : ∀ text, make text ≠ .eof)
    (h : quotedToken offset make quote cs = .ok l) : l.Taken cs := by
  unfold quotedToken at h
  split at h
  · obtain rfl := Except.ok.inj h
    exact ⟨hmake _, suffix_of_quoted? ‹_›⟩
  · cases h

/-- So is what comes after a colon. -/
theorem colonToken_taken {afterWord : Bool} {offset : Nat} {cs : List Char} {l : Lexeme}
    (h : colonToken afterWord offset cs = .ok l) : l.Taken cs := by
  unfold colonToken at h
  split at h
  · obtain rfl := Except.ok.inj h
    exact ⟨by simp, List.suffix_cons _ _⟩
  · split at h
    · obtain rfl := Except.ok.inj h
      exact ⟨by simp, List.dropWhile_suffix _⟩
    · split at h
      · obtain ⟨hkind, hrest⟩ := quotedToken_taken (by simp) h
        exact ⟨hkind, hrest.trans (List.suffix_cons _ _)⟩
      · obtain rfl := Except.ok.inj h
        exact ⟨by simp, List.suffix_rfl⟩
  · obtain rfl := Except.ok.inj h
    exact ⟨by simp, List.suffix_rfl⟩

/-- No token is the end of the text, and each takes at least its first character. -/
theorem lexeme_taken {afterWord : Bool} {offset : Nat} {c : Char} {cs : List Char} {l : Lexeme}
    (h : lexeme afterWord offset c cs = .ok l) : l.Taken cs := by
  unfold lexeme at h
  split at h
  · obtain rfl := Except.ok.inj h
    exact ⟨ne_eof_of_mark? ‹_›, List.suffix_rfl⟩
  split at h
  · split at h
    · obtain rfl := Except.ok.inj h
      exact ⟨by simp, List.suffix_cons _ _⟩
    · obtain rfl := Except.ok.inj h
      exact ⟨by simp, List.suffix_rfl⟩
  split at h
  · split at h
    · obtain rfl := Except.ok.inj h
      exact ⟨by simp, List.suffix_cons _ _⟩
    · cases h
  split at h
  · split at h
    · obtain rfl := Except.ok.inj h
      exact ⟨by simp, List.suffix_cons _ _⟩
    · exact number_taken h
  split at h
  · exact number_taken h
  split at h
  · exact quotedToken_taken (by simp) h
  split at h
  · exact colonToken_taken h
  split at h
  · rename_i hstart
    obtain rfl := Except.ok.inj h
    refine ⟨by simp, ?_⟩
    rw [List.dropWhile_cons_of_pos (Text.isWordChar_of_isWordStart hstart)]
    exact List.dropWhile_suffix _
  · cases h

end Lexer

/-! ## All tokens of a text -/

/-- The token is what is read in the text after as many bytes as it says. -/
def Token.StandsIn (t : Token) (source : String) : Prop :=
  ∃ before after : String, source = before ++ after ∧ t.offset = before.utf8ByteSize ∧
    ∃ c cs afterWord l, after.toList = c :: cs ∧ lexeme afterWord t.offset c cs = .ok l ∧
      l.kind = t.kind

/-- Tokens stand in a text where they say, in their order, from a place on. -/
structure Token.Placed (source : String) (start : Nat) (tokens : List Token) : Prop where
  standsIn : ∀ t ∈ tokens, t.StandsIn source
  ne_eof : ∀ t ∈ tokens, t.kind ≠ .eof
  start_le : ∀ t ∈ tokens, start ≤ t.offset
  lt_end : ∀ t ∈ tokens, t.offset < source.utf8ByteSize
  ascending : tokens.Pairwise fun t t' => t.offset < t'.offset

/-- No tokens are placed anywhere. -/
theorem Token.Placed.nil (source : String) (start : Nat) : Token.Placed source start [] :=
  ⟨by simp, by simp, by simp, by simp, .nil⟩

/-- Tokens that start later also start after an earlier place. -/
theorem Token.Placed.of_le {source : String} {start start' : Nat} {tokens : List Token}
    (h : Token.Placed source start tokens) (hle : start' ≤ start) :
    Token.Placed source start' tokens :=
  { h with start_le := fun t ht => hle.trans (h.start_le t ht) }

/-- A token before others is placed with them. -/
theorem Token.Placed.cons {source : String} {start : Nat} {t : Token} {tokens : List Token}
    (h : Token.Placed source start tokens) (ht : t.StandsIn source) (hkind : t.kind ≠ .eof)
    (hstart : t.offset < start) (hend : t.offset < source.utf8ByteSize) :
    Token.Placed source t.offset (t :: tokens) where
  standsIn := List.forall_mem_cons.mpr ⟨ht, h.standsIn⟩
  ne_eof := List.forall_mem_cons.mpr ⟨hkind, h.ne_eof⟩
  start_le := List.forall_mem_cons.mpr
    ⟨Nat.le_refl _, fun t' ht' => hstart.le.trans (h.start_le t' ht')⟩
  lt_end := List.forall_mem_cons.mpr ⟨hend, h.lt_end⟩
  ascending := List.pairwise_cons.mpr
    ⟨fun t' ht' => hstart.trans_le (h.start_le t' ht'), h.ascending⟩

/-- The tokens that are read from what is left of a text stand after the part that was read. -/
theorem Lexer.placed_of_scanFrom {source : String} {n : Nat} {afterWord : Bool}
    (before : List Char) {cs : List Char} {tokens : List Token}
    (hsource : source = String.ofList (before ++ cs))
    (h : scanFrom source.utf8ByteSize n afterWord cs = .ok tokens) :
    Token.Placed source (String.utf8Len before) tokens := by
  induction n generalizing afterWord before cs tokens with
  | zero =>
    obtain rfl : tokens = [] := by cases cs <;> exact (Except.ok.inj h).symm
    exact .nil _ _
  | succ n ih =>
    cases cs with
    | nil =>
      obtain rfl := Except.ok.inj h
      exact .nil _ _
    | cons c cs =>
      have hpos := c.utf8Size_pos
      have htotal : source.utf8ByteSize =
          String.utf8Len before + (String.utf8Len cs + c.utf8Size) := by
        rw [hsource, String.utf8ByteSize_ofList, String.utf8Len_append, String.utf8Len_cons]
      have hoffset : source.utf8ByteSize - byteLength (c :: cs) = String.utf8Len before := by
        rw [htotal, byteLength_eq, String.utf8Len_cons, Nat.add_sub_cancel]
      rw [scanFrom] at h
      split at h
      · rw [List.append_cons] at hsource
        refine (ih _ hsource h).of_le ?_
        rw [String.utf8Len_append]
        exact Nat.le_add_right _ _
      · obtain ⟨l, hl, h⟩ := exists_of_bind_ok h
        obtain ⟨ts, hts, h⟩ := exists_of_bind_ok h
        obtain rfl := Except.ok.inj h
        simp only [hoffset] at hl ⊢
        obtain ⟨hkind, taken, hrest⟩ := lexeme_taken hl
        -- The rest of the text is scanned with this token's characters among those before it.
        have hplaced : Token.Placed source (String.utf8Len (before ++ c :: taken)) ts :=
          ih _ (by simp [hsource, ← hrest]) hts
        have hstands : Token.StandsIn ⟨l.kind, String.utf8Len before⟩ source :=
          ⟨String.ofList before, String.ofList (c :: cs), by rw [hsource, String.ofList_append],
            (String.utf8ByteSize_ofList _).symm, c, cs, afterWord, l, String.toList_ofList, hl, rfl⟩
        refine hplaced.cons hstands hkind ?_ ?_
        · simp only [String.utf8Len_append, String.utf8Len_cons]
          omega
        · simp only [htotal]
          omega

/-- Every token of a text stands where it says, and each after the ones before it. -/
theorem Token.placed_of_scan {source : String} {tokens : List Token}
    (h : Token.scan source = .ok tokens) : Token.Placed source 0 tokens :=
  placed_of_scanFrom [] String.ofList_toList.symm h

end TypeShape
