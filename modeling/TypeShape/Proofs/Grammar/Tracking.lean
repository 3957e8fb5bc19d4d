import TypeShape.Proofs.Grammar.Places
import TypeShape.Proofs.Grammar.Reading

/-!
# How far parsers move, and where they fail

A parser moves forward over the tokens, never past the end of the text, and a type takes at least
one token.  An error that names a token is raised at that token.  Where the token was taken before,
as by the readers of words and of record keys, the error is reported at the place of the token that
follows, and otherwise at the place of the token itself.

Main results:

- Theorem `Parser.Reaches.bind`: one parser after another.
- Theorems `Parser.tracks_type`, `Parser.tracks_typeParam` and `Parser.tracks_overload`: what is
  read from whole texts takes tokens and fails at them.
- Theorem `SyntaxError.located`: which place is reported for the token that an error names.
-/

namespace TypeShape

/-! ## Places of errors -/

/-- The token that an error names. -/
def SyntaxCause.found? : SyntaxCause → Option TokenKind
  | notIdent found => some found
  | notKey found => some found
  | notType found => some found
  | trailing found => some found
  | _ => none

/-- The token was taken before the error was raised. -/
def SyntaxCause.namesTaken : SyntaxCause → Bool
  | notIdent _ => true
  | notKey _ => true
  | _ => false

/-- If the error names a token then it is the next one, and its place is reported, or the place of
the one after it. -/
def SyntaxError.RaisedAt (e : SyntaxError) (c : Cursor) : Prop :=
  ∀ found, e.cause.found? = some found →
    c.peek = found ∧ e.offset = (c.advance (if e.cause.namesTaken then 1 else 0)).offset

namespace Cursor

variable (c : Cursor)

/-- Advancing twice is advancing by the sum. -/
theorem advance_advance (m n : Nat) : (c.advance m).advance n = c.advance (m + n) := by
  rw [advance, advance, advance, List.drop_drop]

/-- Advancing takes as many tokens as there are, up to the given number. -/
theorem length_advance (n : Nat) : (c.advance n).rest.length = c.rest.length - n :=
  List.length_drop

/-- Moving past the end is moving to the end. -/
theorem advance_min (n : Nat) : c.advance (min n c.rest.length) = c.advance n := by
  rw [advance, advance]
  rcases Nat.le_total n c.rest.length with h | h
  · rw [Nat.min_eq_left h]
  · rw [Nat.min_eq_right h, List.drop_length, List.drop_eq_nil_of_le h]

/-- A cursor that does not look at the end has a token left. -/
theorem length_pos_of_peek {c : Cursor} (h : c.peek ≠ .eof) : 1 ≤ c.rest.length := by
  cases hrest : c.rest with
  | nil => exact absurd (by rw [peek, peekAt, hrest]; rfl) h
  | cons t ts => exact Nat.le_add_left _ _

end Cursor

namespace Parser

variable {α β : Type} {least least' : Nat}

/-- What a parser can come to from a cursor: it has moved past some tokens, at least as many as
given, or it has failed at one of the tokens. -/
inductive Reaches (least : Nat) (c : Cursor) : Except SyntaxError (α × Cursor) → Prop where
  | ok {a : α} {n : Nat} (hleast : least ≤ n) (hn : n ≤ c.rest.length) :
    Reaches least c (.ok (a, c.advance n))
  | error {e : SyntaxError} {n : Nat} (hn : n ≤ c.rest.length) (he : e.RaisedAt (c.advance n)) :
    Reaches least c (.error e)

/-- Wherever the parser starts, it takes at least as many tokens as given or fails at a token. -/
def Tracks (least : Nat) (p : Parser α) : Prop :=
  ∀ c, Reaches least c (p c)

namespace Reaches

variable {c : Cursor}

/-- A computation that takes more tokens takes fewer at least. -/
theorem mono {r : Except SyntaxError (α × Cursor)} (h : Reaches least c r) (hle : least' ≤ least) :
    Reaches least' c r := by
  cases h with
  | ok hleast hn => exact .ok (hle.trans hleast) hn
  | error hn he => exact .error hn he

/-- The tokens that two parsers take add up. -/
theorem bind {p : Parser α} {f : α → Parser β} (hp : Reaches least c (p c))
    (hf : ∀ a c', p c = .ok (a, c') → Reaches least' c' (f a c')) :
    Reaches (least + least') c ((p >>= f) c) := by
  change Reaches _ c ((p c).bind fun r => f r.1 r.2)
  cases hr : p c with
  | error e =>
    rw [hr] at hp
    cases hp with
    | error hn he => exact .error hn he
  | ok r =>
    obtain ⟨a, c'⟩ := r
    have hf := hf a c' hr
    rw [hr] at hp
    cases hp with
    | ok hleast hn =>
      rename_i m
      change Reaches _ c (f a (c.advance m))
      generalize f a (c.advance m) = result at hf
      cases hf with
      | ok hleast' hn' =>
        rw [c.length_advance] at hn'
        rw [c.advance_advance]
        exact .ok (Nat.add_le_add hleast hleast') (by omega)
      | error hn' he =>
        rw [c.length_advance] at hn'
        rw [c.advance_advance] at he
        exact .error (by omega) he

/-- Moving to the end is possible from everywhere. -/
theorem advance (a : α) (n : Nat) : Reaches 0 c (.ok (a, c.advance n)) := by
  rw [← c.advance_min]
  exact .ok (Nat.zero_le _) (Nat.min_le_right _ _)

/-- Advancing past a token takes one. -/
theorem advance_one (a : α) (h : c.peek ≠ .eof) : Reaches 1 c (.ok (a, c.advance 1)) :=
  .ok (Nat.le_refl _) (Cursor.length_pos_of_peek h)

end Reaches

namespace Tracks

/-- A parser that takes more tokens takes fewer at least. -/
theorem mono {p : Parser α} (h : Tracks least p) (hle : least' ≤ least) : Tracks least' p :=
  fun c => (h c).mono hle

/-- The first of two parsers takes enough tokens. -/
theorem before {p : Parser α} {f : α → Parser β} (hp : Tracks least p)
    (hf : ∀ a, Tracks least' (f a)) : Tracks least (p >>= f) :=
  fun c => ((hp c).bind fun a c' _ => hf a c').mono (Nat.le_add_right _ _)

/-- The second of two parsers takes enough tokens. -/
theorem after {p : Parser α} {f : α → Parser β} (hp : Tracks least' p)
    (hf : ∀ a, Tracks least (f a)) : Tracks least (p >>= f) :=
  fun c => ((hp c).bind fun a c' _ => hf a c').mono (Nat.le_add_left _ _)

end Tracks

/-! ## Single tokens -/

/-- A parser that only gives a value takes nothing. -/
theorem tracks_pure (a : α) : Tracks 0 (pure a : Parser α) :=
  fun _ => .advance a 0

/-- Looking ahead takes nothing. -/
theorem tracks_peek : Tracks 0 peek :=
  fun c => .advance c.peek 0

/-- Asking for the number of tokens left takes nothing. -/
theorem tracks_remaining : Tracks 0 remaining :=
  fun c => .advance c.rest.length 0

/-- Skipping may take nothing, since it stops at the end. -/
theorem tracks_skip (n : Nat) : Tracks 0 (skip n) :=
  fun _ => .advance () n

/-- An error that names no token can be raised anywhere. -/
theorem tracks_fail {cause : SyntaxCause} (h : cause.found? = none) :
    Tracks least (fail cause : Parser α) := by
  refine fun c => .error (Nat.zero_le _) fun found hfound => ?_
  change cause.found? = some found at hfound
  rw [h] at hfound
  cases hfound

/-- A token that is accepted may be missing. -/
theorem tracks_accept (kind : TokenKind) : Tracks 0 (accept kind) := by
  intro c
  unfold accept
  split
  · exact .advance true 1
  · exact .advance false 0

/-- A mark that decides between two ways to go on counts for the first of them. -/
theorem tracks_accept_bind {kind : TokenKind} (hkind : kind ≠ .eof) {p q : Parser α}
    (hp : Tracks least p) (hq : Tracks (1 + least) q) :
    Tracks (1 + least) (do if ← accept kind then p else q) := by
  intro c
  by_cases h : c.peek = kind
  · refine Reaches.bind (?_ : Reaches 1 c (accept kind c)) fun a c' ha => ?_
    · rw [accept, if_pos h]
      exact .advance_one true (h ▸ hkind)
    · rw [accept, if_pos h] at ha
      obtain ⟨rfl, rfl⟩ := Prod.mk.inj (Except.ok.inj ha)
      exact hp _
  · change Reaches _ c ((accept kind c).bind _)
    rw [accept, if_neg h]
    exact hq c

/-- A token that is required is taken. -/
theorem tracks_require {kind : TokenKind} (hkind : kind ≠ .eof) (what : Expected) :
    Tracks 1 (require kind what) :=
  tracks_accept_bind hkind (tracks_pure ()) (tracks_fail rfl)

/-! ## Tokens that decide -/

/-- The parser goes on from the given token, a number of tokens after it, and takes at least one
token with those. -/
def TracksFrom (taken : Nat) (kind : TokenKind) (p : Parser α) : Prop :=
  ∀ c, c.peek = kind → Reaches 1 c (p (c.advance taken))

namespace TracksFrom

variable {kind : TokenKind} {taken : Nat} {p : Parser α}

/-- The token itself was taken. -/
theorem one (hkind : kind ≠ .eof) (hp : Tracks least p) : TracksFrom 1 kind p := by
  rintro c rfl
  exact (Reaches.bind (p := next) (.advance_one _ hkind) fun _ c' _ => hp c').mono
    (Nat.le_add_right _ _)

/-- Tokens that are skipped count as taken. -/
theorem skip {n : Nat} (hp : TracksFrom (taken + n) kind p) :
    TracksFrom taken kind (do Parser.skip n; p) := by
  intro c hc
  change Reaches 1 c (p ((c.advance taken).advance n))
  rw [c.advance_advance]
  exact hp c hc

/-- The token is the mark that decides to go on. -/
theorem accept (hkind : kind ≠ .eof) (hp : Tracks least p) (q : Parser α) :
    TracksFrom 0 kind (do if ← Parser.accept kind then p else q) := by
  intro c hc
  change Reaches 1 c ((Parser.accept kind c).bind _)
  rw [Parser.accept, if_pos hc]
  exact one hkind hp c hc

/-- Looking ahead leaves the tokens that are known to be there. -/
theorem peek {f : TokenKind → Parser α} (h : ∀ ahead, TracksFrom taken kind (f ahead)) :
    TracksFrom taken kind (Parser.peek >>= f) :=
  fun c hc => h (c.advance taken).peek c hc

/-- An error that names the token is raised at it. -/
theorem fail {cause : SyntaxCause} (hfound : cause.found? = some kind)
    (htaken : (if cause.namesTaken then 1 else 0) = taken) :
    TracksFrom taken kind (Parser.fail cause : Parser α) := by
  refine fun c hc => .error (Nat.zero_le _) fun found hf => ⟨?_, ?_⟩
  · exact hc.trans (Option.some.inj (hfound.symm.trans hf))
  · rw [← htaken]
    rfl

end TracksFrom

/-- What follows a look at the next token may depend on it. -/
theorem tracks_peek_bind {f : TokenKind → Parser α} (h : ∀ kind, TracksFrom 0 kind (f kind)) :
    Tracks 1 (peek >>= f) :=
  fun c => h c.peek c rfl

/-- What follows when the next token was taken may depend on it. -/
theorem tracks_next_bind {f : TokenKind → Parser α} (h : ∀ kind, TracksFrom 1 kind (f kind)) :
    Tracks 1 (next >>= f) :=
  fun c => h c.peek c rfl

/-- What follows may depend on the tokens that are left, or not. -/
theorem tracks_get_bind {f : Cursor → Parser α} (h : ∀ c, Tracks least (f c)) :
    Tracks least (get >>= f) :=
  fun c => h c c

/-- A word is taken before it is known to be one. -/
theorem tracks_word : Tracks 1 word := by
  refine tracks_next_bind fun kind => ?_
  cases kind with
  | ident name => exact .one (by simp) (tracks_pure name)
  | _ => exact .fail rfl rfl

/-! ## Lists -/

/-- Further items after separators may be missing. -/
theorem tracks_more {separator : TokenKind} {item : Parser α} (h : Tracks least item) (n : Nat) :
    Tracks 0 (more separator item n) := by
  induction n with
  | zero => exact tracks_pure []
  | succ n ih =>
    refine (tracks_accept separator).after fun accepted => ?_
    split
    · exact h.after fun _ => ih.after fun _ => tracks_pure _
    · exact tracks_pure []

/-- A list with separators takes what its first item takes. -/
theorem tracks_sepBy {separator : TokenKind} {item : Parser α} (h : Tracks least item) :
    Tracks least (sepBy separator item) :=
  h.before fun _ => tracks_remaining.after fun n => (tracks_more h n).after fun _ => tracks_pure _

/-! ## Types, given a reader of primary types -/

/-- Optional marks may be missing. -/
theorem tracks_optionalMarks (n : Nat) (t : Ty) : Tracks 0 (optionalMarks n t) := by
  induction n generalizing t with
  | zero => exact tracks_pure t
  | succ n ih =>
    refine (tracks_accept _).after fun accepted => ?_
    split
    · exact ih _
    · exact tracks_pure t

/-- Further segments of a path may be missing. -/
theorem tracks_segments (first : String) : Tracks 0 (segments first) :=
  tracks_remaining.after fun n => (tracks_more tracks_word n).after fun _ => tracks_pure _

/-- A class object takes at least its closing bracket. -/
theorem tracks_singletonBody : Tracks 1 singletonBody :=
  (tracks_require (by simp) _).before fun _ => (tracks_accept _).after fun _ =>
    tracks_word.after fun first => (tracks_segments first).after fun _ =>
      (tracks_require (by simp) _).after fun _ => tracks_pure _

/-- The key of a record field is taken before its mark is known to follow. -/
theorem tracks_recordKey : Tracks 1 recordKey := by
  have hkey : ∀ key : Literal, Tracks 0 (do skip 1; return key : Parser Literal) := fun key =>
    (tracks_skip 1).after fun _ => tracks_pure key
  refine tracks_next_bind fun first => .peek fun ahead => ?_
  split
  · exact .one (by simp) (hkey _)
  · exact .one (by simp) (hkey _)
  · exact .one (by simp) (hkey _)
  · exact .one (by simp) (hkey _)
  · exact .fail rfl rfl

section Given

variable {primary : Parser Ty} (h : Tracks 1 primary)

include h

/-- An optional type takes a token if a primary type does. -/
theorem tracks_optionalType : Tracks 1 (optionalType primary) :=
  h.before fun t => tracks_remaining.after fun n => tracks_optionalMarks n t

/-- So does an intersection. -/
theorem tracks_interType : Tracks 1 (interType primary) :=
  (tracks_sepBy (tracks_optionalType h)).before fun _ => tracks_pure _

/-- So does a union, which is any type. -/
theorem tracks_anyType : Tracks 1 (anyType primary) :=
  (tracks_sepBy (tracks_interType h)).before fun _ => tracks_pure _

/-- So does a list of types. -/
theorem tracks_typeList : Tracks 1 (typeList primary) :=
  tracks_accept_bind (by simp) (tracks_pure []) <|
    (tracks_sepBy (tracks_anyType h)).before fun _ =>
      (tracks_require (by simp) _).after fun _ => tracks_pure _

/-! ### Parameters and blocks -/

/-- So does a parameter. -/
theorem tracks_param : Tracks 1 (param primary) := by
  have hany := tracks_anyType h
  refine tracks_get_bind fun c => ?_
  split
  · exact (tracks_skip _).after fun _ => hany.before fun _ => tracks_pure _
  · exact (tracks_skip _).after fun _ => hany.before fun _ => tracks_pure _
  · exact (tracks_skip _).after fun _ => hany.before fun _ => tracks_pure _
  · exact (tracks_skip _).after fun _ => hany.before fun _ => tracks_pure _
  · exact (tracks_skip _).after fun _ => hany.before fun _ => tracks_pure _
  · exact hany.before fun _ => tracks_pure _

/-- A parameter list takes at least its closing parenthesis. -/
theorem tracks_paramList :
    Tracks 1 (do
      if ← accept .rparen then pure {}
      else
        let items ← sepBy .comma (param primary)
        require .rparen .paramsEnd
        pure (items.foldl Param.addTo {})) :=
  tracks_accept_bind (by simp) (tracks_pure _) <|
    (tracks_sepBy (tracks_param h)).before fun _ =>
      (tracks_require (by simp) _).after fun _ => tracks_pure _

/-- A parameter list may be left out. -/
theorem tracks_params : Tracks 0 (params primary) := by
  refine (tracks_accept _).after fun opened => ?_
  split
  · exact (tracks_paramList h).mono (Nat.zero_le _)
  · exact tracks_pure _

/-- The receiver of a block may be left out. -/
theorem tracks_blockReceiver : Tracks 0 (blockReceiver primary) := by
  refine (tracks_accept _).after fun opened => ?_
  split
  · refine tracks_word.after fun name => ?_
    split
    · exact (tracks_require (by simp) _).after fun _ => (tracks_anyType h).after fun _ =>
        (tracks_require (by simp) _).after fun _ => tracks_pure _
    · exact tracks_fail rfl
  · exact tracks_pure _

/-- A block that was opened takes at least its closing brace. -/
theorem tracks_blockBody (optional : Bool) : Tracks 1 (blockBody primary optional) :=
  (tracks_params h).after fun _ => (tracks_blockReceiver h).after fun _ =>
    (tracks_require (by simp) _).after fun _ => (tracks_anyType h).after fun _ =>
      (tracks_require (by simp) _).before fun _ => tracks_pure _

/-- A block may be left out. -/
theorem tracks_block : Tracks 0 (block primary) := by
  refine tracks_get_bind fun c => ?_
  split
  · exact (tracks_skip _).after fun _ => (tracks_blockBody h true).after fun _ => tracks_pure _
  · exact (tracks_skip _).after fun _ => (tracks_blockBody h false).after fun _ => tracks_pure _
  · exact tracks_pure _

/-! ### Primary types -/

/-- A field of a record takes a token for its key. -/
theorem tracks_recordField : Tracks 1 (recordField primary) :=
  tracks_recordKey.before fun _ => (tracks_anyType h).after fun _ => tracks_pure _

/-- A record takes at least its closing brace. -/
theorem tracks_recordBody : Tracks 1 (recordBody primary) :=
  tracks_accept_bind (by simp) (tracks_pure _) <|
    (tracks_sepBy (tracks_recordField h)).before fun _ =>
      (tracks_require (by simp) _).after fun _ => tracks_pure _

/-- The type of a procedure takes at least its arrow. -/
theorem tracks_procBody : Tracks 1 (procBody primary) :=
  (tracks_params h).after fun _ => (tracks_block h).after fun _ =>
    (tracks_require (by simp) _).before fun _ => (tracks_optionalType h).after fun _ =>
      tracks_pure _

/-- Type arguments may be left out. -/
theorem tracks_typeArgs : Tracks 0 (typeArgs primary) := by
  refine (tracks_accept _).after fun opened => ?_
  split
  · exact (tracks_typeList h).mono (Nat.zero_le _)
  · exact tracks_pure []

/-- A path after its first segment may be at its end. -/
theorem tracks_nominalBody (absolute : Bool) (first : String) :
    Tracks 0 (nominalBody primary absolute first) := by
  refine (tracks_segments first).after fun path => (tracks_typeArgs h).after fun args => ?_
  split
  · split
    · exact tracks_pure _
    · exact tracks_fail rfl
  · exact tracks_pure _

/-- A name takes its first word. -/
theorem tracks_name : Tracks 1 (name primary) := by
  refine (tracks_accept _).after fun absolute => tracks_word.before fun first =>
    (?_ : Tracks 0 _)
  refine tracks_peek.after fun ahead => ?_
  split
  · split
    · exact tracks_singletonBody.mono (Nat.zero_le _)
    · split
      · exact tracks_pure _
      · exact tracks_nominalBody h absolute first
  · exact tracks_nominalBody h absolute first

/-- A primary type takes a token, whatever parses the types within it. -/
theorem tracks_primaryWith : Tracks 1 (primaryWith primary) := by
  refine tracks_peek_bind fun kind => ?_
  split
  · exact .skip (.one (by simp) ((tracks_anyType h).after fun _ =>
      (tracks_require (by simp) _).after fun _ => tracks_pure _))
  · exact .skip (.one (by simp) ((tracks_typeList h).after fun _ => tracks_pure _))
  · exact .skip (.one (by simp) (tracks_recordBody h))
  · exact .skip (.one (by simp) (tracks_procBody h))
  · exact .skip (.one (by simp) (tracks_pure _))
  · exact .skip (.one (by simp) (tracks_pure _))
  · exact .skip (.one (by simp) (tracks_pure _))
  · exact fun c _ => tracks_name h c
  · exact fun c _ => tracks_name h c
  · exact .fail rfl rfl

end Given

/-- A primary type takes a token at every depth. -/
theorem tracks_primary (depth : Nat) : Tracks 1 (primary depth) := by
  induction depth with
  | zero => exact tracks_peek_bind fun _ => .fail rfl rfl
  | succ depth ih => exact tracks_primaryWith ih

/-! ## Whole texts -/

/-- A type takes a token. -/
theorem tracks_type : Tracks 1 type :=
  tracks_remaining.after fun depth => tracks_anyType (tracks_primary depth)

/-- The markers of a type parameter may be left out. -/
theorem tracks_typeParamMarkers (n : Nat) (markers : Bool × Variance) :
    Tracks 0 (typeParamMarkers n markers) := by
  have hpair : Tracks 0 wordPair? := by
    intro c
    unfold wordPair?
    split
    · exact .advance _ 0
    · exact .advance _ 0
  induction n generalizing markers with
  | zero => exact tracks_pure markers
  | succ n ih =>
    refine hpair.after fun pair => ?_
    split
    · exact (tracks_skip _).after fun _ => ih _
    · exact (tracks_skip _).after fun _ => ih _
    · exact (tracks_skip _).after fun _ => ih _
    · exact tracks_pure markers

/-- A type parameter takes its name. -/
theorem tracks_typeParam : Tracks 1 typeParam := by
  refine tracks_remaining.after fun n => (tracks_typeParamMarkers n _).after fun markers =>
    tracks_word.before fun name => (tracks_accept .lt).after fun bounded => (?_ : Tracks 0 _)
  split
  · exact tracks_type.after fun _ => tracks_pure _
  · exact tracks_pure _

/-- Type parameters may be left out. -/
theorem tracks_typeParams : Tracks 0 typeParams := by
  refine (tracks_accept _).after fun opened => ?_
  split
  · exact (tracks_sepBy tracks_typeParam).after fun _ =>
      (tracks_require (by simp) _).after fun _ => tracks_pure _
  · exact tracks_pure []

/-- An overload takes at least its arrow. -/
theorem tracks_overload : Tracks 1 overload :=
  tracks_typeParams.after fun _ => tracks_remaining.after fun depth =>
    (tracks_params (tracks_primary depth)).after fun _ =>
      (tracks_block (tracks_primary depth)).after fun _ =>
        (tracks_require (by simp) _).before fun _ =>
          (tracks_anyType (tracks_primary depth)).after fun _ => tracks_pure _

/-- A whole text is rejected at one of its tokens or at its end. -/
theorem Tracks.exists_raisedAt {p : Parser α} (hp : Tracks least p) {source : String}
    {tokens : List Token} (hscan : Token.scan source = .ok tokens) {e : SyntaxError}
    (h : p.run source = .error e) :
    ∃ n ≤ tokens.length, e.RaisedAt (Cursor.advance ⟨tokens, source.utf8ByteSize⟩ n) := by
  have hreaches := hp ⟨tokens, source.utf8ByteSize⟩
  rw [run, hscan] at h
  change ((p ⟨tokens, source.utf8ByteSize⟩).bind _) = _ at h
  generalize p ⟨tokens, source.utf8ByteSize⟩ = result at h hreaches
  cases hreaches with
  | error hn he =>
    obtain rfl := Except.error.inj h
    exact ⟨_, hn, he⟩
  | ok _ hn =>
    refine ⟨_, hn, ?_⟩
    simp only [Except.bind] at h
    split at h
    · cases h
    · obtain rfl := Except.error.inj h
      exact fun found hfound => ⟨Option.some.inj hfound, rfl⟩

end Parser

/-! ## The token that an error names -/

/-- The kind of the token with a given number; after the last one is the end of the text. -/
def Token.kindAt (tokens : List Token) (i : Nat) : TokenKind :=
  (tokens.map Token.kind).getD i .eof

/-- The place where the token with a given number starts; after the last one is the end of the
text. -/
def Token.placeAt (source : String) (tokens : List Token) (i : Nat) : Nat :=
  (tokens.map Token.offset).getD i source.utf8ByteSize

namespace Token

variable {source : String} {tokens : List Token}

/-- What a cursor looks at after some tokens is the kind of the next. -/
theorem peek_advance (stop i : Nat) :
    (Cursor.advance ⟨tokens, stop⟩ i).peek = kindAt tokens i := by
  rw [Cursor.peek_eq, Cursor.kinds_advance, List.headD_eq_head?_getD, List.head?_drop, kindAt,
    List.getD_eq_getElem?_getD]
  rfl

/-- Where a cursor stands after some tokens is the place of the next. -/
theorem offset_advance (i : Nat) :
    (Cursor.advance ⟨tokens, source.utf8ByteSize⟩ i).offset = placeAt source tokens i := by
  rw [placeAt, List.getD_eq_getElem?_getD, List.getElem?_map, ← List.head?_drop, Cursor.offset,
    Cursor.advance]
  cases tokens.drop i <;> rfl

/-- The end is looked at when all tokens are taken, since none of them is an end itself. -/
theorem Placed.kindAt_eq_eof_iff {start : Nat} (h : Placed source start tokens) {i : Nat} :
    kindAt tokens i = .eof ↔ tokens.length ≤ i := by
  rw [kindAt, List.getD_eq_getElem?_getD, List.getElem?_map]
  rcases Nat.lt_or_ge i tokens.length with hi | hi
  · rw [List.getElem?_eq_getElem hi]
    exact iff_of_false (h.ne_eof _ (List.getElem_mem hi)) (Nat.not_le.mpr hi)
  · rw [List.getElem?_eq_none hi]
    exact iff_of_true rfl hi

/-- Every token starts before the next one and before the end of the text. -/
theorem Placed.placeAt_lt {start : Nat} (h : Placed source start tokens) {i : Nat}
    (hi : i < tokens.length) : placeAt source tokens i < placeAt source tokens (i + 1) := by
  simp only [placeAt, List.getD_eq_getElem?_getD, List.getElem?_map, List.getElem?_eq_getElem hi]
  rcases Nat.lt_or_ge (i + 1) tokens.length with hnext | hnext
  · rw [List.getElem?_eq_getElem hnext]
    exact List.pairwise_iff_getElem.mp h.ascending i (i + 1) hi hnext (Nat.lt_succ_self i)
  · rw [List.getElem?_eq_none hnext]
    exact h.lt_end _ (List.getElem_mem hi)

end Token

/-- The tokens of a text that is rejected stand in it after as many bytes as they say, and an error
that names one of them, or the end of the text, is reported at a place that depends on its kind.  It
is the place where the token starts if the token stands where a type should, or after everything.
It is the place where the next token starts if the token stands where an identifier or a record key
should; that is the place of the token only at the end of the text. -/
theorem SyntaxError.located {source : String} {tokens : List Token} {e : SyntaxError}
    {found : TokenKind} (hscan : Token.scan source = .ok tokens)
    (hrejected : Ty.parse source = .error e ∨ Overload.parse source = .error e ∨
      TypeParam.parse source = .error e)
    (hfound : e.cause.found? = some found) :
    (∀ t ∈ tokens, t.StandsIn source) ∧
    ∃ i ≤ tokens.length, Token.kindAt tokens i = found ∧ (found = .eof ↔ i = tokens.length) ∧
      e.offset = Token.placeAt source tokens (if e.cause.namesTaken then i + 1 else i) ∧
      (e.offset = Token.placeAt source tokens i ↔ e.cause.namesTaken = false ∨ found = .eof) := by
  have hplaced := Token.placed_of_scan hscan
  obtain ⟨i, hi, hraised⟩ :
      ∃ i ≤ tokens.length, e.RaisedAt (Cursor.advance ⟨tokens, source.utf8ByteSize⟩ i) := by
    rcases hrejected with h | h | h
    · exact Parser.tracks_type.exists_raisedAt hscan h
    · exact Parser.tracks_overload.exists_raisedAt hscan h
    · exact Parser.tracks_typeParam.exists_raisedAt hscan h
  obtain ⟨hkind, hoffset⟩ := hraised found hfound
  rw [Token.peek_advance] at hkind
  rw [Cursor.advance_advance, Token.offset_advance] at hoffset
  have heof : found = .eof ↔ i = tokens.length := by
    rw [← hkind, hplaced.kindAt_eq_eof_iff]
    omega
  refine ⟨hplaced.standsIn, i, hi, hkind, heof, ?_, ?_⟩
  · rw [hoffset]
    split <;> rfl
  · rw [hoffset, heof]
    cases e.cause.namesTaken with
    | false => exact iff_of_true rfl (Or.inl rfl)
    | true =>
      rcases Nat.lt_or_ge i tokens.length with hlt | hge
      · exact iff_of_false (hplaced.placeAt_lt hlt).ne' (by simp; omega)
      · refine iff_of_true ?_ (Or.inr (by omega))
        simp [Token.placeAt, List.getD_eq_getElem?_getD, hge, Nat.le_add_right_of_le hge]

/-- Two errors after a character of two bytes, one that names a token that was taken and one that
does not. -/
theorem SyntaxError.located_samples :
    let listed : List Token := [⟨.lbracket, 0⟩, ⟨.str "é", 1⟩, ⟨.comma, 5⟩, ⟨.colonColon, 7⟩,
      ⟨.integer 1, 9⟩, ⟨.rbracket, 10⟩]
    let bounded : List Token := [⟨.ident "T", 0⟩, ⟨.lt, 2⟩, ⟨.str "é", 4⟩, ⟨.pipe, 9⟩,
      ⟨.question, 11⟩]
    (Token.scan "[\"é\", ::1]" = .ok listed ∧
      Ty.parse "[\"é\", ::1]" = .error ⟨.notIdent (.integer 1), 10⟩ ∧
      ∃ i ≤ 6, Token.kindAt listed i = .integer 1 ∧
        10 = Token.placeAt "[\"é\", ::1]" listed (i + 1) ∧
        10 ≠ Token.placeAt "[\"é\", ::1]" listed i) ∧
    Token.scan "T < \"é\" | ?" = .ok bounded ∧
      TypeParam.parse "T < \"é\" | ?" = .error ⟨.notType .question, 11⟩ ∧
      ∃ i ≤ 5, Token.kindAt bounded i = .question ∧
        11 = Token.placeAt "T < \"é\" | ?" bounded i := by
  intro listed bounded
  have hlisted : Token.scan "[\"é\", ::1]" = .ok listed := by decide +kernel
  have hbounded : Token.scan "T < \"é\" | ?" = .ok bounded := by decide +kernel
  have hword : Ty.parse "[\"é\", ::1]" = .error ⟨.notIdent (.integer 1), 10⟩ :=
    eq_error_of_map (by decide +kernel)
  have htype : TypeParam.parse "T < \"é\" | ?" = .error ⟨.notType .question, 11⟩ :=
    eq_error_of_map (by decide +kernel)
  obtain ⟨-, i, hi, hkind, -, hoffset, hexact⟩ := located hlisted (Or.inl hword) rfl
  obtain ⟨-, j, hj, hkind', -, hoffset', -⟩ := located hbounded (Or.inr (Or.inr htype)) rfl
  exact ⟨⟨hlisted, hword, i, hi, hkind, hoffset, fun h => absurd (hexact.mp h) (by decide)⟩,
    hbounded, htype, j, hj, hkind', hoffset'⟩

end TypeShape
