import TypeShape.Grammar.Parser
import TypeShape.Proofs.Grammar.Lexing

/-!
# Parsers and the tokens they read

A parser reads certain tokens as a value when it takes just these tokens and gives the value,
wherever they are followed by a token that does not continue them.  Such facts pass from the parts
of a parser to the whole, with the tokens put together in the same order.

Main results:

- Theorem `Parser.Reads.bind`: one parser after another.
- Theorem `Parser.reads_sepBy`: items with separators between them.
- Theorem `Parser.Reads.run`: a whole text.
-/

namespace TypeShape

/-! ## Tokens that are left -/

namespace Cursor

/-- The kinds of the tokens that are left. -/
def kinds (c : Cursor) : List TokenKind :=
  c.rest.map Token.kind

/-- The token ahead is told by the kinds that are left. -/
theorem peekAt_eq (c : Cursor) (n : Nat) : c.peekAt n = (c.kinds.drop n).headD .eof := by
  rw [peekAt, kinds, ← List.map_drop]
  cases c.rest.drop n <;> rfl

/-- So is the next token. -/
theorem peek_eq (c : Cursor) : c.peek = c.kinds.headD .eof :=
  c.peekAt_eq 0

/-- Advancing drops kinds. -/
theorem kinds_advance (c : Cursor) (n : Nat) : (c.advance n).kinds = c.kinds.drop n :=
  List.map_drop

/-- There are as many kinds as tokens left. -/
theorem length_kinds (c : Cursor) : c.kinds.length = c.rest.length :=
  List.length_map _

end Cursor

namespace Parser

variable {α β : Type}

/-- The first of the kinds, or the end of the text. -/
def first (ks : List TokenKind) : TokenKind :=
  ks.headD .eof

/-- Nothing is asked of the tokens that follow. -/
def anyTokens (_ : List TokenKind) : Prop :=
  True

/-- The tokens that follow do not start with the given kind. -/
def notBefore (kind : TokenKind) (rest : List TokenKind) : Prop :=
  first rest ≠ kind

/-- The tokens that follow start with one of the kinds, or it is the end of the text. -/
def before (kinds rest : List TokenKind) : Prop :=
  first rest ∈ kinds

instance (kinds rest : List TokenKind) : Decidable (before kinds rest) :=
  inferInstanceAs (Decidable (_ ∈ _))

/-- A token is before what starts with it. -/
theorem before_cons {kinds : List TokenKind} {kind : TokenKind} (h : kind ∈ kinds)
    (rest : List TokenKind) : before kinds (kind :: rest) :=
  h

/-- What starts with one of some kinds does not start with another. -/
theorem before.notBefore {kinds rest : List TokenKind} (h : before kinds rest) {kind : TokenKind}
    (hkind : kind ∉ kinds) : notBefore kind rest := by
  rintro rfl
  exact hkind h

/-- Wherever tokens of such kinds are followed by what is asked for, the parser takes them and gives
the value. -/
def Reads (follow : List TokenKind → Prop) (p : Parser α) (ks : List TokenKind) (a : α) : Prop :=
  ∀ c rest, c.kinds = ks ++ rest → follow rest → ∃ c', p c = .ok (a, c') ∧ c'.kinds = rest

namespace Reads

variable {follow follow' : List TokenKind → Prop} {p : Parser α} {f : α → Parser β}
  {ks ks' : List TokenKind} {a : α} {b : β}

/-- A value is read from no tokens. -/
theorem pure (a : α) : Reads follow (pure a) [] a :=
  fun c _ hc _ => ⟨c, rfl, hc⟩

/-- What may follow can be restricted. -/
theorem mono (h : Reads follow p ks a) (hfollow : ∀ rest, follow' rest → follow rest) :
    Reads follow' p ks a :=
  fun c rest hc hrest => h c rest hc (hfollow rest hrest)

/-- Parsers read one after another if the second may follow the first. -/
theorem bind (h : Reads follow p ks a) (h' : Reads follow' (f a) ks' b)
    (hfollow : ∀ rest, follow' rest → follow (ks' ++ rest)) :
    Reads follow' (p >>= f) (ks ++ ks') b := by
  intro c rest hc hrest
  obtain ⟨c₁, hp, hc₁⟩ := h c (ks' ++ rest) (by rw [hc, List.append_assoc]) (hfollow rest hrest)
  obtain ⟨c₂, hf, hc₂⟩ := h' c₁ rest hc₁ hrest
  refine ⟨c₂, ?_, hc₂⟩
  change (p c).bind (fun r => f r.1 r.2) = _
  rw [hp]
  exact hf

/-- A parser that never looks ahead can stand before any other. -/
theorem bind_of_anyTokens (h : Reads anyTokens p ks a) (h' : Reads follow' (f a) ks' b) :
    Reads follow' (p >>= f) (ks ++ ks') b :=
  h.bind h' fun _ _ => trivial

/-- A parser that takes nothing. -/
theorem bind_of_nil (h : Reads follow p [] a) (h' : Reads follow' (f a) ks' b)
    (hfollow : ∀ rest, follow' rest → follow (ks' ++ rest)) : Reads follow' (p >>= f) ks' b :=
  h.bind h' hfollow

/-- What is read may be mapped. -/
theorem map {g : α → β} (h : Reads follow p ks a) :
    Reads follow (p >>= fun a => Pure.pure (g a)) ks (g a) := by
  have hbind := h.bind (f := fun a => Pure.pure (g a)) (pure (g a)) fun rest hrest => hrest
  rwa [List.append_nil] at hbind

/-- What the next token decides. -/
theorem peek {f : TokenKind → Parser β}
    (h : ∀ rest, follow rest → Reads follow (f (first (ks ++ rest))) ks b) :
    Reads follow (Parser.peek >>= f) ks b := by
  intro c rest hc hrest
  obtain ⟨c', hf, hc'⟩ := h rest hrest c rest hc hrest
  refine ⟨c', ?_, hc'⟩
  change f c.peek c = _
  rw [c.peek_eq, hc]
  exact hf

/-- What the number of tokens that are left bounds. -/
theorem remaining {f : Nat → Parser β} (h : ∀ n, ks.length ≤ n → Reads follow (f n) ks b) :
    Reads follow (Parser.remaining >>= f) ks b := by
  intro c rest hc hrest
  have hn : ks.length ≤ c.rest.length := by
    rw [← c.length_kinds, hc, List.length_append]
    exact Nat.le_add_right _ _
  exact h c.rest.length hn c rest hc hrest

/-- A whole text. -/
theorem run {source : String} {tokens : List Token} (h : Reads follow p ks a)
    (hscan : Token.scan source = .ok tokens) (hkinds : tokens.map Token.kind = ks)
    (hend : follow []) : Parser.run p source = .ok a := by
  obtain ⟨c', hp, hc'⟩ := h ⟨tokens, source.utf8ByteSize⟩ [] (by rw [List.append_nil]; exact hkinds)
    hend
  have hpeek : c'.peek = .eof := by
    rw [c'.peek_eq, hc']
    rfl
  unfold Parser.run
  rw [hscan]
  change (p _).bind _ = _
  rw [hp]
  dsimp only [Except.bind]
  rw [hpeek]
  rfl

end Reads

/-! ## Single tokens -/

/-- The next token is read. -/
theorem reads_next (kind : TokenKind) : Reads anyTokens next [kind] kind := by
  intro c rest hc _
  refine ⟨c.advance 1, ?_, by rw [c.kinds_advance, hc]; rfl⟩
  rw [next, c.peek_eq, hc]
  rfl

/-- Tokens are read by skipping them. -/
theorem reads_skip (ks : List TokenKind) : Reads anyTokens (skip ks.length) ks () :=
  fun c rest hc _ => ⟨c.advance ks.length, rfl, by rw [c.kinds_advance, hc, List.drop_left]⟩

/-- An accepted token is read. -/
theorem reads_accept (kind : TokenKind) : Reads anyTokens (accept kind) [kind] true := by
  intro c rest hc _
  refine ⟨c.advance 1, ?_, by rw [c.kinds_advance, hc]; rfl⟩
  rw [accept, if_pos]
  rw [c.peek_eq, hc]
  rfl

/-- A token that does not come is not accepted. -/
theorem reads_not_accept (kind : TokenKind) : Reads (notBefore kind) (accept kind) [] false := by
  intro c rest hc hrest
  refine ⟨c, ?_, hc⟩
  rw [accept, if_neg]
  rw [c.peek_eq, hc]
  exact hrest

/-- A required token is read. -/
theorem reads_require (kind : TokenKind) (what : Expected) :
    Reads anyTokens (require kind what) [kind] () :=
  (reads_accept kind).bind_of_anyTokens (Reads.pure ())

/-- A word is read from its identifier. -/
theorem reads_word (name : String) : Reads anyTokens word [.ident name] name :=
  (reads_next (.ident name)).bind_of_anyTokens (Reads.pure name)

/-- A closing mark after what is read. -/
theorem reads_closed {follow : List TokenKind → Prop} {p : Parser α} {ks : List TokenKind} {a : α}
    {closing : TokenKind} (what : Expected) (g : α → β) (h : Reads follow p ks a)
    (hclosing : ∀ rest, follow (closing :: rest)) :
    Reads anyTokens
      (do
        let a ← p
        require closing what
        pure (g a))
      (ks ++ [closing]) (g a) := by
  refine h.bind ?_ fun rest _ => hclosing rest
  exact (reads_require closing what).bind_of_anyTokens (Reads.pure (g a))

/-! ## Lists -/

section Lists

variable {follow : List TokenKind → Prop} {item : Parser β} (separator : TokenKind)
  (toks : α → List TokenKind) (val : α → β)

/-- Further items are read after their separators. -/
theorem reads_more {xs : List α} (hitem : ∀ x ∈ xs, Reads follow item (toks x) (val x))
    (hfollow : ∀ rest, follow (separator :: rest)) {n : Nat} (hn : xs.length ≤ n) :
    Reads (fun rest => follow rest ∧ notBefore separator rest) (more separator item n)
      (xs.flatMap fun x => separator :: toks x) (xs.map val) := by
  induction xs generalizing n with
  | nil =>
    cases n with
    | zero => exact Reads.pure []
    | succ n =>
      exact (reads_not_accept separator).bind_of_nil (Reads.pure []) fun rest hrest => hrest.2
  | cons x xs ih =>
    obtain ⟨n, rfl⟩ : ∃ m, n = m + 1 := ⟨n - 1, by simp at hn; omega⟩
    obtain ⟨hx, hxs⟩ := List.forall_mem_cons.mp hitem
    have hmore := ih hxs (n := n) (by simpa using hn)
    refine (reads_accept separator).bind_of_anyTokens ?_
    refine hx.bind (hmore.map (g := (val x :: ·))) fun rest hrest => ?_
    cases xs with
    | nil => exact hrest.1
    | cons y ys => exact hfollow _

/-- One or more items with separators between them. -/
theorem reads_sepBy {xs : List α} (hne : xs ≠ [])
    (hitem : ∀ x ∈ xs, Reads follow item (toks x) (val x))
    (hfollow : ∀ rest, follow (separator :: rest)) :
    Reads (fun rest => follow rest ∧ notBefore separator rest) (sepBy separator item)
      ([separator].intercalate (xs.map toks)) (xs.map val) := by
  obtain ⟨x, xs, rfl⟩ := List.exists_cons_of_ne_nil hne
  obtain ⟨hx, hxs⟩ := List.forall_mem_cons.mp hitem
  rw [List.map_cons, intercalate_cons, List.flatMap_map]
  refine hx.bind (Reads.remaining fun n hn => ?_) fun rest hrest => ?_
  · have hlength : xs.length ≤ (xs.flatMap fun x => separator :: toks x).length := by
      clear hn hne hitem hxs
      induction xs with
      | nil => simp
      | cons y ys ih =>
        simp only [List.flatMap_cons, List.length_append, List.length_cons]
        omega
    exact (reads_more separator toks val hxs hfollow (Nat.le_trans hlength hn)).map
      (g := (val x :: ·))
  · cases xs with
    | nil => exact hrest.1
    | cons y ys => exact hfollow _

end Lists

/-! ## Types, given a reader of primary types -/

/-- What may follow a type. -/
def typeEnds : List TokenKind :=
  [.comma, .rparen, .rbracket, .rbrace, .arrow, .eof]

/-- What may follow a member of a union. -/
def memberEnds : List TokenKind :=
  .pipe :: typeEnds

/-- What may follow a member of an intersection. -/
def factorEnds : List TokenKind :=
  .amp :: memberEnds

/-- What ends a type ends a member. -/
theorem before.member {rest : List TokenKind} (h : before typeEnds rest) : before memberEnds rest :=
  List.mem_cons_of_mem _ h

/-- What ends a member ends a factor. -/
theorem before.factor {rest : List TokenKind} (h : before memberEnds rest) :
    before factorEnds rest :=
  List.mem_cons_of_mem _ h

/-- Items between commas up to a closing mark. -/
theorem reads_listUpTo {γ : Type} {item : Parser β} {closing : TokenKind} (what : Expected)
    {toks : α → List TokenKind} (val : α → β) (g : List β → γ) (hclosing : closing ∈ typeEnds)
    (hcomma : closing ≠ .comma) {xs : List α}
    (hitem : ∀ x ∈ xs, Reads (before typeEnds) item (toks x) (val x))
    (hfirst : ∀ x ∈ xs, ∀ rest, first (toks x ++ rest) ≠ closing) :
    Reads anyTokens
      (do
        if ← accept closing then pure (g [])
        else
          let xs ← sepBy .comma item
          require closing what
          pure (g xs))
      ([.comma].intercalate (xs.map toks) ++ [closing]) (g (xs.map val)) := by
  by_cases hne : xs = []
  · subst hne
    exact (reads_accept closing).bind_of_anyTokens (Reads.pure (g []))
  · have hlist := reads_sepBy .comma toks val hne hitem fun _ => List.mem_cons_self
    have hread := reads_closed what g hlist fun rest => ⟨hclosing, hcomma⟩
    refine (reads_not_accept closing).bind_of_nil hread fun rest _ => ?_
    obtain ⟨x, xs, rfl⟩ := List.exists_cons_of_ne_nil hne
    rw [notBefore, List.map_cons, intercalate_cons, List.append_assoc, List.append_assoc]
    exact hfirst x List.mem_cons_self _

/-- The token can be the first of a type. -/
def startsType : TokenKind → Bool
  | .ident _ => true
  | .integer _ => true
  | .str _ => true
  | .symbol _ => true
  | .colonColon => true
  | .lparen => true
  | .lbracket => true
  | .lbrace => true
  | .caret => true
  | _ => false

/-- The tokens begin with a type, and not with a keyword. -/
def opensType : List TokenKind → Bool
  | .ident _ :: .colon :: _ => false
  | kind :: _ => startsType kind
  | [] => false

/-- With whatever follows a type, the tokens begin with a type. -/
def Opens (ks : List TokenKind) : Prop :=
  ∀ rest, before factorEnds rest → opensType (ks ++ rest) = true

/-- A word opens a type. -/
theorem opens_word (w : String) : Opens [.ident w] := by
  intro rest hrest
  cases rest with
  | nil => rfl
  | cons kind rest =>
    have hcolon : kind ≠ .colon := hrest.notBefore (by decide)
    simp [opensType, startsType, hcolon]

/-- Any further tokens may follow if a colon may. -/
theorem opens_cons {kind : TokenKind} (h : opensType [kind, .colon] = true) (ks : List TokenKind) :
    Opens (kind :: ks) := by
  intro rest _
  cases kind with
  | ident w => cases h
  | _ => exact h

/-- What opens a type still does with more behind it. -/
theorem Opens.append {ks ks' : List TokenKind} (h : Opens ks)
    (hks : ∀ rest, before factorEnds rest → before factorEnds (ks' ++ rest)) :
    Opens (ks ++ ks') := by
  intro rest hrest
  rw [List.append_assoc]
  exact h (ks' ++ rest) (hks rest hrest)

/-- What opens a type starts one. -/
theorem Opens.startsType {ks : List TokenKind} (h : Opens ks) (rest : List TokenKind) :
    startsType (first (ks ++ rest)) = true := by
  have hopens := h [] (by decide)
  rw [List.append_nil] at hopens
  cases ks with
  | nil => cases hopens
  | cons kind ks =>
    unfold opensType at hopens
    split at hopens
    · cases hopens
    · rename_i heq
      rw [← (List.cons.inj heq).1] at hopens
      exact hopens
    · rename_i heq
      cases heq

section Types

variable {p : Parser Ty} {ks : List TokenKind} {t : Ty} {xs : List α}

/-- No optional marks are read where a factor ends. -/
theorem reads_optionalMarks (n : Nat) (t : Ty) :
    Reads (before factorEnds) (optionalMarks n t) [] t := by
  cases n with
  | zero => exact Reads.pure t
  | succ n =>
    exact (reads_not_accept .question).bind_of_nil (Reads.pure t) fun rest hrest =>
      hrest.notBefore (by decide)

/-- A primary type is read where a factor ends. -/
theorem reads_optionalType (h : Reads (before factorEnds) p ks t) :
    Reads (before factorEnds) (optionalType p) ks t := by
  have hbind := h.bind (f := fun t => do optionalMarks (← remaining) t)
    (Reads.remaining fun n _ => reads_optionalMarks n t) fun rest hrest => hrest
  rwa [List.append_nil] at hbind

/-- Factors with ampersands between them are joined. -/
theorem reads_interType (toks : α → List TokenKind) (val : α → Ty) (hne : xs ≠ [])
    (h : ∀ x ∈ xs, Reads (before factorEnds) p (toks x) (val x)) :
    Reads (before memberEnds) (interType p) ([.amp].intercalate (xs.map toks))
      (joinMembers Ty.interOf (xs.map val)) := by
  have hsep := reads_sepBy .amp toks val hne (fun x hx => reads_optionalType (h x hx))
    fun _ => List.mem_cons_self
  exact (hsep.map (g := joinMembers Ty.interOf)).mono fun rest (hrest : before memberEnds rest) =>
    ⟨hrest.factor, hrest.notBefore (by decide)⟩

/-- A member of a union that is no intersection. -/
theorem reads_interType_single (h : Reads (before factorEnds) p ks t) :
    Reads (before memberEnds) (interType p) ks t := by
  have hread := reads_interType (fun _ => ks) (fun _ => t) (List.cons_ne_nil () []) fun _ _ => h
  rwa [List.map_singleton, List.intercalate_singleton] at hread

/-- Members with bars between them are joined. -/
theorem reads_anyType (toks : α → List TokenKind) (val : α → Ty) (hne : xs ≠ [])
    (h : ∀ x ∈ xs, Reads (before memberEnds) (interType p) (toks x) (val x)) :
    Reads (before typeEnds) (anyType p) ([.pipe].intercalate (xs.map toks))
      (joinMembers Ty.unionOf (xs.map val)) := by
  have hsep := reads_sepBy .pipe toks val hne h fun _ => List.mem_cons_self
  exact (hsep.map (g := joinMembers Ty.unionOf)).mono fun rest (hrest : before typeEnds rest) =>
    ⟨hrest.member, hrest.notBefore (by decide)⟩

/-- A type that is no union. -/
theorem reads_anyType_single (h : Reads (before memberEnds) (interType p) ks t) :
    Reads (before typeEnds) (anyType p) ks t := by
  have hread := reads_anyType (fun _ => ks) (fun _ => t) (List.cons_ne_nil () []) fun _ _ => h
  rwa [List.map_singleton, List.intercalate_singleton] at hread

end Types

end Parser
end TypeShape
