import TypeShape.Proofs.Grammar.Descent

/-!
# Parsers move on

The position of a parser in its text is the number of tokens before it, and at the end of the text
a token can be taken without moving on.  Still every reader that succeeds has moved on, and so has
every round of a loop after which the loop goes on.  So loops end after as many rounds as there are
tokens, and readers of types call each other no deeper than that.

Main results:

- Theorem `Parser.loop_eq`: a loop whose rounds take tokens ends by itself.
- Theorem `Parser.more_eq_loop`: lists are such loops.
- Theorem `Parser.progress_and_termination`: readers and loops move on, and the bounds on them are
  never used up.
-/

namespace TypeShape

/-- The cursor at the token with a given number. -/
def Token.cursorAt (source : String) (tokens : List Token) (i : Nat) : Cursor :=
  ⟨tokens.drop i, source.utf8ByteSize⟩

namespace Parser

variable {α σ : Type} {least : Nat}

/-! ## Loops -/

/-- Rounds of a loop, at most as many as given.  A round says whether the loop goes on; `spent` is
for a loop that does when no round is left. -/
def loop (round : σ → Parser (ForInStep σ)) (spent : σ → Parser σ) : Nat → σ → Parser σ
  | 0, s => spent s
  | rounds + 1, s => do
    match ← round s with
    | .yield s' => loop round spent rounds s'
    | .done s' => pure s'

/-- After a round the loop goes on only if tokens were taken, and not at the end of the text. -/
structure RoundTracks (round : σ → Parser (ForInStep σ)) : Prop where
  yields : ∀ {s s' c c'}, round s c = .ok (.yield s', c') → Reaches 1 c (round s c)
  ends : ∀ {s c}, c.rest = [] → round s c = .ok (.done s, c)

/-- Bounds that allow for the tokens that are left are never used up. -/
theorem loop_eq {round : σ → Parser (ForInStep σ)} (h : RoundTracks round) (spent : σ → Parser σ)
    {n k : Nat} {c : Cursor} (hn : c.rest.length ≤ n) (hk : c.rest.length < k) (s : σ) :
    loop round pure n s c = loop round spent k s c := by
  induction n generalizing k c s with
  | zero =>
    -- The bound is used up only when no token is left, and there the next round leaves the loop.
    obtain ⟨k, rfl⟩ : ∃ k', k = k' + 1 := ⟨k - 1, by omega⟩
    change _ = (round s c).bind _
    rw [h.ends (List.eq_nil_of_length_eq_zero (Nat.le_zero.mp hn))]
    rfl
  | succ n ih =>
    obtain ⟨k, rfl⟩ : ∃ k', k = k' + 1 := ⟨k - 1, by omega⟩
    change (round s c).bind _ = (round s c).bind _
    cases hround : round s c with
    | error e => rfl
    | ok result =>
      obtain ⟨step, c'⟩ := result
      cases step with
      | done s' => rfl
      | yield s' =>
        have hreaches := h.yields hround
        rw [hround] at hreaches
        cases hreaches with
        | ok hleast _ =>
          have hlength := c.length_advance
          exact ih (by rw [hlength]; omega) (by rw [hlength]; omega) s'

/-- A mark decides whether the loop goes on. -/
theorem roundTracks_accept {kind : TokenKind} (hkind : kind ≠ .eof)
    {go : σ → Parser (ForInStep σ)} (hgo : ∀ s, Tracks least (go s)) :
    RoundTracks fun s => do if ← accept kind then go s else pure (.done s) where
  yields := by
    intro s s' c c' hround
    by_cases hpeek : c.peek = kind
    · exact TracksFrom.accept hkind (hgo s) _ c hpeek
    · change (accept kind c).bind _ = _ at hround
      rw [accept, if_neg hpeek] at hround
      cases hround
  ends := by
    rintro s ⟨rest, stop⟩ rfl
    have hpeek : Cursor.peek ⟨[], stop⟩ ≠ kind := Ne.symm hkind
    change (accept kind _).bind _ = _
    rw [accept, if_neg hpeek]
    rfl

/-- A round of a list: an item if a separator comes before it. -/
def listRound (separator : TokenKind) (item : Parser α) (xs : List α) :
    Parser (ForInStep (List α)) := do
  if ← accept separator then return .yield (xs ++ [← item]) else return .done xs

/-- A round of question marks. -/
def markRound (t : Ty) : Parser (ForInStep Ty) := do
  if ← accept .question then return .yield t.optional else return .done t

/-- A round of the markers before the name of a type parameter. -/
def markerRound (markers : Bool × Variance) : Parser (ForInStep (Bool × Variance)) := do
  match ← wordPair? with
  | some "unchecked" => do
    skip 1
    return .yield (true, markers.2)
  | some "out" => do
    skip 1
    return .yield (markers.1, .covariant)
  | some "in" => do
    skip 1
    return .yield (markers.1, .contravariant)
  | _ => return .done markers

/-- A round of a list takes its separator. -/
theorem roundTracks_listRound {separator : TokenKind} (hseparator : separator ≠ .eof)
    {item : Parser α} (hitem : Tracks least item) : RoundTracks (listRound separator item) :=
  roundTracks_accept hseparator fun _ => hitem.before fun _ => tracks_pure _

/-- A round of optional marks takes a mark. -/
theorem roundTracks_markRound : RoundTracks markRound :=
  roundTracks_accept (by simp) fun _ => tracks_pure _

/-- The further items of a list are read in rounds, each of which adds one at the end. -/
theorem more_eq_loop (separator : TokenKind) (item : Parser α) (n : Nat) (xs : List α) :
    (do return xs ++ (← more separator item n)) = loop (listRound separator item) pure n xs := by
  induction n generalizing xs with
  | zero => simp [more, loop]
  | succ n ih =>
    simp only [more, loop, listRound, bind_assoc]
    refine bind_congr fun accepted => ?_
    cases accepted with
    | false => simp
    | true =>
      simp only [↓reduceIte, bind_assoc, pure_bind, ← ih, List.append_assoc, List.cons_append,
        List.nil_append]

/-- Optional marks are read in rounds. -/
theorem optionalMarks_eq_loop (n : Nat) (t : Ty) :
    optionalMarks n t = loop markRound pure n t := by
  induction n generalizing t with
  | zero => rfl
  | succ n ih =>
    simp only [optionalMarks, loop, markRound, bind_assoc]
    refine bind_congr fun accepted => ?_
    cases accepted with
    | false => simp
    | true => simp [ih]

/-- The markers of a type parameter are read in rounds. -/
theorem typeParamMarkers_eq_loop (n : Nat) (markers : Bool × Variance) :
    typeParamMarkers n markers = loop markerRound pure n markers := by
  induction n generalizing markers with
  | zero => rfl
  | succ n ih =>
    simp only [typeParamMarkers, loop, markerRound, bind_assoc]
    refine bind_congr fun pair => ?_
    split <;> simp [ih]

/-- Two words that follow are looked at, and the first of them is a token. -/
theorem wordPair?_eq (c : Cursor) :
    ∃ pair, wordPair? c = .ok (pair, c) ∧ (pair ≠ none → c.peek ≠ .eof) := by
  unfold wordPair?
  split
  · rename_i word _ hword _
    exact ⟨some word, rfl, fun _ hpeek => by cases hword.symm.trans hpeek⟩
  · exact ⟨none, rfl, fun hnone => absurd rfl hnone⟩

/-- A round of markers takes one of them. -/
theorem roundTracks_markerRound : RoundTracks markerRound where
  yields := by
    intro markers markers' c c' hround
    obtain ⟨pair, hpair, hpeek⟩ := wordPair?_eq c
    revert hround
    change (wordPair? c).bind _ = _ → Reaches 1 c ((wordPair? c).bind _)
    rw [hpair]
    dsimp only [Except.bind]
    split
    · exact fun _ => .advance_one _ (hpeek (by simp))
    · exact fun _ => .advance_one _ (hpeek (by simp))
    · exact fun _ => .advance_one _ (hpeek (by simp))
    · intro hround
      cases hround
  ends := by
    rintro markers ⟨rest, stop⟩ rfl
    rfl

/-! ## Positions -/

section Positions

variable (source : String) (tokens : List Token)

/-- The cursor is at a token after the one with the given number, or at the end of the text. -/
def MovedOn (i : Nat) (c : Cursor) : Prop :=
  ∃ j, i < j ∧ j ≤ tokens.length ∧ c = Token.cursorAt source tokens j

/-- Called at the token with the given number, the parser does not succeed without moving on. -/
def MovesOn (i : Nat) (p : Parser α) : Prop :=
  ∀ a c, p (Token.cursorAt source tokens i) = .ok (a, c) → MovedOn source tokens i c

/-- The readers of types and of what may hold types move on.  Parameters are called where a
parenthesis opens, records where a brace does, and blocks need not be there. -/
structure ReadersMoveOn (i : Nat) (inner : Parser Ty) : Prop where
  type : MovesOn source tokens i (anyType inner)
  params : Token.kindAt tokens i = .lparen → MovesOn source tokens i (params inner)
  typeParam : MovesOn source tokens i (typeParamWith inner)
  record : Token.kindAt tokens i = .lbrace →
    MovesOn source tokens i (do skip 1; recordBody inner)
  name : MovesOn source tokens i (name inner)
  typeList : MovesOn source tokens i (typeList inner)
  block : ∀ b c, block inner (Token.cursorAt source tokens i) = .ok (some b, c) →
    MovedOn source tokens i c

/-- Every round of the loop moves on or leaves it, and the loop ends within as many rounds as there
are tokens, with the end of the text: neither its bound nor what would happen beyond it matters. -/
structure LoopMovesOn (bounded : Nat → σ → Parser σ) (round : σ → Parser (ForInStep σ)) : Prop where
  consumes : ∀ i ≤ tokens.length, ∀ s s' c,
    round s (Token.cursorAt source tokens i) = .ok (.yield s', c) → MovedOn source tokens i c
  rounds : ∀ i ≤ tokens.length, ∀ s bound spent limit, tokens.length - i ≤ bound →
    tokens.length - i < limit → bounded bound s (Token.cursorAt source tokens i) =
      loop round spent limit s (Token.cursorAt source tokens i)

/-- Every item of the list moves on, the first one too, and so does every round that adds one. -/
structure ListMovesOn (separator : TokenKind) (item : Parser α) : Prop where
  items : ∀ i ≤ tokens.length, MovesOn source tokens i item
  rounds : LoopMovesOn source tokens
    (fun bound xs => do return xs ++ (← more separator item bound)) (listRound separator item)

/-- The loops of the grammar move on: members between bars and ampersands, question marks, what
stands between commas, the segments of names, and markers. -/
structure LoopsMoveOn (inner : Parser Ty) : Prop where
  unions : ListMovesOn source tokens .pipe (interType inner)
  inters : ListMovesOn source tokens .amp (optionalType inner)
  marks : LoopMovesOn source tokens optionalMarks markRound
  types : ListMovesOn source tokens .comma (anyType inner)
  params : ListMovesOn source tokens .comma (param inner)
  fields : ListMovesOn source tokens .comma (recordField inner)
  segments : ListMovesOn source tokens .colonColon word
  markers : LoopMovesOn source tokens typeParamMarkers markerRound
  typeParams : ListMovesOn source tokens .comma (typeParamWith inner)

variable {source tokens}

/-- A computation that takes a token moves on. -/
theorem Reaches.movedOn {i : Nat} (hi : i ≤ tokens.length) {a : α} {c : Cursor}
    (h : Reaches 1 (Token.cursorAt source tokens i) (.ok (a, c))) : MovedOn source tokens i c := by
  cases h with
  | @ok _ n hleast hn =>
    rw [Token.cursorAt, List.length_drop] at hn
    refine ⟨i + n, by omega, by omega, ?_⟩
    rw [Token.cursorAt, Token.cursorAt, Cursor.advance, List.drop_drop]

/-- A parser that takes a token moves on from every place. -/
theorem Tracks.movesOn {p : Parser α} (h : Tracks 1 p) {i : Nat} (hi : i ≤ tokens.length) :
    MovesOn source tokens i p :=
  fun _ _ hp => (hp ▸ h _).movedOn hi

/-- A parser that takes tokens from those known ahead moves on where they are ahead. -/
theorem TracksFrom.movesOn {kind : TokenKind} {p : Parser α} (h : TracksFrom 0 kind p) {i : Nat}
    (hi : i ≤ tokens.length) (hkind : Token.kindAt tokens i = kind) :
    MovesOn source tokens i p := by
  intro a c hp
  have hpeek : (Token.cursorAt source tokens i).peek = kind :=
    (Token.peek_advance source.utf8ByteSize i).trans hkind
  have hreaches : Reaches 1 _ (p (Token.cursorAt source tokens i)) := h _ hpeek
  exact (hp ▸ hreaches).movedOn hi

/-- A loop whose rounds take tokens moves on in each of them. -/
theorem RoundTracks.loopMovesOn {bounded : Nat → σ → Parser σ} {round : σ → Parser (ForInStep σ)}
    (h : RoundTracks round) (hbounded : ∀ n s, bounded n s = loop round pure n s) :
    LoopMovesOn source tokens bounded round where
  consumes i hi s s' c hround := (hround ▸ h.yields hround).movedOn hi
  rounds i hi s bound spent limit hbound hlimit := by
    have hlength : (Token.cursorAt source tokens i).rest.length = tokens.length - i :=
      List.length_drop
    rw [hbounded]
    exact loop_eq h spent (by omega) (by omega) s

/-- A list moves on in each round and with each item. -/
theorem listMovesOn {separator : TokenKind} (hseparator : separator ≠ .eof) {item : Parser α}
    (hitem : Tracks 1 item) : ListMovesOn source tokens separator item where
  items _ hi := hitem.movesOn hi
  rounds := (roundTracks_listRound hseparator hitem).loopMovesOn (more_eq_loop separator item)

end Positions

/-! ## Every text -/

section Given

variable {primary : Parser Ty} (h : Tracks 1 primary)

include h

/-- A parameter list that was opened takes tokens. -/
theorem tracksFrom_params : TracksFrom 0 .lparen (params primary) :=
  .accept (by simp) (tracks_paramList h) _

/-- A block takes tokens if it is there. -/
theorem block_eq_none_or_reaches (c : Cursor) :
    block primary c = .ok (none, c) ∨ Reaches 1 c (block primary c) := by
  have hbody : ∀ (k : Nat) (optional : Bool),
      Tracks 1 (do skip k; return some (← blockBody primary optional)) := fun k optional =>
    (tracks_skip k).after fun _ => (tracks_blockBody h optional).before fun _ => tracks_pure _
  have hget : ∀ f : Cursor → Parser (Option (Block Ty)), f c = pure none ∨ Tracks 1 (f c) →
      (get >>= f) c = .ok (none, c) ∨ Reaches 1 c ((get >>= f) c) := fun f hf =>
    hf.imp (fun hnone => congrFun hnone c) fun htracks => htracks c
  refine hget _ ?_
  split
  · exact Or.inr (hbody 2 true)
  · exact Or.inr (hbody 1 false)
  · exact Or.inl rfl

variable {source : String} {tokens : List Token}

/-- All readers of parts move on. -/
theorem readersMoveOn (hparam : Tracks 1 (typeParamWith primary)) {i : Nat}
    (hi : i ≤ tokens.length) : ReadersMoveOn source tokens i primary where
  type := (tracks_anyType h).movesOn hi
  params := (tracksFrom_params h).movesOn hi
  typeParam := hparam.movesOn hi
  record := TracksFrom.movesOn (.skip (.one (by simp) (tracks_recordBody h))) hi
  name := (tracks_name h).movesOn hi
  typeList := (tracks_typeList h).movesOn hi
  block := by
    intro b c hblock
    rcases block_eq_none_or_reaches h (Token.cursorAt source tokens i) with hnone | hreaches
    · cases hnone.symm.trans hblock
    · exact (hblock ▸ hreaches).movedOn hi

/-- All loops of readers move on. -/
theorem loopsMoveOn (hparam : Tracks 1 (typeParamWith primary)) :
    LoopsMoveOn source tokens primary where
  unions := listMovesOn (by simp) (tracks_interType h)
  inters := listMovesOn (by simp) (tracks_optionalType h)
  marks := roundTracks_markRound.loopMovesOn optionalMarks_eq_loop
  types := listMovesOn (by simp) (tracks_anyType h)
  params := listMovesOn (by simp) (tracks_param h)
  fields := listMovesOn (by simp) (tracks_recordField h)
  segments := listMovesOn (by simp) tracks_word
  markers := roundTracks_markerRound.loopMovesOn typeParamMarkers_eq_loop
  typeParams := listMovesOn (by simp) hparam

end Given

/-- Two parsers read a text alike if they agree within the number of its tokens. -/
theorem AgreeWithin.run {p q : Parser α} {source : String} {tokens : List Token}
    (hscan : Token.scan source = .ok tokens) (h : AgreeWithin tokens.length p q) :
    p.run source = q.run source := by
  rw [Parser.run, Parser.run, hscan]
  change (p ⟨tokens, source.utf8ByteSize⟩).bind _ = (q ⟨tokens, source.utf8ByteSize⟩).bind _
  rw [h _ (Nat.le_refl _)]

/-- In a text that consists of tokens every reader that succeeds has moved on by at least one token
and not past the end, and every round of a loop moves on or leaves the loop.  Types, overloads and
type parameters are read with a reader of primary types that calls itself, and it does so no deeper
than there are tokens, with the end of the text: what is below that many levels does not matter. -/
theorem progress_and_termination {source : String} {tokens : List Token}
    (hscan : Token.scan source = .ok tokens) :
    (∀ i ≤ tokens.length, ReadersMoveOn source tokens i primaryType) ∧
    LoopsMoveOn source tokens primaryType ∧
    primaryType = primaryWith primaryType ∧
    Ty.parse source = (anyType primaryType).run source ∧
    Overload.parse source = (overloadWith primaryType).run source ∧
    TypeParam.parse source = (typeParamWith primaryType).run source ∧
    ∀ deepest depth, tokens.length < depth →
      Ty.parse source = (anyType (nested deepest depth)).run source ∧
      Overload.parse source = (overloadWith (nested deepest depth)).run source ∧
      TypeParam.parse source = (typeParamWith (nested deepest depth)).run source := by
  have hparam : Tracks 1 (typeParamWith primaryType) := typeParam_eq ▸ tracks_typeParam
  have htype : Ty.parse source = (anyType primaryType).run source := by rw [Ty.parse, type_eq]
  have hoverload : Overload.parse source = (overloadWith primaryType).run source := by
    rw [Overload.parse, overload_eq]
  have htypeParam : TypeParam.parse source = (typeParamWith primaryType).run source := by
    rw [TypeParam.parse, typeParam_eq]
  refine ⟨fun i hi => readersMoveOn tracks_primaryType hparam hi,
    loopsMoveOn tracks_primaryType hparam, primaryType_eq, htype, hoverload, htypeParam,
    fun deepest depth hdepth => ⟨?_, ?_, ?_⟩⟩
  · exact htype.trans
      ((agree_anyType (agree_nested deepest hdepth) tracks_primaryType).run hscan).symm
  · exact hoverload.trans ((agree_overloadWith_nested deepest hdepth).run hscan).symm
  · exact htypeParam.trans
      ((agree_typeParamWith (agree_nested deepest hdepth) tracks_primaryType).run hscan).symm

/-- An overload of 28 tokens, with a record at the token with number 8 and a block at that with
number 15.  It is read with 29 levels, whatever is below. -/
theorem progress_in_overload :
    let source := "[out T < A] (?{ b: C? }) { (D) -> E } -> [f, 1]"
    ∃ tokens, Token.scan source = .ok tokens ∧ tokens.length = 28 ∧
      (∃ t c, (do skip 1; recordBody primaryType) (Token.cursorAt source tokens 8) = .ok (t, c) ∧
        MovedOn source tokens 8 c) ∧
      (∃ b c, block primaryType (Token.cursorAt source tokens 15) = .ok (some b, c) ∧
        MovedOn source tokens 15 c) ∧
      ∀ deepest, ∃ o, (overloadWith (nested deepest 29)).run source = .ok o := by
  intro source
  have hsample : (Token.scan source).toOption.any (fun tokens =>
      tokens.length == 28 && Token.kindAt tokens 8 == .lbrace &&
        ((do skip 1; recordBody primaryType)
          (Token.cursorAt source tokens 8)).toOption.any (fun _ => true) &&
        (block primaryType (Token.cursorAt source tokens 15)).toOption.any (·.1.isSome) &&
        (Overload.parse source).toOption.any fun _ => true) = true := by
    decide +kernel
  obtain ⟨tokens, hscan, htokens⟩ := exists_ok_of_any hsample
  simp only [Bool.and_eq_true, beq_iff_eq] at htokens
  obtain ⟨⟨⟨⟨hlength, hbrace⟩, hrecord⟩, hblock⟩, hoverload⟩ := htokens
  obtain ⟨⟨t, c⟩, hrecord, -⟩ := exists_ok_of_any hrecord
  obtain ⟨⟨b?, c'⟩, hblock, hsome⟩ := exists_ok_of_any hblock
  obtain ⟨b, rfl⟩ := Option.isSome_iff_exists.mp hsome
  obtain ⟨o, hoverload, -⟩ := exists_ok_of_any hoverload
  obtain ⟨hreaders, -, -, -, -, -, hnested⟩ := progress_and_termination hscan
  refine ⟨tokens, hscan, hlength, ⟨t, c, hrecord, ?_⟩, ⟨b, c', hblock, ?_⟩, fun deepest => ⟨o, ?_⟩⟩
  · exact (hreaders 8 (by omega)).record hbrace t c hrecord
  · exact (hreaders 15 (by omega)).block b c' hblock
  · exact (hnested deepest 29 (by omega)).2.1.symm.trans hoverload

end Parser
end TypeShape
