import TypeShape.Proofs.Grammar.Spilled

/-!
# Written types are read back

The tokens of a type are read as a type, wherever they are followed by a token that ends a type: the
type itself, unless members of a result spill over.  Together with the tokens of its written form
this gives the round trip: what is written for a type or an overload is read as that type or
overload.

Main results:

- Theorem `Parser.reads_callable`: the tokens of a callable are read as a callable.
- Theorem `Ty.readsAs_tokens`: what is read for the tokens of a type.
- Theorem `Ty.parse_render`: types and overloads are read back.
-/

namespace TypeShape

namespace Parser

/-- What the next tokens decide. -/
theorem Reads.get {β : Type} {follow : List TokenKind → Prop} {ks : List TokenKind} {b : β}
    {f : Cursor → Parser β}
    (h : ∀ c rest, c.kinds = ks ++ rest → follow rest → ∃ g, f c = g ∧ Reads follow g ks b) :
    Reads follow (get >>= f) ks b := by
  intro c rest hc hrest
  obtain ⟨g, hg, hreads⟩ := h c rest hc hrest
  obtain ⟨c', hp, hc'⟩ := hreads c rest hc hrest
  refine ⟨c', ?_, hc'⟩
  change f c c = _
  rw [hg, hp]

/-! ## Parameters -/

/-- Required parameters are added at the end of the required ones. -/
theorem foldl_addTo_required (q : Params Ty) (ts : List Ty) :
    (ts.map Param.required).foldl Param.addTo q = { q with required := q.required ++ ts } := by
  induction ts generalizing q with
  | nil => simp
  | cons t ts ih => simp [ih, Param.addTo]

/-- Optional parameters are added at the end of the optional ones. -/
theorem foldl_addTo_optional (q : Params Ty) (ts : List Ty) :
    (ts.map Param.optional).foldl Param.addTo q = { q with optional := q.optional ++ ts } := by
  induction ts generalizing q with
  | nil => simp
  | cons t ts ih => simp [ih, Param.addTo]

/-- Keywords are added under their names. -/
theorem foldl_addTo_keywords (q : Params Ty) (es : List (String × Ty)) :
    (es.map fun e => Param.keyword e.1 e.2).foldl Param.addTo q =
      { q with keywords := es.foldl (fun acc e => Keyed.insert e.1 e.2 acc) q.keywords } := by
  induction es generalizing q with
  | nil => rfl
  | cons e es ih => simp [ih, Param.addTo]

/-- So are optional keywords. -/
theorem foldl_addTo_optionalKeywords (q : Params Ty) (es : List (String × Ty)) :
    (es.map fun e => Param.optionalKeyword e.1 e.2).foldl Param.addTo q =
      { q with optionalKeywords :=
          es.foldl (fun acc e => Keyed.insert e.1 e.2 acc) q.optionalKeywords } := by
  induction es generalizing q with
  | nil => rfl
  | cons e es ih => simp [ih, Param.addTo]

/-- A parameter list is put together from its parameters. -/
theorem foldl_addTo_items {q : Params Ty} (hk : Keyed.Sorted q.keywords)
    (ho : Keyed.Sorted q.optionalKeywords) : q.items.foldl Param.addTo {} = q := by
  have hkeywords := Keyed.ofList_eq_self hk
  have hoptional := Keyed.ofList_eq_self ho
  obtain ⟨r, o, s, k, w, t⟩ := q
  unfold Keyed.ofList at hkeywords hoptional
  simp only [Params.items, List.foldl_append, foldl_addTo_required, foldl_addTo_optional,
    foldl_addTo_keywords, foldl_addTo_optionalKeywords]
  cases s <;> cases t <;> simp [Param.addTo, hkeywords, hoptional]

/-- The parameters of a printable list, added one by one, make the list again. -/
theorem foldl_addTo_map {q : Params Ty} (hq : q.isPrintable = true) (val : Ty → Ty) :
    (q.items.map fun x => x.withType (val x.type)).foldl Param.addTo {} = q.map val := by
  simp only [Params.isPrintable, keywordsPrintable, Bool.and_eq_true, decide_eq_true_eq] at hq
  rw [← Params.items_map]
  exact foldl_addTo_items (Keyed.sorted_map hq.1.2) (Keyed.sorted_map hq.2.2)

section With

variable {p : Parser Ty} {ks : List TokenKind} {toks : Ty → List TokenKind} {val : Ty → Ty}

/-- A parameter is read after its mark, with the type behind it. -/
theorem reads_param {x : Param} {t : Ty} (h : Reads (before typeEnds) (anyType p) ks t)
    (hopens : Opens ks) : Reads (before typeEnds) (param p) (x.mark ++ ks) (x.withType t) := by
  refine Reads.get fun c rest hc hrest => ?_
  have hstart := hopens rest hrest.member.factor
  simp only [c.peekAt_eq, hc, List.append_assoc]
  cases x with
  | required _ =>
    refine ⟨do return .required (← anyType p), ?_, h.map⟩
    change opensType (ks ++ rest) = true at hstart
    simp only [Param.mark, List.nil_append]
    generalize ks ++ rest = l at hstart ⊢
    cases l with
    | nil => cases hstart
    | cons kind l =>
      cases kind with
      | ident w =>
        cases l with
        | nil => rfl
        | cons kind l =>
          cases kind with
          | colon => cases hstart
          | _ => rfl
      | question => cases hstart
      | star => cases hstart
      | starStar => cases hstart
      | _ => rfl
  | optional _ =>
    refine ⟨do skip 1; return .optional (← anyType p), ?_,
      (reads_skip [.question]).bind_of_anyTokens h.map⟩
    simp only [Param.mark, List.cons_append, List.nil_append]
    generalize ks ++ rest = l at hstart ⊢
    cases l with
    | nil => rfl
    | cons kind l =>
      cases kind with
      | ident w =>
        cases l with
        | nil => rfl
        | cons kind l =>
          cases kind with
          | colon => cases hstart
          | _ => rfl
      | _ => rfl
  | rest _ => exact ⟨_, rfl, (reads_skip [.star]).bind_of_anyTokens h.map⟩
  | keyword name _ => exact ⟨_, rfl, (reads_skip [.ident name, .colon]).bind_of_anyTokens h.map⟩
  | optionalKeyword name _ =>
    exact ⟨_, rfl, (reads_skip [.question, .ident name, .colon]).bind_of_anyTokens h.map⟩
  | restKeywords _ => exact ⟨_, rfl, (reads_skip [.starStar]).bind_of_anyTokens h.map⟩

/-- No parameter starts with a closing parenthesis. -/
theorem first_param_ne {x : Param} (hopens : Opens ks) (rest : List TokenKind) :
    first (x.mark ++ ks ++ rest) ≠ .rparen := by
  cases x with
  | required t =>
    intro hfirst
    have hstart := hopens.startsType rest
    rw [Param.mark, List.nil_append] at hfirst
    rw [hfirst] at hstart
    cases hstart
  | _ => rintro ⟨⟩

/-- A parameter list is read back in its parentheses. -/
theorem reads_params {q : Params Ty} (hq : q.isPrintable = true)
    (h : ∀ t ∈ q.toList, Reads (before typeEnds) (anyType p) (toks t) (val t))
    (hopens : ∀ t ∈ q.toList, Opens (toks t)) :
    Reads anyTokens (params p) (Ty.paramsTokens toks q) (q.map val) := by
  have hclosing : TokenKind.rparen ∈ typeEnds := by decide
  have hlist := reads_listUpTo .paramsEnd (fun x : Param => x.withType (val x.type))
    (fun items => items.foldl Param.addTo {}) hclosing (by rintro ⟨⟩)
    (fun x hx => reads_param (x := x) (h x.type (Params.type_mem_of_mem_items hx))
      (hopens x.type (Params.type_mem_of_mem_items hx)))
    fun x hx => first_param_ne (hopens x.type (Params.type_mem_of_mem_items hx))
  rw [foldl_addTo_map hq] at hlist
  exact (reads_accept .lparen).bind_of_anyTokens hlist

/-! ## Blocks and callables -/

/-- The receiver of a block is read back, if there is one. -/
theorem reads_blockReceiver {receiver : Option Ty}
    (h : ∀ t, receiver = some t → Reads (before typeEnds) (anyType p) (toks t) (val t)) :
    Reads (notBefore .lbracket) (blockReceiver p) (Ty.receiverTokens toks receiver)
      (receiver.map val) := by
  cases receiver with
  | none =>
    exact (reads_not_accept .lbracket).bind_of_nil (Reads.pure none) fun _ hrest => hrest
  | some t =>
    refine (reads_accept .lbracket).bind_of_anyTokens ?_
    refine (reads_word "self").bind_of_anyTokens ?_
    refine (reads_require .colon .selfColon).bind_of_anyTokens ?_
    exact (reads_closed .selfEnd some (h t rfl) (before_cons (by decide))).mono fun _ _ => trivial

/-- A block that was opened is read back up to its closing brace. -/
theorem reads_blockBody {b : Block Ty} (hq : b.arrow.params.isPrintable = true)
    (h : ∀ t ∈ b.toList, Reads (before typeEnds) (anyType p) (toks t) (val t))
    (hopens : ∀ t ∈ b.toList, Opens (toks t)) :
    Reads anyTokens (blockBody p b.optional)
      (Ty.paramsTokens toks b.arrow.params ++ (Ty.receiverTokens toks b.receiver ++
        ([.arrow] ++ (toks b.arrow.result ++ [.rbrace])))) (b.map val) := by
  have hparams := reads_params hq (fun t ht => h t (Block.mem_toList.mpr (Or.inl ht)))
    fun t ht => hopens t (Block.mem_toList.mpr (Or.inl ht))
  have hreceiver := reads_blockReceiver fun t ht => h t (Block.mem_toList.mpr (Or.inr (Or.inr ht)))
  have hresult := h b.arrow.result (Block.mem_toList.mpr (Or.inr (Or.inl rfl)))
  refine hparams.bind_of_anyTokens ?_
  refine hreceiver.bind ?_ fun rest _ => by rintro ⟨⟩
  refine (reads_require .arrow .blockArrow).bind_of_anyTokens ?_
  exact reads_closed .blockEnd
    (fun t => (⟨⟨b.arrow.params.map val, t⟩, b.optional, b.receiver.map val⟩ : Block Ty))
    hresult (before_cons (by decide))

/-- A block is read back, if there is one. -/
theorem reads_block {block? : Option (Block Ty)}
    (hq : ∀ b, block? = some b → b.arrow.params.isPrintable = true)
    (h : ∀ b, block? = some b →
      ∀ t ∈ b.toList, Reads (before typeEnds) (anyType p) (toks t) (val t))
    (hopens : ∀ b, block? = some b → ∀ t ∈ b.toList, Opens (toks t)) :
    Reads (before [.arrow]) (block p) ((block?.map (Ty.blockTokens toks)).getD [])
      (block?.map (Block.map val)) := by
  cases block? with
  | none =>
    refine Reads.get fun c rest hc hrest => ⟨pure none, ?_, Reads.pure none⟩
    simp only [c.peekAt_eq, hc]
    cases rest with
    | nil => rfl
    | cons kind rest =>
      obtain rfl : kind = .arrow := List.mem_singleton.mp hrest
      rfl
  | some b =>
    have hbody := (reads_blockBody (hq b rfl) (h b rfl) (hopens b rfl)).map (g := some)
    obtain ⟨arrow, optional, receiver⟩ := b
    simp only [Option.map_some, Option.getD_some, Ty.blockTokens, List.append_assoc]
    cases optional with
    | true =>
      refine Reads.get fun c rest hc hrest => ?_
      simp only [c.peekAt_eq, hc]
      have hread := (reads_skip [.question, .lbrace]).bind_of_anyTokens
        (f := fun _ => do return some (← blockBody p true)) hbody
      exact ⟨_, rfl, hread.mono fun _ _ => trivial⟩
    | false =>
      refine Reads.get fun c rest hc hrest => ?_
      simp only [c.peekAt_eq, hc]
      have hread := (reads_skip [.lbrace]).bind_of_anyTokens
        (f := fun _ => do return some (← blockBody p false)) hbody
      exact ⟨_, rfl, hread.mono fun _ _ => trivial⟩

/-- The tokens of a callable are read as a callable.  Its result is read in some way from tokens of
its own, which need not be those of the whole result. -/
theorem reads_callable {β : Type} {follow : List TokenKind → Prop} {result : Parser Ty} {t : Ty}
    {what : Expected} (g : Callable Ty → β) {c : Callable Ty} (hc : c.isPrintable = true)
    (h : ∀ t ∈ c.toList, Reads (before typeEnds) (anyType p) (toks t) (val t))
    (hopens : ∀ t ∈ c.toList, Opens (toks t)) (hresult : Reads follow result ks t) :
    Reads follow
      (do
        let q ← params p
        let b ← block p
        require .arrow what
        let t ← result
        pure (g ⟨⟨q, t⟩, b⟩))
      (Ty.paramsTokens toks c.arrow.params ++ (c.block.map (Ty.blockTokens toks)).getD [] ++
        [.arrow] ++ ks) (g ((c.map val).withResult t)) := by
  obtain ⟨hq, hblock⟩ := Bool.and_eq_true_iff.mp hc
  have hparams := reads_params hq (fun t ht => h t (Callable.mem_toList.mpr (Or.inl ht)))
    fun t ht => hopens t (Callable.mem_toList.mpr (Or.inl ht))
  have hmem : ∀ b, c.block = some b → ∀ t ∈ b.toList, t ∈ c.toList :=
    fun b hb t ht => Callable.mem_toList.mpr (Or.inr (Or.inr ⟨b, hb, ht⟩))
  have hread := reads_block (fun b hb => by simpa [hb] using hblock)
    (fun b hb t ht => h t (hmem b hb t ht)) fun b hb t ht => hopens t (hmem b hb t ht)
  simp only [List.append_assoc]
  refine hparams.bind_of_anyTokens (hread.bind ?_ fun rest _ => before_cons (by decide) _)
  refine (reads_require .arrow what).bind_of_anyTokens ?_
  exact hresult.map (g := fun t => g ⟨⟨c.arrow.params.map val, t⟩, c.block.map (Block.map val)⟩)

/-! ## Lists and records -/

/-- The types of a list are read back up to the closing bracket. -/
theorem reads_typeList {ts : List Ty}
    (h : ∀ t ∈ ts, Reads (before typeEnds) (anyType p) (toks t) (val t))
    (hopens : ∀ t ∈ ts, Opens (toks t)) :
    Reads anyTokens (typeList p) ([.comma].intercalate (ts.map toks) ++ [.rbracket])
      (ts.map val) := by
  refine reads_listUpTo .listEnd val id (by decide) (by decide) h fun t ht rest hfirst => ?_
  have hstart := (hopens t ht).startsType rest
  rw [hfirst] at hstart
  cases hstart

/-- Type arguments are read back, if there are any. -/
theorem reads_typeArgs {ts : List Ty}
    (h : ∀ t ∈ ts, Reads (before typeEnds) (anyType p) (toks t) (val t))
    (hopens : ∀ t ∈ ts, Opens (toks t)) :
    Reads (notBefore .lbracket) (typeArgs p) (Ty.argTokens toks ts) (ts.map val) := by
  cases ts with
  | nil => exact (reads_not_accept .lbracket).bind_of_nil (Reads.pure []) fun _ hrest => hrest
  | cons t ts =>
    refine (reads_accept .lbracket).bind_of_anyTokens ?_
    exact (reads_typeList h hopens).mono fun _ _ => trivial

/-- A key of a record is read back with the mark behind it. -/
theorem reads_recordKey {key : Literal} (hkey : key.isKey = true) :
    Reads anyTokens recordKey key.keyTokens key := by
  have hmark : ∀ kind, Reads anyTokens (do skip 1; pure key) [kind] key :=
    fun kind => (reads_skip [kind]).bind_of_anyTokens (Reads.pure key)
  cases key with
  | integer value => exact (reads_next _).bind_of_anyTokens (Reads.peek fun _ _ => hmark .fatArrow)
  | string text => exact (reads_next _).bind_of_anyTokens (Reads.peek fun _ _ => hmark .fatArrow)
  | symbol name =>
    rw [Literal.keyTokens]
    split
    · exact (reads_next _).bind_of_anyTokens (Reads.peek fun _ _ => hmark .colon)
    · exact (reads_next _).bind_of_anyTokens (Reads.peek fun _ _ => hmark .fatArrow)
  | boolean value => cases hkey

/-- No key starts with a closing brace. -/
theorem first_key_ne (key : Literal) (rest : List TokenKind) :
    first (key.keyTokens ++ rest) ≠ .rbrace := by
  cases key with
  | symbol name =>
    rw [Literal.keyTokens]
    split <;> rintro ⟨⟩
  | boolean value => cases value <;> rintro ⟨⟩
  | _ => rintro ⟨⟩

/-- A record is read back, since its fields stand in the order of their keys. -/
theorem reads_recordBody {fields : List (Literal × Ty)} (hkeys : ∀ f ∈ fields, f.1.isKey = true)
    (hsorted : Keyed.Sorted fields)
    (h : ∀ f ∈ fields, Reads (before typeEnds) (anyType p) (toks f.2) (val f.2)) :
    Reads anyTokens (recordBody p)
      ([.comma].intercalate (fields.map fun f => f.1.keyTokens ++ toks f.2) ++ [.rbrace])
      (.record (fields.map fun f => (f.1, val f.2))) := by
  have hfield : ∀ f ∈ fields,
      Reads (before typeEnds) (recordField p) (f.1.keyTokens ++ toks f.2) (f.1, val f.2) := by
    intro f hf
    refine (reads_recordKey (hkeys f hf)).bind_of_anyTokens ?_
    exact (h f hf).map (g := fun t => (f.1, t))
  have hclosing : TokenKind.rbrace ∈ typeEnds := by decide
  have hread := reads_listUpTo .recordEnd (fun f : Literal × Ty => (f.1, val f.2))
    (fun fields => Ty.record (Keyed.ofList fields)) hclosing (by rintro ⟨⟩) hfield
    fun f _ rest => by
      rw [List.append_assoc]
      exact first_key_ne f.1 _
  rw [Keyed.ofList_eq_self (Keyed.sorted_map hsorted)] at hread
  exact hread

/-! ## Names -/

/-- A path is read back segment by segment. -/
theorem reads_segments (w : String) (ws : List String) :
    Reads (notBefore .colonColon) (segments w) (ws.flatMap fun w => [.colonColon, .ident w])
      (w :: ws) := by
  refine Reads.remaining (f := fun n => do return w :: (← more .colonColon word n)) fun n hn => ?_
  have hlength : ws.length ≤ n := by
    refine Nat.le_trans ?_ hn
    simp [List.length_flatMap]
    omega
  have hmore := reads_more .colonColon (fun w => [.ident w]) id
    (fun w (_ : w ∈ ws) => reads_word w) (fun _ => trivial) hlength
  rw [List.map_id] at hmore
  exact (hmore.map (g := (w :: ·))).mono fun rest hrest => ⟨trivial, hrest⟩

/-- An absolute name with its arguments. -/
theorem reads_name_path {n : TypeName} (hn : n.isPath = true) {args : List Ty}
    (h : ∀ t ∈ args, Reads (before typeEnds) (anyType p) (toks t) (val t))
    (hopens : ∀ t ∈ args, Opens (toks t)) :
    Reads (before factorEnds) (name p) (n.tokens ++ Ty.argTokens toks args)
      (.named (nominalKind n) n (args.map val)) := by
  obtain ⟨ws, hne, hws, rfl⟩ := TypeName.isPath_iff.mp hn
  rw [TypeName.tokens, TypeName.segments_ofSegments hne hws,
    ← TypeName.ofString_intercalate hne hws]
  obtain ⟨w, ws, rfl⟩ := List.exists_cons_of_ne_nil hne
  rw [List.flatMap_cons, List.append_assoc]
  refine (reads_accept .colonColon).bind_of_anyTokens ((reads_word w).bind_of_anyTokens ?_)
  refine Reads.peek fun _ _ => ?_
  refine (reads_segments w ws).bind ?_ fun rest hrest => ?_
  · have hargs : Reads (before factorEnds) (typeArgs p) (Ty.argTokens toks args) (args.map val) :=
      (reads_typeArgs h hopens).mono fun _ hrest => hrest.notBefore (by decide)
    exact hargs.map (g := Ty.named _ (TypeName.ofString ("::".intercalate (w :: ws))))
  · cases args with
    | nil => exact hrest.notBefore (by decide)
    | cons t ts => rintro ⟨⟩

/-- A class object is read back in its parentheses. -/
theorem reads_singletonBody {n : TypeName} (hn : n.isPath = true) :
    Reads anyTokens singletonBody ([.lparen] ++ (n.tokens ++ [.rparen])) (.singleton n) := by
  obtain ⟨ws, hne, hws, rfl⟩ := TypeName.isPath_iff.mp hn
  rw [TypeName.tokens, TypeName.segments_ofSegments hne hws,
    ← TypeName.ofString_intercalate hne hws]
  obtain ⟨w, ws, rfl⟩ := List.exists_cons_of_ne_nil hne
  refine (reads_require .lparen .singletonStart).bind_of_anyTokens ?_
  rw [List.flatMap_cons, List.append_assoc]
  refine (reads_accept .colonColon).bind_of_anyTokens ((reads_word w).bind_of_anyTokens ?_)
  exact reads_closed .singletonEnd (fun path => Ty.singleton (.ofString ("::".intercalate path)))
    (reads_segments w ws) fun _ => by rintro ⟨⟩

/-- A word that is not followed by colons decides what is read next. -/
theorem reads_name_word {w : String} {follow : List TokenKind → Prop} {t : Ty}
    (hfollow : ∀ rest, follow rest → first (ks ++ rest) ≠ .colonColon)
    (h : Reads follow
      (if w = "singleton" then singletonBody
      else
        match wordType? w with
        | some t => pure t
        | none => nominalBody p false w) ks t) :
    Reads follow (name p) ([.ident w] ++ ks) t := by
  refine (reads_not_accept .colonColon).bind_of_nil ?_ fun _ _ => by rintro ⟨⟩
  refine (reads_word w).bind_of_anyTokens (Reads.peek fun rest hrest => ?_)
  rw [if_pos]
  · exact h
  · simpa using hfollow rest hrest

/-- The word before a class object is read first. -/
theorem reads_name_singleton {n : TypeName} (hn : n.isPath = true) :
    Reads anyTokens (name p) ([.ident "singleton", .lparen] ++ n.tokens ++ [.rparen])
      (.singleton n) :=
  reads_name_word (fun _ _ => by rintro ⟨⟩) (reads_singletonBody hn)

/-- A word that stands for a type is read as it. -/
theorem reads_name_keyword {w : String} {t : Ty} (h : wordType? w = some t) :
    Reads (before factorEnds) (name p) [.ident w] t := by
  refine reads_name_word (fun _ hrest => hrest.notBefore (by decide)) ?_
  rw [if_neg, h]
  · exact Reads.pure t
  · rintro rfl
    cases h

/-- A capitalized word without a path is read as a variable. -/
theorem reads_name_var {w : String} (h : isCapitalized w = true) :
    Reads (before factorEnds) (name p) [.ident w] (.var w) := by
  have hword : wordType? w = none := by
    by_contra hne
    obtain ⟨t, ht⟩ := Option.ne_none_iff_exists'.mp hne
    unfold wordType? at ht
    split at ht <;> cases ht <;> cases h
  have hsingleton : w ≠ "singleton" := by
    rintro rfl
    cases h
  refine reads_name_word (fun _ hrest => hrest.notBefore (by decide)) ?_
  rw [if_neg hsingleton, hword]
  have hargs : Reads (before factorEnds) (typeArgs p) (Ty.argTokens Ty.tokens []) ([].map id) :=
    (reads_typeArgs (List.forall_mem_nil _) (List.forall_mem_nil _)).mono
      fun _ hrest => hrest.notBefore (by decide)
  refine (reads_segments w []).bind_of_nil ?_ fun _ hrest => hrest.notBefore (by decide)
  refine hargs.bind_of_nil ?_ fun _ hrest => hrest
  rw [if_pos (by simpa using h)]
  exact Reads.pure _

/-! ## Types -/

/-- A type in parentheses. -/
theorem reads_parens {t : Ty} (h : Reads (before typeEnds) (anyType p) ks t) :
    Reads anyTokens (primaryWith p) ([.lparen] ++ ks ++ [.rparen]) t := by
  refine Reads.peek fun _ _ => ?_
  rw [List.append_assoc]
  refine (reads_skip [.lparen]).bind_of_anyTokens ?_
  exact reads_closed .parenEnd id h (before_cons (by decide))

/-- A proc, when its parts are read and its result is read from tokens of its own. -/
theorem reads_proc {c : Callable Ty} {t : Ty} (hc : c.isPrintable = true)
    (h : ∀ u ∈ c.toList, Reads (before typeEnds) (anyType p) (toks u) (val u))
    (hopens : ∀ u ∈ c.toList, Opens (toks u)) (hresult : Reads (before factorEnds) p ks t) :
    Reads (before factorEnds) (primaryWith p)
      ([.caret] ++ (Ty.paramsTokens toks c.arrow.params ++
        (c.block.map (Ty.blockTokens toks)).getD [] ++ [.arrow] ++ ks))
      (.proc ((c.map val).withResult t)) :=
  Reads.peek fun _ _ => (reads_skip [.caret]).bind_of_anyTokens
    (reads_callable Ty.proc hc h hopens (reads_optionalType hresult))

/-- A type that is neither a set of members nor a proc, when its parts are read. -/
theorem reads_primaryWith {t : Ty} (hset : t.isSet = false) (hproc : ∀ c, t ≠ .proc c)
    (hhere : t.wellSpelledHere = true)
    (h : ∀ u ∈ t.parts, Reads (before typeEnds) (anyType p) (toks u) (val u))
    (hopens : ∀ u ∈ t.parts, Opens (toks u)) :
    Reads (before factorEnds) (primaryWith p) (Ty.tokensWith toks t) (t.mapParts val) := by
  have hkeyword : ∀ {w : String} {t : Ty}, wordType? w = some t →
      Reads (before factorEnds) (primaryWith p) [.ident w] t :=
    fun hw => Reads.peek fun _ _ => reads_name_keyword hw
  have hliteral : ∀ (kind : TokenKind) (t : Ty),
      Reads (before factorEnds) (do skip 1; pure t) [kind] t :=
    fun kind t => (reads_skip [kind]).bind_of_anyTokens (Reads.pure t)
  cases t with
  | slot s => cases s <;> exact hkeyword rfl
  | untyped => exact hkeyword rfl
  | top => exact hkeyword rfl
  | bot => exact hkeyword rfl
  | void => exact hkeyword rfl
  | nil => exact hkeyword rfl
  | bool => exact hkeyword rfl
  | named kind n args =>
    simp only [Ty.wellSpelledHere, Bool.and_eq_true, beq_iff_eq] at hhere
    obtain ⟨hn, rfl⟩ := hhere
    have hname := reads_name_path hn h hopens
    refine Reads.peek fun rest hrest => ?_
    obtain ⟨ws, hne, hws, rfl⟩ := TypeName.isPath_iff.mp hn
    obtain ⟨w, ws, rfl⟩ := List.exists_cons_of_ne_nil hne
    rw [Ty.tokensWith, TypeName.tokens, TypeName.segments_ofSegments hne hws] at *
    exact hname
  | singleton n =>
    exact (Reads.peek fun _ _ => reads_name_singleton hhere).mono fun _ _ => trivial
  | union ms => cases hset
  | inter ms => cases hset
  | literal value =>
    cases value with
    | integer value => exact Reads.peek fun _ _ => hliteral _ _
    | string text => exact Reads.peek fun _ _ => hliteral _ _
    | symbol name => exact Reads.peek fun _ _ => hliteral _ _
    | boolean value => cases value <;> exact hkeyword rfl
  | tuple items =>
    refine Reads.peek fun _ _ => ?_
    rw [Ty.tokensWith, List.append_assoc]
    refine (reads_skip [.lbracket]).bind_of_anyTokens ?_
    exact ((reads_typeList h hopens).map (g := Ty.tuple)).mono fun _ _ => trivial
  | record fields =>
    simp only [Ty.wellSpelledHere, Bool.and_eq_true, List.all_eq_true, decide_eq_true_eq] at hhere
    have hbody := reads_recordBody (fun f hf => (hhere.1 f hf).1) hhere.2
      fun f hf => h f.2 (List.mem_map_of_mem hf)
    refine Reads.peek fun _ _ => ?_
    rw [Ty.tokensWith, List.append_assoc]
    refine (reads_skip [.lbrace]).bind_of_anyTokens ?_
    exact hbody.mono fun _ _ => trivial
  | proc c => exact absurd rfl (hproc c)
  | var w =>
    exact Reads.peek fun _ _ => reads_name_var (Bool.and_eq_true_iff.mp hhere).2
  | logic question => cases hhere

end With

/-- What opens a type is not empty. -/
theorem Opens.length_pos {ks : List TokenKind} (h : Opens ks) : 0 < ks.length := by
  cases ks with
  | nil => cases h [] (by decide)
  | cons kind ks => exact Nat.succ_pos _

end Parser

namespace Ty

open TypeShape.Parser

/-- The tokens are those of a factor and of members after it that spill over, and these are read as
primary types at every depth that the number of the tokens allows. -/
def ReadsAs (ks : List TokenKind) (s : Spill) : Prop :=
  ∃ (factor : List TokenKind) (members : List (List TokenKind × Ty)),
    ks = factor ++ members.flatMap (fun m => s.mark :: m.1) ∧ members.map (·.2) = s.tail ∧
      ∀ d, ks.length ≤ d → Reads (before factorEnds) (primary d) factor s.head ∧
        ∀ m ∈ members, Reads (before factorEnds) (primary d) m.1 m.2

/-- Nothing spills over. -/
theorem ReadsAs.of_factor {ks : List TokenKind} {t : Ty}
    (h : ∀ d, ks.length ≤ d → Reads (before factorEnds) (primary d) ks t) :
    ReadsAs ks { head := t } :=
  ⟨ks, [], (List.append_nil ks).symm, rfl, fun d hd => ⟨h d hd, List.forall_mem_nil _⟩⟩

/-- Members with marks between them, of which the first is the factor. -/
theorem ReadsAs.of_members (isUnion : Bool) {ms : List Ty} (hne : ms ≠ [])
    {toks : Ty → List TokenKind} {val : Ty → Ty} {kind : TokenKind}
    (hkind : (Spill.ofMembers isUnion (ms.map val)).mark = kind)
    (h : ∀ m ∈ ms, ∀ d, (toks m).length ≤ d →
      Reads (before factorEnds) (primary d) (toks m) (val m)) :
    ReadsAs ([kind].intercalate (ms.map toks)) (.ofMembers isUnion (ms.map val)) := by
  have hread : ∀ d, ([kind].intercalate (ms.map toks)).length ≤ d →
      ∀ m ∈ ms, Reads (before factorEnds) (primary d) (toks m) (val m) := fun d hd m hm =>
    h m hm d (Nat.le_trans (length_le_intercalate _ (List.mem_map_of_mem hm)) hd)
  obtain ⟨m, ms, rfl⟩ := List.exists_cons_of_ne_nil hne
  refine ⟨toks m, ms.map fun m => (toks m, val m), ?_, ?_, fun d hd => ?_⟩
  · rw [List.map_cons, intercalate_cons, hkind, List.flatMap_map, List.flatMap_map]
    rfl
  · rw [List.map_map]
    rfl
  · obtain ⟨hm, hms⟩ := List.forall_mem_cons.mp (hread d hd)
    exact ⟨hm, List.forall_mem_map.mpr hms⟩

/-- Where any type is asked for, the factor and the members are joined. -/
theorem ReadsAs.whole {ks : List TokenKind} {s : Spill} (h : ReadsAs ks s) {d : Nat}
    (hd : ks.length ≤ d) : Reads (before typeEnds) (anyType (primary d)) ks s.whole := by
  obtain ⟨factor, members, htokens, htail, hread⟩ := h
  obtain ⟨hfactor, hmembers⟩ := hread d hd
  have hall : ∀ m ∈ (factor, s.head) :: members, Reads (before factorEnds) (primary d) m.1 m.2 :=
    List.forall_mem_cons.mpr ⟨hfactor, hmembers⟩
  have hmarked : ks = [s.mark].intercalate (((factor, s.head) :: members).map (·.1)) := by
    rw [List.map_cons, intercalate_cons, List.flatMap_map]
    exact htokens
  rw [hmarked, Spill.whole, ← htail, ← List.map_cons (f := Prod.snd) (a := (factor, s.head))]
  have hne := List.cons_ne_nil (factor, s.head) members
  obtain ⟨head, isUnion, tail⟩ := s
  cases isUnion with
  | true => exact reads_anyType _ _ hne fun m hm => reads_interType_single (hall m hm)
  | false => exact reads_anyType_single (reads_interType _ _ hne hall)

/-- Unions and intersections stand in parentheses as members; what stands there without parentheses
has nothing that spills over. -/
theorem reads_member {loose : Ty → Bool} {t : Ty} (h : ReadsAs t.tokens t.spill)
    (hloose : loose t = false → t.isSet = false ∧ ∀ c, t ≠ proc c) {d : Nat}
    (hd : (memberTokens tokens loose t).length ≤ d) :
    Reads (before factorEnds) (primary d) (memberTokens tokens loose t) t.asRead := by
  unfold memberTokens at hd ⊢
  by_cases hparens : loose t = true
  · rw [if_pos hparens] at hd ⊢
    simp only [List.length_append, List.length_singleton] at hd
    obtain ⟨d, rfl⟩ : ∃ n, d = n + 1 := ⟨d - 1, by omega⟩
    have hinner := h.whole (d := d) (by omega)
    exact (reads_parens hinner).mono fun _ _ => trivial
  · rw [if_neg hparens] at hd ⊢
    obtain ⟨hset, hproc⟩ := hloose (Bool.eq_false_iff.mpr hparens)
    rw [spill_eq_mapParts hset hproc] at h
    obtain ⟨factor, members, htokens, htail, hread⟩ := h
    obtain rfl := List.map_eq_nil_iff.mp htail
    rw [List.flatMap_nil, List.append_nil] at htokens
    rw [asRead_eq_mapParts hset hproc]
    exact htokens ▸ (hread d hd).1

/-- The members of a union that stand without parentheses are neither sets of members nor procs. -/
theorem isFactor_of_looseInUnion {t : Ty} (hmember : t.isUnionMember = true)
    (h : t.looseInUnion = false) : t.isSet = false ∧ ∀ c, t ≠ proc c := by
  cases t with
  | union ms => cases hmember
  | inter ms => cases h
  | proc c => cases h
  | _ => exact ⟨rfl, by rintro c ⟨⟩⟩

/-- A member of an intersection that needs no parentheses is a factor. -/
theorem isFactor_of_looseInInter {t : Ty} (hmember : t.isInterMember = true)
    (h : t.looseInInter = false) : t.isSet = false ∧ ∀ c, t ≠ proc c := by
  cases t with
  | union ms => cases h
  | inter ms => cases hmember
  | proc c => cases h
  | _ => exact ⟨rfl, by rintro c ⟨⟩⟩

/-- What is read for the tokens of a type.  The depth is at least the number of the tokens, since
each level takes one of them. -/
theorem readsAs_tokens {t : Ty} (h : t.WellSpelled) : ReadsAs t.tokens t.spill := by
  induction t using inductionOnParts with
  | step t ih =>
    have hread : ∀ u ∈ t.parts, ReadsAs u.tokens u.spill := fun u hu => ih u hu (all_part h hu)
    have hopens : ∀ u ∈ t.parts, Opens u.tokens := fun u hu => opens_tokens (all_part h hu)
    have hhere := all_here h
    have hpos := (opens_tokens h).length_pos
    -- Below a type that is no set of members, a token less is left.
    have hparts : t.isSet = false → ∀ d, t.tokens.length ≤ d + 1 → ∀ u ∈ t.parts,
        Reads (before typeEnds) (anyType (primary d)) u.tokens u.asRead := fun hset d hd u hu => by
      have hlt := length_lt_tokensWith tokens hset hu
      rw [← tokens_eq] at hlt
      exact (hread u hu).whole (by omega)
    cases t with
    | union ms =>
      obtain ⟨hlength, -, hmembers⟩ := normalHere_union.mp hhere
      rw [tokens_eq, spill_union]
      refine .of_members true (by rintro rfl; simp at hlength) rfl fun m hm d hd => ?_
      exact reads_member (hread m hm) (isFactor_of_looseInUnion (hmembers m hm)) hd
    | inter ms =>
      obtain ⟨hlength, -, hmembers⟩ := normalHere_inter.mp hhere
      rw [tokens_eq, spill_inter]
      refine .of_members false (by rintro rfl; simp at hlength) rfl fun m hm d hd => ?_
      exact reads_member (hread m hm) (isFactor_of_looseInInter (hmembers m hm)) hd
    | proc c =>
      have hlt := length_lt_tokensWith tokens rfl (result_mem_parts c)
      rw [← tokens_eq] at hlt
      obtain ⟨factor, members, htokens, htail, hresult⟩ := hread _ (result_mem_parts c)
      rw [spill_proc]
      refine ⟨[.caret] ++ (paramsTokens tokens c.arrow.params ++
        (c.block.map (blockTokens tokens)).getD [] ++ [.arrow] ++ factor), members, ?_, htail,
        fun d hd => ⟨?_, (hresult d (by omega)).2⟩⟩
      · rw [tokens_eq, tokensWith, callableTokens, htokens]
        simp only [List.append_assoc]
        rfl
      · obtain ⟨d, rfl⟩ : ∃ n, d = n + 1 := ⟨d - 1, by omega⟩
        exact reads_proc hhere (hparts rfl d hd) hopens (hresult d (by omega)).1
    | _ =>
      rw [spill_eq_mapParts rfl (by rintro c ⟨⟩)]
      refine .of_factor fun d hd => ?_
      obtain ⟨d, rfl⟩ : ∃ n, d = n + 1 := ⟨d - 1, by omega⟩
      rw [tokens_eq]
      exact reads_primaryWith rfl (by rintro c ⟨⟩) hhere (hparts rfl d hd) hopens

end Ty

/-! ## Overloads -/

/-- The tokens of a type parameter. -/
def TypeParam.tokens (p : TypeParam) : List TokenKind :=
  .ident p.name ::
    match p.bound with
    | none => []
    | some t => .lt :: t.tokens

namespace Overload

/-- The tokens of type parameters. -/
def typeParamTokens : List TypeParam → List TokenKind
  | [] => []
  | ps => [.lbracket] ++ [.comma].intercalate (ps.map TypeParam.tokens) ++ [.rbracket]

/-- The tokens of an overload. -/
def tokens (o : Overload) : List TokenKind :=
  typeParamTokens o.typeParams ++ Ty.callableTokens Ty.tokens o.callable

/-- A type parameter is written as its tokens. -/
theorem spells_typeParam {p : TypeParam} (hname : Text.isWord p.name = true)
    (hbound : ∀ t, p.bound = some t → Spells Lexer.boundary t.render t.tokens) :
    Spells Lexer.boundary p.render p.tokens := by
  unfold TypeParam.render TypeParam.tokens
  cases hp : p.bound with
  | none => exact spells_word hname
  | some t =>
    have hmark := (spells_word hname).append (spells_mark " < " .lt) fun _ _ => rfl
    exact hmark.append_of_anything (hbound t hp)

/-- So are all type parameters in their brackets. -/
theorem spells_typeParams {ps : List TypeParam} (hnames : ∀ p ∈ ps, Text.isWord p.name = true)
    (hbounds : ∀ p ∈ ps, ∀ t, p.bound = some t → Spells Lexer.boundary t.render t.tokens) :
    Spells Lexer.anything (renderTypeParams ps) (typeParamTokens ps) := by
  cases ps with
  | nil => exact Lexer.Lexes.nil
  | cons p ps =>
    have hlist : Spells Lexer.boundary (", ".intercalate ((p :: ps).map TypeParam.render))
        ([.comma].intercalate ((p :: ps).map TypeParam.tokens)) :=
      Spells.intercalate (spells_mark ", " .comma) (fun _ => rfl)
        fun q hq => spells_typeParam (hnames q hq) (hbounds q hq)
    have hmark : Lexer.Lexes Lexer.anything [']'] [.rbracket] := Lexer.lexes_mark rfl
    have hclosing : Spells Lexer.anything "] " [.rbracket] :=
      hmark.append_of_anything Lexer.lexes_blank
    exact (spells_mark "[" .lbracket).enclose hlist hclosing fun _ => rfl

variable {o : Overload}

/-- The bounds of type parameters are among the types of an overload. -/
theorem bound_mem_types {p : TypeParam} (hp : p ∈ o.typeParams) {t : Ty} (ht : p.bound = some t) :
    t ∈ o.types :=
  List.mem_append_right _ (List.mem_flatMap.mpr ⟨p, hp, by simp [ht]⟩)

/-- The tokens of a written overload whose texts are legible. -/
theorem spells_of_legible (h : o.WellSpelled) (hlegible : o.Legible) :
    Spells Lexer.boundary o.render o.tokens := by
  have htypes : ∀ t ∈ o.types, Spells Lexer.boundary t.render t.tokens :=
    fun t ht => Ty.spells_of_legible (h.types t ht) (hlegible t ht)
  have hparams := spells_typeParams h.typeParams fun p hp t ht => htypes t (bound_mem_types hp ht)
  exact hparams.append_of_anything (Ty.spells_callable h.callable
    (fun t ht => htypes t (List.mem_append_left _ ht))
    fun t ht => Ty.opens_tokens (h.types t (List.mem_append_left _ ht)))

/-- An overload is written as its tokens. -/
theorem spells_render (h : o.Printable) : Spells Lexer.boundary o.render o.tokens :=
  spells_of_legible (printable_iff.mp h).1 (printable_iff.mp h).2.1

end Overload

namespace Parser

/-- The tokens of a well-spelled type are read as what it is read as. -/
theorem reads_type_asRead {t : Ty} (h : t.WellSpelled) :
    Reads (before typeEnds) type t.tokens t.asRead :=
  Reads.remaining fun _ hn => (Ty.readsAs_tokens h).whole hn

/-- The tokens of a printable type are read as itself. -/
theorem reads_type {t : Ty} (h : t.Printable) : Reads (before typeEnds) type t.tokens t := by
  obtain ⟨hspelled, -, hplain⟩ := Ty.printable_iff.mp h
  have hread := reads_type_asRead hspelled
  rwa [Ty.asRead_of_plain hspelled.normal hplain] at hread

/-- A name that is not followed by another one has no markers before it. -/
theorem reads_typeParamMarkers (n : Nat) (markers : Bool × Variance) (name : String) :
    Reads (fun rest => ∃ ks, rest = .ident name :: ks ∧ ∀ w, first ks ≠ .ident w)
      (typeParamMarkers n markers) [] markers := by
  cases n with
  | zero => exact Reads.pure markers
  | succ n =>
    rintro c rest hc ⟨ks, rfl, hks⟩
    have hpair : wordPair? c = .ok (none, c) := by
      unfold wordPair?
      split
      · rename_i hword
        rw [c.peekAt_eq, hc] at hword
        exact absurd hword (hks _)
      · rfl
    refine ⟨c, ?_, hc⟩
    rw [typeParamMarkers]
    change Except.bind (wordPair? c) _ = _
    rw [hpair]
    rfl

/-- The tokens of a type parameter are read back, with its bound. -/
theorem reads_typeParam {p : TypeParam} (hbound : ∀ t, p.bound = some t → t.WellSpelled) :
    Reads (before typeEnds) typeParam p.tokens p.asRead := by
  obtain ⟨name, bound, variance, unchecked⟩ := p
  refine Reads.remaining fun n _ => ?_
  cases bound with
  | none =>
    refine (reads_typeParamMarkers n _ name).bind_of_nil ?_ ?_
    · refine (reads_word name).bind_of_anyTokens ?_
      exact (reads_not_accept .lt).bind_of_nil (Reads.pure _) fun _ hrest =>
        hrest.notBefore (by decide)
    · intro rest hrest
      exact ⟨rest, rfl, fun w => hrest.notBefore (by simp [typeEnds])⟩
  | some t =>
    refine (reads_typeParamMarkers n _ name).bind_of_nil ?_ ?_
    · refine (reads_word name).bind_of_anyTokens ?_
      refine (reads_accept .lt).bind_of_anyTokens ?_
      exact (reads_type_asRead (hbound t rfl)).map
    · intro rest _
      exact ⟨_, rfl, fun w => by rintro ⟨⟩⟩

/-- So are those of all type parameters. -/
theorem reads_typeParams {ps : List TypeParam}
    (hbounds : ∀ p ∈ ps, ∀ t, p.bound = some t → t.WellSpelled) :
    Reads (notBefore .lbracket) typeParams (Overload.typeParamTokens ps)
      (ps.map TypeParam.asRead) := by
  cases ps with
  | nil => exact (reads_not_accept .lbracket).bind_of_nil (Reads.pure []) fun _ hrest => hrest
  | cons p ps =>
    have hlist := reads_sepBy .comma TypeParam.tokens TypeParam.asRead (List.cons_ne_nil p ps)
      (fun q hq => reads_typeParam (hbounds q hq)) (before_cons (by decide))
    have hclosing : TokenKind.rbracket ∈ typeEnds := by decide
    have hclosed := reads_closed .typeParamsEnd id hlist fun _ =>
      ⟨before_cons hclosing _, by rintro ⟨⟩⟩
    rw [Overload.typeParamTokens, List.append_assoc]
    · exact ((reads_accept .lbracket).bind_of_anyTokens hclosed).mono fun _ _ => trivial
    · rintro ⟨⟩

/-- The tokens of a well-spelled overload are read as what it is read as. -/
theorem reads_overload_asRead {o : Overload} (h : o.WellSpelled) :
    Reads (before typeEnds) overload o.tokens o.asRead := by
  have hparams := reads_typeParams fun p hp t ht => h.types t (Overload.bound_mem_types hp ht)
  refine hparams.bind (Reads.remaining fun n hn => ?_) fun _ _ => by rintro ⟨⟩
  have htypes : ∀ t ∈ o.callable.toList, t.WellSpelled :=
    fun t ht => h.types t (List.mem_append_left _ ht)
  have hlength : ∀ t ∈ o.callable.toList, t.tokens.length ≤ n :=
    fun t ht => Nat.le_trans (Ty.length_le_callableTokens Ty.tokens ht) hn
  have hread : ∀ t ∈ o.callable.toList,
      Reads (before typeEnds) (anyType (primary n)) t.tokens t.asRead :=
    fun t ht => (Ty.readsAs_tokens (htypes t ht)).whole (hlength t ht)
  have hresult : o.callable.arrow.result ∈ o.callable.toList :=
    Callable.mem_toList.mpr (Or.inr (Or.inl rfl))
  exact reads_callable (fun c => (⟨o.typeParams.map TypeParam.asRead, c, []⟩ : Overload)) h.callable
    hread (fun t ht => Ty.opens_tokens (htypes t ht)) (hread _ hresult)

/-- The tokens of a printable overload are read as itself, without origins. -/
theorem reads_overload {o : Overload} (h : o.Printable) :
    Reads (before typeEnds) overload o.tokens { o with origins := [] } := by
  obtain ⟨hspelled, -, hplain⟩ := Overload.printable_iff.mp h
  have hread := reads_overload_asRead hspelled
  rwa [Overload.asRead_of_plain (fun t ht => (hspelled.types t ht).normal) hplain] at hread

end Parser

/-- Written types and overloads are read back.  Where an overload comes from is not written, and
takes no part in its equality. -/
theorem Ty.parse_render :
    (∀ t : Ty, t.Printable → Ty.parse t.render = .ok t) ∧
      ∀ o : Overload, o.Printable →
        ∃ p, Overload.parse o.render = .ok p ∧ p = { o with origins := [] } ∧ (p == o) = true := by
  constructor
  · intro t ht
    obtain ⟨tokens, hscan, hkinds⟩ := (Ty.spells_render ht).scan
    exact (Parser.reads_type ht).run hscan hkinds (by decide)
  · intro o ho
    obtain ⟨tokens, hscan, hkinds⟩ := (Overload.spells_render ho).scan
    exact ⟨_, (Parser.reads_overload ho).run hscan hkinds (by decide), rfl, Overload.beq_refl o⟩

/-- An overload with a bounded type parameter, all kinds of parameters and a block. -/
def Overload.ofEachPart : Overload where
  typeParams := [{ name := "T", bound := some (.named .interfaceOf ⟨"::A::_B"⟩ [.untyped]) }]
  callable :=
    ⟨⟨⟨[.slot .selfType], [.literal (.integer (-7))], some (.var "T"), [("out", .nil)],
          [("self", .tuple [])], some .bot⟩, .union [.bool, .nil]⟩,
      some ⟨⟨{}, .union [.proc ⟨⟨{}, .void⟩, none⟩, .inter [.nil, .var "U"]]⟩, true,
        some (.record [(.string "a\"b", .top), (.symbol "c?", .singleton ⟨"::A"⟩)])⟩⟩

/-- An overload with every kind of part is read back. -/
theorem Ty.parse_render_ofEachPart :
    (∀ t ∈ Overload.ofEachPart.types, Ty.parse t.render = .ok t) ∧
      ∃ p, Overload.parse Overload.ofEachPart.render = .ok p ∧
        p = Overload.ofEachPart ∧ (p == Overload.ofEachPart) = true := by
  have hprintable : Overload.ofEachPart.Printable := ⟨by decide, by decide, by decide⟩
  exact ⟨fun t ht => Ty.parse_render.1 t (hprintable.types t ht), Ty.parse_render.2 _ hprintable⟩

end TypeShape
