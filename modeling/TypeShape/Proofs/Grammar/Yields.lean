import TypeShape.Proofs.Failure
import TypeShape.Proofs.Grammar.Reading
import TypeShape.Proofs.Grammar.Tokens
import TypeShape.Proofs.Types.Overloads

/-!
# What can be read

Whatever text is read, what is known of its tokens and kept by unions and intersections is known of
every type that comes out.  A parser is followed from its parts to the whole by what it can yield,
with no regard to the order of the tokens.

Main results:

- Theorem `Parser.Yields.bind`: one parser after another.
- Theorem `Parser.yields_primary`: every primary type passes a test that tokens and sets keep.
- Theorems `Parser.yields_type`, `Parser.yields_typeParam` and `Parser.yields_overload`: so does
  everything read from a whole text.
-/

namespace TypeShape

/-- A token ahead is the end or one of the tokens left. -/
theorem Cursor.peekAt_cases (c : Cursor) (n : Nat) : c.peekAt n = .eof ∨ c.peekAt n ∈ c.kinds := by
  rw [c.peekAt_eq]
  cases h : c.kinds.drop n with
  | nil => exact Or.inl rfl
  | cons kind ks => exact Or.inr (List.mem_of_mem_drop (h ▸ List.mem_cons_self))

namespace Parser

variable {α β : Type} {G : TokenKind → Prop} {P : α → Prop} {Q : β → Prop}

/-- From tokens with a property the parser gives only values with another one, and the tokens that
it leaves have the property still. -/
def Yields (G : TokenKind → Prop) (P : α → Prop) (p : Parser α) : Prop :=
  ∀ c a c', (∀ k ∈ c.kinds, G k) → p c = .ok (a, c') → P a ∧ ∀ k ∈ c'.kinds, G k

/-- Nothing is known of the value. -/
abbrev Keeps (G : TokenKind → Prop) (p : Parser α) : Prop :=
  Yields G (fun _ => True) p

namespace Yields

/-- What is given without reading has the property if it is given. -/
theorem pure {a : α} (h : P a) : Yields G P (pure a) := by
  intro c b c' hc hb
  obtain ⟨rfl, rfl⟩ := Prod.mk.inj (Except.ok.inj hb)
  exact ⟨h, hc⟩

/-- The second parser may use what is known of the value of the first. -/
theorem bind {p : Parser α} {f : α → Parser β} (hp : Yields G P p)
    (hf : ∀ a, P a → Yields G Q (f a)) : Yields G Q (p >>= f) := by
  intro c b c' hc h
  obtain ⟨r, hr, h⟩ := exists_of_bind_ok (x := p c) (f := fun r => f r.1 r.2) h
  obtain ⟨ha, hkinds⟩ := hp c r.1 r.2 hc hr
  exact hf r.1 ha r.2 b c' hkinds h

/-- Nothing needs to be known of the value of the first parser. -/
theorem after {p : Parser α} {f : α → Parser β} (hp : Keeps G p) (hf : ∀ a, Yields G Q (f a)) :
    Yields G Q (p >>= f) :=
  hp.bind fun a _ => hf a

/-- The result of a parser may be mapped. -/
theorem map {p : Parser α} {f : α → β} (hp : Yields G P p) (hf : ∀ a, P a → Q (f a)) :
    Yields G Q (p >>= fun a => Pure.pure (f a)) :=
  hp.bind fun a ha => .pure (hf a ha)

/-- A whole text gives what its parser can give. -/
theorem run {p : Parser α} (hp : Yields G P p) {source : String}
    (hscan : ∀ tokens, Token.scan source = .ok tokens → ∀ t ∈ tokens, G t.kind) {a : α}
    (h : p.run source = .ok a) : P a := by
  obtain ⟨tokens, htokens, h⟩ := exists_of_bind_ok h
  obtain ⟨⟨b, c⟩, hb, h⟩ := exists_of_bind_ok h
  dsimp only at h
  split at h
  · obtain rfl := Except.ok.inj h
    refine (hp _ _ _ ?_ hb).1
    intro k hk
    obtain ⟨t, ht, rfl⟩ := List.mem_map.mp hk
    exact hscan tokens htokens t ht
  · cases h

end Yields

/-! ## Single tokens -/

/-- A parser that fails gives nothing. -/
theorem yields_fail (cause : SyntaxCause) : Yields G P (fail cause) := by
  rintro c a c' - ⟨⟩

/-- Tokens that are left after others are among those before. -/
theorem kinds_advance_of {c : Cursor} (hc : ∀ k ∈ c.kinds, G k) (n : Nat) :
    ∀ k ∈ (c.advance n).kinds, G k := by
  intro k hk
  rw [c.kinds_advance] at hk
  exact hc k (List.mem_of_mem_drop hk)

/-- The tokens left at a cursor are good. -/
theorem yields_get : Yields G (fun c => ∀ k ∈ c.kinds, G k) get := by
  intro c a c' hc h
  obtain ⟨rfl, rfl⟩ := Prod.mk.inj (Except.ok.inj h)
  exact ⟨hc, hc⟩

/-- The token ahead is the end or good. -/
theorem yields_peek : Yields G (fun k => k = .eof ∨ G k) peek := by
  intro c a c' hc h
  obtain ⟨rfl, rfl⟩ := Prod.mk.inj (Except.ok.inj h)
  exact ⟨(c.peekAt_cases 0).imp_right (hc _), hc⟩

/-- The token that is taken is the end or good. -/
theorem yields_next : Yields G (fun k => k = .eof ∨ G k) next := by
  intro c a c' hc h
  obtain ⟨rfl, rfl⟩ := Prod.mk.inj (Except.ok.inj h)
  exact ⟨(c.peekAt_cases 0).imp_right (hc _), kinds_advance_of hc 1⟩

/-- Asking for the number of tokens keeps the rest good. -/
theorem keeps_remaining : Keeps G remaining := by
  intro c a c' hc h
  obtain ⟨rfl, rfl⟩ := Prod.mk.inj (Except.ok.inj h)
  exact ⟨trivial, hc⟩

/-- Skipping keeps the rest good. -/
theorem keeps_skip (n : Nat) : Keeps G (skip n) := by
  intro c a c' hc h
  obtain ⟨rfl, rfl⟩ := Prod.mk.inj (Except.ok.inj h)
  exact ⟨trivial, kinds_advance_of hc n⟩

/-- Accepting a token keeps the rest good. -/
theorem keeps_accept (kind : TokenKind) : Keeps G (accept kind) := by
  intro c a c' hc h
  unfold accept at h
  split at h
  · obtain ⟨rfl, rfl⟩ := Prod.mk.inj (Except.ok.inj h)
    exact ⟨trivial, kinds_advance_of hc 1⟩
  · obtain ⟨rfl, rfl⟩ := Prod.mk.inj (Except.ok.inj h)
    exact ⟨trivial, hc⟩

/-- Requiring a token keeps the rest good. -/
theorem keeps_require (kind : TokenKind) (what : Expected) : Keeps G (require kind what) := by
  refine .after (keeps_accept kind) fun accepted => ?_
  split
  · exact .pure trivial
  · exact yields_fail _

/-- A word that is read is a good token. -/
theorem yields_word : Yields G (fun w => G (.ident w)) word := by
  refine yields_next.bind fun kind hkind => ?_
  cases kind with
  | ident w => exact .pure (hkind.resolve_left (by simp))
  | _ => exact yields_fail _

/-! ## Lists -/

variable {separator : TokenKind} {item : Parser α}

/-- Every further item after a separator has the property of items. -/
theorem yields_more (h : Yields G P item) (n : Nat) :
    Yields G (fun as => ∀ a ∈ as, P a) (more separator item n) := by
  induction n with
  | zero => exact .pure (by simp)
  | succ n ih =>
    refine .after (keeps_accept separator) fun accepted => ?_
    split
    · exact h.bind fun a ha => ih.map fun as has => List.forall_mem_cons.mpr ⟨ha, has⟩
    · exact .pure (by simp)

/-- Every item of a list with separators has the property of items. -/
theorem yields_sepBy (h : Yields G P item) :
    Yields G (fun as => ∀ a ∈ as, P a) (sepBy separator item) :=
  h.bind fun _ ha => .after keeps_remaining fun n =>
    (yields_more h n).map fun _ has => List.forall_mem_cons.mpr ⟨ha, has⟩

/-! ## Tests that tokens and sets keep -/

/-- The keywords of a parameter list are known from their tokens, and they are in order. -/
structure Named (G : TokenKind → Prop) (p : Params Ty) : Prop where
  keywords : ∀ e ∈ p.keywords, G (.ident e.1)
  optionalKeywords : ∀ e ∈ p.optionalKeywords, G (.ident e.1)
  sorted : Keyed.Sorted p.keywords
  sortedOptional : Keyed.Sorted p.optionalKeywords

/-- The keywords of a callable and of its block. -/
structure NamedCallable (G : TokenKind → Prop) (c : Callable Ty) : Prop where
  params : Named G c.arrow.params
  block : ∀ b, c.block = some b → Named G b.arrow.params

/-- A literal is read from a token as the key of a record field. -/
inductive KeyOf (G : TokenKind → Prop) : Literal → Prop where
  | integer {value : Int} (h : G (.integer value)) : KeyOf G (.integer value)
  | string {text : String} (h : G (.str text)) : KeyOf G (.string text)
  | symbol {name : String} (h : G (.symbol name)) : KeyOf G (.symbol name)
  | word {name : String} (h : G (.ident name)) : KeyOf G (.symbol name)

/-- A test of types that unions and intersections keep, and that tokens with a property pass. -/
structure Admits (G : TokenKind → Prop) (test : Ty → Bool) : Prop where
  stable : Ty.Stable test
  keyword : ∀ {w : String} {t : Ty}, wordType? w = some t → test t = true
  integer : ∀ {value : Int}, G (.integer value) → test (.literal (.integer value)) = true
  string : ∀ {text : String}, G (.str text) → test (.literal (.string text)) = true
  symbol : ∀ {name : String}, G (.symbol name) → test (.literal (.symbol name)) = true
  var : ∀ {w : String}, G (.ident w) → isCapitalized w = true → test (.var w) = true
  singleton : ∀ {path : List String}, path ≠ [] → (∀ w ∈ path, G (.ident w)) →
    test (.singleton (.ofString ("::".intercalate path))) = true
  named : ∀ {path : List String} (args : List Ty), path ≠ [] → (∀ w ∈ path, G (.ident w)) →
    test (.named (nominalKind (.ofString ("::".intercalate path)))
      (.ofString ("::".intercalate path)) args) = true
  tuple : ∀ items : List Ty, test (.tuple items) = true
  record : ∀ {fields : List (Literal × Ty)}, (∀ f ∈ fields, KeyOf G f.1) → Keyed.Sorted fields →
    test (.record fields) = true
  proc : ∀ {c : Callable Ty}, NamedCallable G c → test (.proc c) = true

/-! ## Types, given a reader of primary types -/

section Given

variable {test : Ty → Bool} (hG : Admits G test)

include hG

/-- Optional marks add `nil` to a type, which passes again. -/
theorem yields_optionalMarks (n : Nat) {t : Ty} (ht : t.all test = true) :
    Yields G (fun t => t.all test = true) (optionalMarks n t) := by
  have hnil : Ty.nil.all test = true := Ty.all_of_parts_eq_nil rfl (hG.keyword (w := "nil") rfl)
  induction n generalizing t with
  | zero => exact .pure ht
  | succ n ih =>
    refine .after (keeps_accept _) fun accepted => ?_
    split
    · exact ih (hG.stable.unionOf (by simp [ht, hnil]))
    · exact .pure ht

omit hG in
/-- Types that are joined pass if joining several keeps what passes. -/
theorem all_joinMembers {join : List Ty → Ty} {ts : List Ty}
    (hjoin : (∀ t ∈ ts, t.all test = true) → (join ts).all test = true)
    (hts : ∀ t ∈ ts, t.all test = true) : (joinMembers join ts).all test = true := by
  unfold joinMembers
  split
  · exact hts _ (by simp)
  · exact hjoin hts

variable {primary : Parser Ty} (h : Yields G (fun t => t.all test = true) primary)

include h

/-- An optional type passes if primary types do. -/
theorem yields_optionalType : Yields G (fun t => t.all test = true) (optionalType primary) :=
  h.bind fun _ ht => .after keeps_remaining fun n => yields_optionalMarks hG n ht

/-- So does an intersection. -/
theorem yields_interType : Yields G (fun t => t.all test = true) (interType primary) :=
  (yields_sepBy (yields_optionalType hG h)).map fun _ hts => all_joinMembers hG.stable.interOf hts

/-- So does a union, which is any type. -/
theorem yields_anyType : Yields G (fun t => t.all test = true) (anyType primary) :=
  (yields_sepBy (yields_interType hG h)).map fun _ hts => all_joinMembers hG.stable.unionOf hts

/-- So do all types of a list. -/
theorem yields_typeList : Yields G (fun ts => ∀ t ∈ ts, t.all test = true) (typeList primary) := by
  refine .after (keeps_accept _) fun accepted => ?_
  split
  · exact .pure (by simp)
  · exact (yields_sepBy (yields_anyType hG h)).bind fun _ hts =>
      .after (keeps_require _ _) fun _ => .pure hts

/-! ### Parameters and blocks -/

omit hG h in
/-- The types after a parameter was added are its own and those before. -/
theorem Param.eq_or_mem_of_addTo {p : Params Ty} {x : Param} {t : Ty}
    (ht : t ∈ (x.addTo p).toList) : t = x.type ∨ t ∈ p.toList := by
  cases x with
  | required u | optional u | rest u | restKeywords u =>
    simp only [addTo, type, Params.toList, Option.toList, List.mem_append, List.mem_singleton]
      at ht ⊢
    grind
  | keyword name u | optionalKeyword name u =>
    have hinsert : ∀ es : List (String × Ty),
        t ∈ (Keyed.insert name u es).map (·.2) → t = u ∨ t ∈ es.map (·.2) :=
      fun es => Keyed.eq_or_mem_of_mem_values_insert
    have hrequired := hinsert p.keywords
    have hoptional := hinsert p.optionalKeywords
    simp only [addTo, type, Params.toList, List.mem_append] at ht ⊢
    grind

omit hG h in
/-- A parameter with good names keeps the names good. -/
theorem Named.addTo {p : Params Ty} (hp : Named G p) {x : Param}
    (hx : ∀ w, .ident w ∈ x.mark → G (.ident w)) : Named G (x.addTo p) := by
  have hinsert : ∀ {w : String} {u : Ty} {es : List (String × Ty)}, G (.ident w) →
      (∀ e ∈ es, G (.ident e.1)) → ∀ e ∈ Keyed.insert w u es, G (.ident e.1) := by
    intro w u es hw hes e he
    rcases Keyed.mem_insert he with rfl | he
    · exact hw
    · exact hes e he
  cases x with
  | required u | optional u | rest u | restKeywords u => exact ⟨hp.1, hp.2, hp.3, hp.4⟩
  | keyword name u =>
    exact ⟨hinsert (hx name (by simp [Param.mark])) hp.1, hp.2, Keyed.sorted_insert hp.3, hp.4⟩
  | optionalKeyword name u =>
    exact ⟨hp.1, hinsert (hx name (by simp [Param.mark])) hp.2, hp.3, Keyed.sorted_insert hp.4⟩

omit hG h in
/-- Adding parameters keeps their types passing and their names good. -/
theorem foldl_addTo {xs : List Param}
    (hxs : ∀ x ∈ xs, x.type.all test = true ∧ ∀ w, .ident w ∈ x.mark → G (.ident w))
    {p : Params Ty} (hp : (∀ t ∈ p.toList, t.all test = true) ∧ Named G p) :
    (∀ t ∈ (xs.foldl Param.addTo p).toList, t.all test = true) ∧
      Named G (xs.foldl Param.addTo p) := by
  induction xs generalizing p with
  | nil => exact hp
  | cons x xs ih =>
    obtain ⟨hx, hxs⟩ := List.forall_mem_cons.mp hxs
    refine ih hxs ⟨fun t ht => ?_, hp.2.addTo hx.2⟩
    rcases Param.eq_or_mem_of_addTo ht with rfl | ht
    · exact hx.1
    · exact hp.1 t ht

/-- A parameter has a type that passes and good names. -/
theorem yields_param :
    Yields G (fun x => x.type.all test = true ∧ ∀ w, .ident w ∈ x.mark → G (.ident w))
      (param primary) := by
  have hany := yields_anyType hG h
  refine yields_get.bind fun c hc => ?_
  have hword : ∀ {n : Nat} {w : String}, c.peekAt n = .ident w → G (.ident w) := by
    intro n w hw
    rcases c.peekAt_cases n with heof | hmem
    · rw [hw] at heof
      cases heof
    · exact hw ▸ hc _ hmem
  split
  · rename_i hname _
    exact .after (keeps_skip _) fun _ =>
      hany.map fun _ ht => ⟨ht, by simpa [Param.mark] using hword hname⟩
  · exact .after (keeps_skip _) fun _ => hany.map fun _ ht => ⟨ht, by simp [Param.mark]⟩
  · exact .after (keeps_skip _) fun _ => hany.map fun _ ht => ⟨ht, by simp [Param.mark]⟩
  · exact .after (keeps_skip _) fun _ => hany.map fun _ ht => ⟨ht, by simp [Param.mark]⟩
  · rename_i hname _
    exact .after (keeps_skip _) fun _ =>
      hany.map fun _ ht => ⟨ht, by simpa [Param.mark] using hword hname⟩
  · exact hany.map fun _ ht => ⟨ht, by simp [Param.mark]⟩

/-- A parameter list has types that pass and good names. -/
theorem yields_params :
    Yields G (fun p => (∀ t ∈ p.toList, t.all test = true) ∧ Named G p) (params primary) := by
  have hnone : (∀ t ∈ ({} : Params Ty).toList, t.all test = true) ∧ Named G ({} : Params Ty) :=
    ⟨by simp [Params.toList], by simp, by simp, .nil, .nil⟩
  refine .after (keeps_accept _) fun opened => ?_
  split
  · refine .after (keeps_accept _) fun closed => ?_
    split
    · exact .pure hnone
    · exact (yields_sepBy (yields_param hG h)).bind fun _ hxs =>
        .after (keeps_require _ _) fun _ => .pure (foldl_addTo hxs hnone)
  · exact .pure hnone

/-- The receiver of a block has a type that passes. -/
theorem yields_blockReceiver :
    Yields G (fun r => ∀ t ∈ r.toList, t.all test = true) (blockReceiver primary) := by
  refine .after (keeps_accept _) fun opened => ?_
  split
  · refine yields_word.bind fun name _ => ?_
    split
    · exact .after (keeps_require _ _) fun _ => (yields_anyType hG h).bind fun t ht =>
        .after (keeps_require _ _) fun _ => .pure (by simpa)
    · exact yields_fail _
  · exact .pure (by simp)

/-- A block has types that pass and good names. -/
theorem yields_blockBody (optional : Bool) :
    Yields G (fun b => (∀ t ∈ b.toList, t.all test = true) ∧ Named G b.arrow.params)
      (blockBody primary optional) := by
  refine (yields_params hG h).bind fun p hp => (yields_blockReceiver hG h).bind fun receiver hr =>
    .after (keeps_require _ _) fun _ => (yields_anyType hG h).bind fun result ht =>
      .after (keeps_require _ _) fun _ => .pure ⟨fun t hmem => ?_, hp.2⟩
  simp only [Block.toList, Arrow.toList, List.mem_append, List.mem_singleton] at hmem
  rcases hmem with (hmem | rfl) | hmem
  · exact hp.1 t hmem
  · exact ht
  · exact hr t hmem

/-- So does a block that may be left out. -/
theorem yields_block :
    Yields G (fun b? => ∀ b, b? = some b →
      (∀ t ∈ b.toList, t.all test = true) ∧ Named G b.arrow.params) (block primary) := by
  refine yields_get.bind fun c _ => ?_
  split
  · exact .after (keeps_skip _) fun _ =>
      (yields_blockBody hG h true).map fun _ hb => by simpa using hb
  · exact .after (keeps_skip _) fun _ =>
      (yields_blockBody hG h false).map fun _ hb => by simpa using hb
  · exact .pure (by simp)

/-- A callable whose result is read in some way. -/
theorem yields_callable {what : Expected} {result : Parser Ty} (g : Callable Ty → β)
    (hresult : Yields G (fun t => t.all test = true) result)
    (hg : ∀ c : Callable Ty, (∀ t ∈ c.toList, t.all test = true) → NamedCallable G c → Q (g c)) :
    Yields G Q (do
      let p ← params primary
      let b ← block primary
      require .arrow what
      let t ← result
      pure (g ⟨⟨p, t⟩, b⟩)) := by
  refine (yields_params hG h).bind fun p hp => (yields_block hG h).bind fun b hb =>
    .after (keeps_require _ _) fun _ =>
      hresult.map fun t ht => hg _ ?_ ⟨hp.2, fun b' hb' => (hb b' hb').2⟩
  intro u hu
  rcases Callable.mem_toList.mp hu with hu | rfl | ⟨b', hb', hu⟩
  · exact hp.1 u hu
  · exact ht
  · exact (hb b' hb').1 u hu

/-! ### Primary types -/

omit hG h in
/-- A key of a record is written with good tokens. -/
theorem yields_recordKey : Yields G (KeyOf G) recordKey := by
  refine yields_next.bind fun first hfirst => yields_peek.bind fun ahead _ => ?_
  have hof : first ≠ .eof → G first := hfirst.resolve_left
  split
  · exact .after (keeps_skip _) fun _ => .pure (.word (hof (by simp)))
  · exact .after (keeps_skip _) fun _ => .pure (.symbol (hof (by simp)))
  · exact .after (keeps_skip _) fun _ => .pure (.string (hof (by simp)))
  · exact .after (keeps_skip _) fun _ => .pure (.integer (hof (by simp)))
  · exact yields_fail _

/-- A record passes if its fields do. -/
theorem yields_recordBody : Yields G (fun t => t.all test = true) (recordBody primary) := by
  have hfield : Yields G (fun f => KeyOf G f.1 ∧ f.2.all test = true) (recordField primary) :=
    yields_recordKey.bind fun _ hkey => (yields_anyType hG h).map fun _ ht => ⟨hkey, ht⟩
  refine .after (keeps_accept _) fun closed => ?_
  split
  · exact .pure (Ty.all_of_parts_eq_nil rfl (hG.record (by simp) .nil))
  · refine (yields_sepBy hfield).bind fun fields hfields =>
      .after (keeps_require _ _) fun _ => .pure ?_
    refine Ty.all_iff.mpr ⟨hG.record (fun f hf => ?_) Keyed.sorted_ofList, fun u hu => ?_⟩
    · exact (hfields f (Keyed.mem_of_mem_ofList hf)).1
    · obtain ⟨f, hf, rfl⟩ := List.mem_map.mp hu
      exact (hfields f (Keyed.mem_of_mem_ofList hf)).2

/-- The type of a procedure passes if its parts do. -/
theorem yields_procBody : Yields G (fun t => t.all test = true) (procBody primary) :=
  yields_callable hG h Ty.proc (yields_optionalType hG h) fun _ htypes hnamed =>
    Ty.all_iff.mpr ⟨hG.proc hnamed, htypes⟩

omit hG h in
/-- A path is not empty, and its segments are good. -/
theorem yields_segments {first : String} (hfirst : G (.ident first)) :
    Yields G (fun path => path ≠ [] ∧ ∀ w ∈ path, G (.ident w)) (segments first) :=
  .after keeps_remaining fun n => (yields_more yields_word n).map fun _ hothers =>
    ⟨List.cons_ne_nil _ _, List.forall_mem_cons.mpr ⟨hfirst, hothers⟩⟩

omit h in
/-- A class object passes, having no types within it. -/
theorem yields_singletonBody : Yields G (fun t => t.all test = true) singletonBody :=
  .after (keeps_require _ _) fun _ => .after (keeps_accept _) fun _ =>
    yields_word.bind fun _ hw => (yields_segments hw).bind fun _ hpath =>
      .after (keeps_require _ _) fun _ =>
        .pure (Ty.all_of_parts_eq_nil rfl (hG.singleton hpath.1 hpath.2))

/-- Type arguments pass one by one. -/
theorem yields_typeArgs : Yields G (fun ts => ∀ t ∈ ts, t.all test = true) (typeArgs primary) := by
  refine .after (keeps_accept _) fun opened => ?_
  split
  · exact yields_typeList hG h
  · exact .pure (by simp)

/-- A path with its arguments makes a type that passes. -/
theorem yields_nominalBody (absolute : Bool) {first : String} (hfirst : G (.ident first)) :
    Yields G (fun t => t.all test = true) (nominalBody primary absolute first) := by
  refine (yields_segments hfirst).bind fun path hpath =>
    (yields_typeArgs hG h).bind fun args hargs => ?_
  split
  · rename_i hvar
    simp only [Bool.and_eq_true] at hvar
    split
    · exact .pure (Ty.all_of_parts_eq_nil rfl (hG.var hfirst hvar.2))
    · exact yields_fail _
  · exact .pure (Ty.all_iff.mpr ⟨hG.named args hpath.1 hpath.2, hargs⟩)

omit h in
/-- The types that are written as one word pass. -/
theorem all_of_wordType? {word : String} {t : Ty} (ht : wordType? word = some t) :
    t.all test = true := by
  refine Ty.all_of_parts_eq_nil ?_ (hG.keyword ht)
  unfold wordType? at ht
  split at ht <;> first | (obtain rfl := Option.some.inj ht; rfl) | cases ht

/-- A name gives a type that passes. -/
theorem yields_name : Yields G (fun t => t.all test = true) (name primary) := by
  refine .after (keeps_accept _) fun absolute => yields_word.bind fun first hfirst =>
    yields_peek.bind fun ahead _ => ?_
  split
  · split
    · exact yields_singletonBody hG
    · split
      · exact .pure (all_of_wordType? hG ‹_›)
      · exact yields_nominalBody hG h absolute hfirst
  · exact yields_nominalBody hG h absolute hfirst

/-- A primary type passes if the types within it do. -/
theorem yields_primaryWith : Yields G (fun t => t.all test = true) (primaryWith primary) := by
  refine yields_peek.bind fun ahead hahead => ?_
  have hof : ahead ≠ .eof → G ahead := hahead.resolve_left
  split
  · exact .after (keeps_skip _) fun _ => (yields_anyType hG h).bind fun _ ht =>
      .after (keeps_require _ _) fun _ => .pure ht
  · exact .after (keeps_skip _) fun _ => (yields_typeList hG h).map fun ts hts =>
      Ty.all_iff.mpr ⟨hG.tuple ts, hts⟩
  · exact .after (keeps_skip _) fun _ => yields_recordBody hG h
  · exact .after (keeps_skip _) fun _ => yields_procBody hG h
  · exact .after (keeps_skip _) fun _ =>
      .pure (Ty.all_of_parts_eq_nil rfl (hG.integer (hof (by simp))))
  · exact .after (keeps_skip _) fun _ =>
      .pure (Ty.all_of_parts_eq_nil rfl (hG.string (hof (by simp))))
  · exact .after (keeps_skip _) fun _ =>
      .pure (Ty.all_of_parts_eq_nil rfl (hG.symbol (hof (by simp))))
  · exact yields_name hG h
  · exact yields_name hG h
  · exact yields_fail _

end Given

section Whole

variable {test : Ty → Bool} (hG : Admits G test)

include hG

/-- Every primary type passes the test. -/
theorem yields_primary (depth : Nat) : Yields G (fun t => t.all test = true) (primary depth) := by
  induction depth with
  | zero => exact yields_peek.bind fun _ _ => yields_fail _
  | succ depth ih => exact yields_primaryWith hG ih

/-! ## Whole texts -/

/-- A type that is parsed passes. -/
theorem yields_type : Yields G (fun t => t.all test = true) type :=
  .after keeps_remaining fun depth => yields_anyType hG (yields_primary hG depth)

omit hG in
/-- Markers of type parameters leave good tokens. -/
theorem keeps_typeParamMarkers (n : Nat) (markers : Bool × Variance) :
    Keeps G (typeParamMarkers n markers) := by
  have hpair : Keeps G wordPair? := by
    intro c a c' hc h
    unfold wordPair? at h
    split at h <;> obtain ⟨rfl, rfl⟩ := Prod.mk.inj (Except.ok.inj h) <;> exact ⟨trivial, hc⟩
  induction n generalizing markers with
  | zero => exact .pure trivial
  | succ n ih =>
    refine .after hpair fun pair => ?_
    split
    · exact .after (keeps_skip _) fun _ => ih _
    · exact .after (keeps_skip _) fun _ => ih _
    · exact .after (keeps_skip _) fun _ => ih _
    · exact .pure trivial

/-- A type parameter has a good name and a bound that passes. -/
theorem yields_typeParam :
    Yields G (fun p => G (.ident p.name) ∧ ∀ t ∈ p.bound.toList, t.all test = true) typeParam := by
  refine .after keeps_remaining fun n => .after (keeps_typeParamMarkers n _) fun markers =>
    yields_word.bind fun name hname => .after (keeps_accept _) fun bounded => ?_
  split
  · exact (yields_type hG).map fun t ht => ⟨hname, by simpa using ht⟩
  · exact .pure ⟨hname, by simp⟩

/-- So have all type parameters of a list. -/
theorem yields_typeParams :
    Yields G (fun ps => ∀ p ∈ ps, G (.ident p.name) ∧ ∀ t ∈ p.bound.toList, t.all test = true)
      typeParams := by
  refine .after (keeps_accept _) fun opened => ?_
  split
  · exact (yields_sepBy (yields_typeParam hG)).bind fun _ hps =>
      .after (keeps_require _ _) fun _ => .pure hps
  · exact .pure (by simp)

/-- An overload has types that pass and good names throughout. -/
theorem yields_overload :
    Yields G (fun o => (∀ t ∈ o.types, t.all test = true) ∧ NamedCallable G o.callable ∧
      ∀ p ∈ o.typeParams, G (.ident p.name)) overload := by
  refine (yields_typeParams hG).bind fun ps hps => .after keeps_remaining fun depth => ?_
  have hinner := yields_primary hG depth
  refine yields_callable hG hinner (fun c => (⟨ps, c, []⟩ : Overload)) (yields_anyType hG hinner)
    fun c htypes hnamed => ⟨fun t ht => ?_, hnamed, fun p hp => (hps p hp).1⟩
  simp only [Overload.types, List.mem_append, List.mem_flatMap] at ht
  rcases ht with ht | ⟨p, hp, ht⟩
  · exact htypes t ht
  · exact (hps p hp).2 t ht

end Whole

end Parser
end TypeShape
