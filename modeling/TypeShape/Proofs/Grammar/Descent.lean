import TypeShape.Proofs.Grammar.Tracking

/-!
# How deep parsers descend

Primary types are read with a bound on how deep they stand in each other.  Whatever may hold a type
takes a token before it asks for one, so fewer tokens are left for the inner type than for the outer
one.  A bound of one more than the tokens that are left is therefore never used up: without it the
reader calls itself, and what it would do beyond the bound does not matter.

Main results:

- Theorem `Parser.agree_primaryWith`: a primary type depends only on what inner types are read as
  where fewer tokens are left.
- Theorem `Parser.primaryType_eq`: the reader of primary types calls itself.
- Theorem `Parser.agree_nested`: how deep it does so.
- Theorems `Parser.type_eq`, `Parser.typeParam_eq` and `Parser.overload_eq`: whole texts are read
  with it.
-/

namespace TypeShape
namespace Parser

variable {α β : Type} {least n : Nat}

/-- The parsers come to the same wherever at most as many tokens are left as given. -/
def AgreeWithin (n : Nat) (p q : Parser α) : Prop :=
  ∀ c : Cursor, c.rest.length ≤ n → p c = q c

namespace AgreeWithin

variable {p q : Parser α}

/-- A parser agrees with itself. -/
theorem refl (p : Parser α) : AgreeWithin n p p :=
  fun _ _ => rfl

/-- After parsers that take tokens, fewer are left. -/
theorem bind {f g : α → Parser β} (h : AgreeWithin n p q) (hq : Tracks least q)
    (hf : ∀ a, AgreeWithin (n - least) (f a) (g a)) : AgreeWithin n (p >>= f) (q >>= g) := by
  intro c hc
  change (p c).bind (fun r => f r.1 r.2) = (q c).bind fun r => g r.1 r.2
  rw [h c hc]
  have hreaches := hq c
  generalize q c = result at hreaches
  cases hreaches with
  | error => rfl
  | ok hleast hn => exact hf _ _ (by rw [c.length_advance]; omega)

/-- The parsers start alike. -/
theorem after {f g : α → Parser β} (hp : Tracks least p)
    (hf : ∀ a, AgreeWithin (n - least) (f a) (g a)) : AgreeWithin n (p >>= f) (p >>= g) :=
  (refl p).bind hp hf

/-- The parsers go on alike. -/
theorem before {f : α → Parser β} (h : AgreeWithin n p q) : AgreeWithin n (p >>= f) (q >>= f) := by
  intro c hc
  change (p c).bind _ = (q c).bind _
  rw [h c hc]

/-- Parsers that read the cursor agree if what they go on with does. -/
theorem get {f g : Cursor → Parser α} (h : ∀ c, AgreeWithin n (f c) (g c)) :
    AgreeWithin n (get >>= f) (get >>= g) :=
  fun c => h c c

/-- Tokens that are skipped need not be counted further down. -/
theorem skip (k : Nat) (h : AgreeWithin n p q) :
    AgreeWithin (n + k) (do Parser.skip k; p) (do Parser.skip k; q) :=
  fun c hc => h (c.advance k) (by rw [c.length_advance]; omega)

/-- The parsers are asked only if a mark follows, or only if it does not. -/
theorem accept {kind : TokenKind} {p' q' : Parser α} (h : AgreeWithin n p q)
    (h' : AgreeWithin n p' q') :
    AgreeWithin n (do if ← Parser.accept kind then p else p')
      (do if ← Parser.accept kind then q else q') := by
  refine after (tracks_accept kind) fun accepted => ?_
  cases accepted with
  | true => exact h
  | false => exact h'

end AgreeWithin

/-! ## Lists -/

section Items

variable {item item' : Parser α} (h : AgreeWithin n item item') (hitem : Tracks least item')

include h hitem

/-- Further items after separators agree if items do. -/
theorem agree_more (separator : TokenKind) (k : Nat) :
    AgreeWithin n (more separator item k) (more separator item' k) := by
  induction k with
  | zero => exact .refl _
  | succ k ih =>
    refine .accept (h.bind (hitem.mono (Nat.zero_le _)) fun x => ?_) (.refl _)
    exact ih.before

/-- Lists with separators agree if their items do. -/
theorem agree_sepBy (separator : TokenKind) :
    AgreeWithin n (sepBy separator item) (sepBy separator item') :=
  h.bind (hitem.mono (Nat.zero_le _)) fun _ => .after tracks_remaining fun k =>
    (agree_more h hitem separator k).before

end Items

/-! ## Types, given readers of primary types -/

section Given

variable {primary primary' : Parser Ty} (h : AgreeWithin n primary primary')
  (hprimary : Tracks 1 primary')

/-- Optional types agree if primary types do. -/
theorem agree_optionalType (h : AgreeWithin n primary primary') :
    AgreeWithin n (optionalType primary) (optionalType primary') :=
  h.before

include h hprimary

/-- So do intersections. -/
theorem agree_interType : AgreeWithin n (interType primary) (interType primary') :=
  (agree_sepBy (agree_optionalType h) (tracks_optionalType hprimary) _).before

/-- So do unions, which are any types. -/
theorem agree_anyType : AgreeWithin n (anyType primary) (anyType primary') :=
  (agree_sepBy (agree_interType h hprimary) (tracks_interType hprimary) _).before

/-- So do lists of types. -/
theorem agree_typeList : AgreeWithin n (typeList primary) (typeList primary') :=
  .accept (.refl _) (agree_sepBy (agree_anyType h hprimary) (tracks_anyType hprimary) _).before

/-! ### Parameters and blocks -/

/-- So do parameters. -/
theorem agree_param : AgreeWithin n (param primary) (param primary') := by
  have hskip : ∀ (k : Nat) (make : Ty → Param), AgreeWithin n
      (do skip k; return make (← anyType primary)) (do skip k; return make (← anyType primary')) :=
    fun k make => .after (tracks_skip k) fun _ => (agree_anyType h hprimary).before
  refine .get fun c => ?_
  split
  · exact hskip 3 _
  · exact hskip 1 _
  · exact hskip 1 _
  · exact hskip 1 _
  · exact hskip 2 _
  · exact (agree_anyType h hprimary).before

/-- So do parameter lists. -/
theorem agree_params : AgreeWithin n (params primary) (params primary') :=
  .accept
    (.accept (.refl _) (agree_sepBy (agree_param h hprimary) (tracks_param hprimary) _).before)
    (.refl _)

/-- So do receivers of blocks. -/
theorem agree_blockReceiver : AgreeWithin n (blockReceiver primary) (blockReceiver primary') := by
  refine .accept (.after (tracks_word.mono (Nat.zero_le _)) fun name => ?_) (.refl _)
  split
  · exact .after ((tracks_require (by simp) _).mono (Nat.zero_le _)) fun _ =>
      (agree_anyType h hprimary).before
  · exact .refl _

/-- So do blocks that were opened. -/
theorem agree_blockBody (optional : Bool) :
    AgreeWithin n (blockBody primary optional) (blockBody primary' optional) :=
  (agree_params h hprimary).bind (tracks_params hprimary) fun _ =>
    (agree_blockReceiver h hprimary).bind (tracks_blockReceiver hprimary) fun _ =>
      .after ((tracks_require (by simp) _).mono (Nat.zero_le _)) fun _ =>
        (agree_anyType h hprimary).before

/-- So do blocks that may be left out. -/
theorem agree_block : AgreeWithin n (block primary) (block primary') := by
  refine .get fun c => ?_
  split
  · exact .after (tracks_skip 2) fun _ => (agree_blockBody h hprimary true).before
  · exact .after (tracks_skip 1) fun _ => (agree_blockBody h hprimary false).before
  · exact .refl _

/-! ### Primary types -/

/-- So do records. -/
theorem agree_recordBody : AgreeWithin n (recordBody primary) (recordBody primary') := by
  have hfield : AgreeWithin n (recordField primary) (recordField primary') :=
    .after (tracks_recordKey.mono (Nat.zero_le _)) fun _ => (agree_anyType h hprimary).before
  exact .accept (.refl _) (agree_sepBy hfield (tracks_recordField hprimary) _).before

/-- So do types of procedures. -/
theorem agree_procBody : AgreeWithin n (procBody primary) (procBody primary') :=
  (agree_params h hprimary).bind (tracks_params hprimary) fun _ =>
    (agree_block h hprimary).bind (tracks_block hprimary) fun _ =>
      .after ((tracks_require (by simp) _).mono (Nat.zero_le _)) fun _ =>
        (agree_optionalType h).before

/-- So do paths with their arguments. -/
theorem agree_nominalBody (absolute : Bool) (first : String) :
    AgreeWithin n (nominalBody primary absolute first) (nominalBody primary' absolute first) := by
  have hargs : AgreeWithin n (typeArgs primary) (typeArgs primary') :=
    .accept (agree_typeList h hprimary) (.refl _)
  exact .after (tracks_segments first) fun _ => hargs.before

/-- The first word of a name is taken before the arguments are read. -/
theorem agree_name : AgreeWithin (n + 1) (name primary) (name primary') := by
  refine .after (tracks_accept _) fun absolute => .after tracks_word fun first =>
    .after tracks_peek fun ahead => ?_
  have hnominal := agree_nominalBody h hprimary absolute first
  split
  · split
    · exact .refl _
    · split
      · exact .refl _
      · exact hnominal
  · exact hnominal

/-- What a primary type is read as depends on how inner types are read where fewer tokens are
left, and on nothing else. -/
theorem agree_primaryWith : AgreeWithin (n + 1) (primaryWith primary) (primaryWith primary') := by
  refine .after tracks_peek fun kind => ?_
  cases kind with
  | lparen => exact .skip 1 (agree_anyType h hprimary).before
  | lbracket => exact .skip 1 (agree_typeList h hprimary).before
  | lbrace => exact .skip 1 (agree_recordBody h hprimary)
  | caret => exact .skip 1 (agree_procBody h hprimary)
  | colonColon => exact agree_name h hprimary
  | ident word => exact agree_name h hprimary
  | _ => exact .refl _

end Given

/-! ## Primary types that call themselves -/

/-- Primary types inside each other to a number of levels, with any reader below them. -/
def nested (deepest : Parser Ty) : Nat → Parser Ty
  | 0 => deepest
  | depth + 1 => primaryWith (nested deepest depth)

/-- A primary type, however deep the types in it are. -/
def primaryType : Parser Ty := fun c =>
  primary c.rest.length c

/-- A primary type takes a token, however deep it goes. -/
theorem tracks_primaryType : Tracks 1 primaryType :=
  fun c => tracks_primary c.rest.length c

/-- Nesting from the deepest parser gives the parser of a depth. -/
theorem nested_primary (depth : Nat) : nested (primary 0) depth = primary depth := by
  induction depth with
  | zero => rfl
  | succ depth ih => rw [nested, ih, primary]

/-- Within fewer tokens than levels it does not matter what is at the bottom. -/
theorem agree_nested_primary (deepest : Parser Ty) {depth : Nat} (h : n < depth) :
    AgreeWithin n (nested deepest depth) (primary n) := by
  induction n generalizing depth with
  | zero =>
    obtain ⟨depth, rfl⟩ : ∃ k, depth = k + 1 := ⟨depth - 1, by omega⟩
    -- At the end of the text no type is asked for.
    rintro ⟨rest, stop⟩ hc
    obtain rfl := List.eq_nil_of_length_eq_zero (Nat.le_zero.mp hc)
    rfl
  | succ n ih =>
    obtain ⟨depth, rfl⟩ : ∃ k, depth = k + 1 := ⟨depth - 1, by omega⟩
    exact agree_primaryWith (ih (by omega)) (tracks_primary n)

/-- Levels beyond the number of tokens that are left change nothing. -/
theorem agree_primaryType (n : Nat) : AgreeWithin n primaryType (primary n) := by
  intro c hc
  rcases Nat.eq_or_lt_of_le hc with rfl | hlt
  · rfl
  · rw [← nested_primary n]
    exact (agree_nested_primary (primary 0) hlt c (Nat.le_refl _)).symm

/-- The reader of primary types reads the types inside them itself. -/
theorem primaryType_eq : primaryType = primaryWith primaryType := by
  funext c
  have hwith := agree_primaryWith (agree_primaryType c.rest.length) (tracks_primary c.rest.length)
  exact (agree_primaryType _ c (Nat.le_succ _)).trans (hwith c (Nat.le_succ _)).symm

/-- With more levels than tokens that are left, what stands below them is never asked for. -/
theorem agree_nested (deepest : Parser Ty) {depth : Nat} (h : n < depth) :
    AgreeWithin n (nested deepest depth) primaryType :=
  fun c hc => (agree_nested_primary deepest h c hc).trans (agree_primaryType n c hc).symm

/-! ## Whole texts -/

/-- A type parameter whose bound is read with a given reader of primary types. -/
def typeParamWith (inner : Parser Ty) : Parser TypeParam := do
  let (unchecked, variance) ← typeParamMarkers (← remaining) (false, .invariant)
  let name ← word
  if ← accept .lt then
    let bound ← anyType inner
    pure { name, bound := some bound, variance, unchecked }
  else pure { name, variance, unchecked }

/-- Type parameters in brackets, or none if no bracket opens. -/
def typeParamsWith (inner : Parser Ty) : Parser (List TypeParam) := do
  if ← accept .lbracket then
    let ps ← sepBy .comma (typeParamWith inner)
    require .rbracket .typeParamsEnd
    pure ps
  else pure []

/-- What an overload holds after its type parameters. -/
def overloadBody (ps : List TypeParam) (inner : Parser Ty) : Parser Overload := do
  let arguments ← params inner
  let b ← block inner
  require .arrow .arrow
  let result ← anyType inner
  pure { typeParams := ps, callable := ⟨⟨arguments, result⟩, b⟩ }

/-- An overload whose types are read with a given reader of primary types. -/
def overloadWith (inner : Parser Ty) : Parser Overload := do
  let ps ← typeParamsWith inner
  overloadBody ps inner

/-- A type is read without a bound on its depth. -/
theorem type_eq : type = anyType primaryType := by
  funext c
  exact (agree_anyType (agree_primaryType c.rest.length) (tracks_primary c.rest.length) c
    (Nat.le_refl _)).symm

/-- So is a type parameter. -/
theorem typeParam_eq : typeParam = typeParamWith primaryType := by
  rw [typeParam, type_eq]
  rfl

/-- So are type parameters. -/
theorem typeParams_eq : typeParams = typeParamsWith primaryType := by
  rw [typeParams, typeParam_eq]
  rfl

section Whole

variable {primary primary' : Parser Ty} (h : AgreeWithin n primary primary')
  (hprimary : Tracks 1 primary')

include h hprimary

/-- Type parameters agree if primary types do. -/
theorem agree_typeParamWith : AgreeWithin n (typeParamWith primary) (typeParamWith primary') := by
  refine .after tracks_remaining fun k => .after (tracks_typeParamMarkers k _) fun markers =>
    .after (tracks_word.mono (Nat.zero_le _)) fun name => ?_
  exact .accept (agree_anyType h hprimary).before (.refl _)

/-- The rest of an overload agrees if primary types do. -/
theorem agree_overloadBody (ps : List TypeParam) :
    AgreeWithin n (overloadBody ps primary) (overloadBody ps primary') :=
  (agree_params h hprimary).bind (tracks_params hprimary) fun _ =>
    (agree_block h hprimary).bind (tracks_block hprimary) fun _ =>
      .after ((tracks_require (by simp) _).mono (Nat.zero_le _)) fun _ =>
        (agree_anyType h hprimary).before

end Whole

/-- An overload is read without a bound on its depth. -/
theorem overload_eq : overload = overloadWith primaryType := by
  have hagree : ∀ n, AgreeWithin n overload (overloadWith primaryType) := by
    intro n
    rw [overloadWith, ← typeParams_eq]
    refine .after tracks_typeParams fun ps c _ => ?_
    exact (agree_overloadBody (agree_primaryType c.rest.length) (tracks_primary c.rest.length) ps c
      (Nat.le_refl _)).symm
  funext c
  exact hagree c.rest.length c (Nat.le_refl _)

/-- With more levels than tokens, what stands below them is never asked for in an overload. -/
theorem agree_overloadWith_nested (deepest : Parser Ty) {depth : Nat} (h : n < depth) :
    AgreeWithin n (overloadWith (nested deepest depth)) (overloadWith primaryType) := by
  have hinner : AgreeWithin n (nested deepest depth) primaryType := agree_nested deepest h
  have hparam : Tracks 1 (typeParamWith primaryType) := typeParam_eq ▸ tracks_typeParam
  have hparams : Tracks 0 (typeParamsWith primaryType) := typeParams_eq ▸ tracks_typeParams
  refine AgreeWithin.bind (.accept ?_ (.refl _)) hparams fun ps =>
    agree_overloadBody hinner tracks_primaryType ps
  exact (agree_sepBy (agree_typeParamWith hinner tracks_primaryType) hparam _).before

end Parser
end TypeShape
