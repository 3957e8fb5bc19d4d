import TypeShape.Proofs.Grammar.Reading
import TypeShape.Proofs.Grammar.Tokens
import TypeShape.Proofs.Keyed
import TypeShape.Proofs.Types.Overloads

/-!
# Written types and their tokens

The types whose written form can be read back: sets of members in normal form, names and keywords
that are words, literals that are legible, and no union or intersection as the result of a proc.
The written form of such a type has just the tokens of the type.

Main results:

- Theorem `Ty.spells_callable`: the tokens of a written callable.
- Theorem `Ty.spells_of_legible`: the tokens of a written type.
- Theorem `Ty.printable_iff`: what it takes to be read back.
-/

namespace TypeShape

open Lexer

/-! ## What can be read back -/

/-- Numbers have 64 bits, and the characters of texts are legible. -/
def Literal.isPrintable : Literal → Bool
  | integer value => decide (-Lexer.integerBound ≤ value) && decide (value < Lexer.integerBound)
  | string text => text.toList.all Text.isLegible
  | symbol name => name.toList.all Text.isLegible
  | boolean _ => true

/-- The literal can be the key of a record field. -/
def Literal.isKey : Literal → Bool
  | boolean _ => false
  | _ => true

/-- Keywords are words, in the order of their names. -/
def keywordsPrintable (ks : List (String × Ty)) : Bool :=
  ks.all (fun k => Text.isWord k.1) && decide (Keyed.Sorted ks)

/-- The keywords of a parameter list can be read back. -/
def Params.isPrintable (p : Params Ty) : Bool :=
  keywordsPrintable p.keywords && keywordsPrintable p.optionalKeywords

/-- The keywords of a callable and of its block can be read back. -/
def Callable.isPrintable (c : Callable Ty) : Bool :=
  c.arrow.params.isPrintable && c.block.all fun b => b.arrow.params.isPrintable

namespace Ty

/-- What is written for a type can be read back if this is so of its parts. -/
def printableHere : Ty → Bool
  | named kind name _ => name.isPath && kind == Parser.nominalKind name
  | singleton name => name.isPath
  | union ms => normalHere (union ms)
  | inter ms => normalHere (inter ms)
  | literal value => value.isPrintable
  | record fields =>
    fields.all (fun f => f.1.isKey && f.1.isPrintable) && decide (Keyed.Sorted fields)
  | proc c => c.isPrintable && !c.arrow.result.isSet
  | var name => Text.isWord name && Parser.isCapitalized name
  | logic _ => false
  | _ => true

/-- What is written for a type can be read back. -/
def Printable (t : Ty) : Prop :=
  t.all printableHere = true

instance (t : Ty) : Decidable t.Printable :=
  inferInstanceAs (Decidable (_ = true))

end Ty

/-- What is written for an overload can be read back: its types can, and its type parameters are
words without further marks. -/
structure Overload.Printable (o : Overload) : Prop where
  types : ∀ t ∈ o.types, t.Printable
  callable : o.callable.isPrintable = true
  typeParams : ∀ p ∈ o.typeParams,
    Text.isWord p.name = true ∧ p.variance = .invariant ∧ p.unchecked = false

/-! ### What it takes -/

/-- A number has 64 bits. -/
def Literal.inRange : Literal → Bool
  | integer value => decide (-Lexer.integerBound ≤ value) && decide (value < Lexer.integerBound)
  | _ => true

/-- The characters of a text are legible. -/
def Literal.isLegible : Literal → Bool
  | string text => text.toList.all Text.isLegible
  | symbol name => name.toList.all Text.isLegible
  | _ => true

/-- A printable literal is in range and legible. -/
theorem Literal.isPrintable_iff {v : Literal} :
    v.isPrintable = true ↔ v.inRange = true ∧ v.isLegible = true := by
  cases v <;> simp [isPrintable, inRange, isLegible]

namespace Ty

/-- Names are paths, variables and keywords are words, numbers are in range, record keys and
keywords are in order, and sets of members are in normal form. -/
def wellSpelledHere : Ty → Bool
  | named kind name _ => name.isPath && kind == Parser.nominalKind name
  | singleton name => name.isPath
  | union ms => normalHere (union ms)
  | inter ms => normalHere (inter ms)
  | literal value => value.inRange
  | record fields =>
    fields.all (fun f => f.1.isKey && f.1.inRange) && decide (Keyed.Sorted fields)
  | proc c => c.isPrintable
  | var name => Text.isWord name && Parser.isCapitalized name
  | logic _ => false
  | _ => true

/-- The texts of a type are legible. -/
def legibleHere : Ty → Bool
  | literal value => value.isLegible
  | record fields => fields.all fun f => f.1.isLegible
  | _ => true

/-- No proc has a union or an intersection as its result. -/
def plainHere : Ty → Bool
  | proc c => !c.arrow.result.isSet
  | _ => true

/-- The test for what can be printed is made of three. -/
theorem printableHere_iff {t : Ty} : t.printableHere = true ↔
    t.wellSpelledHere = true ∧ t.legibleHere = true ∧ t.plainHere = true := by
  cases t with
  | literal v =>
    simp [printableHere, wellSpelledHere, legibleHere, plainHere, Literal.isPrintable_iff]
  | record fields =>
    simp only [printableHere, wellSpelledHere, legibleHere, plainHere, Bool.and_eq_true,
      List.all_eq_true, decide_eq_true_eq, Literal.isPrintable_iff]
    grind
  | proc c => simp [printableHere, wellSpelledHere, legibleHere, plainHere]
  | _ => simp [printableHere, wellSpelledHere, legibleHere, plainHere]

/-- The type is made of words, numbers in range and sets in normal form. -/
def WellSpelled (t : Ty) : Prop :=
  t.all wellSpelledHere = true

/-- All texts in the type are legible. -/
def Legible (t : Ty) : Prop :=
  t.all legibleHere = true

/-- No proc in the type has a union or an intersection as its result. -/
def Plain (t : Ty) : Prop :=
  t.all plainHere = true

instance (t : Ty) : Decidable t.Legible :=
  inferInstanceAs (Decidable (_ = true))

instance (t : Ty) : Decidable t.Plain :=
  inferInstanceAs (Decidable (_ = true))

/-- Printable types are well spelled, legible and plain. -/
theorem printable_iff {t : Ty} : t.Printable ↔ t.WellSpelled ∧ t.Legible ∧ t.Plain := by
  have hhere : printableHere = fun u => u.wellSpelledHere && (u.legibleHere && u.plainHere) := by
    funext u
    rw [Bool.eq_iff_iff, Bool.and_eq_true, Bool.and_eq_true]
    exact printableHere_iff
  rw [Printable, hhere, all_and_iff, all_and_iff]
  rfl

/-- Well-spelled types are in normal form. -/
theorem WellSpelled.normal {t : Ty} (h : t.WellSpelled) : t.Normal := by
  refine all_mono (fun u hu => ?_) h
  cases u with
  | union ms => exact hu
  | inter ms => exact hu
  | _ => rfl

end Ty

/-- The types of an overload are well spelled, and so are its keywords and type parameters. -/
structure Overload.WellSpelled (o : Overload) : Prop where
  types : ∀ t ∈ o.types, t.WellSpelled
  callable : o.callable.isPrintable = true
  typeParams : ∀ p ∈ o.typeParams, Text.isWord p.name = true

/-- All texts in the overload are legible. -/
def Overload.Legible (o : Overload) : Prop :=
  ∀ t ∈ o.types, t.Legible

/-- No proc in the overload has a union or an intersection as its result, and no type parameter has
a marker. -/
structure Overload.Plain (o : Overload) : Prop where
  types : ∀ t ∈ o.types, t.Plain
  typeParams : ∀ p ∈ o.typeParams, p.variance = .invariant ∧ p.unchecked = false

/-- Printable overloads are well spelled, legible and plain. -/
theorem Overload.printable_iff {o : Overload} :
    o.Printable ↔ o.WellSpelled ∧ o.Legible ∧ o.Plain := by
  constructor
  · rintro ⟨htypes, hcallable, hparams⟩
    simp only [Ty.printable_iff] at htypes
    exact ⟨⟨fun t ht => (htypes t ht).1, hcallable, fun p hp => (hparams p hp).1⟩,
      fun t ht => (htypes t ht).2.1, fun t ht => (htypes t ht).2.2, fun p hp => (hparams p hp).2⟩
  · rintro ⟨⟨hspelled, hcallable, hnames⟩, hlegible, hplain, hmarks⟩
    exact ⟨fun t ht => Ty.printable_iff.mpr ⟨hspelled t ht, hlegible t ht, hplain t ht⟩, hcallable,
      fun p hp => ⟨hnames p hp, hmarks p hp⟩⟩

/-! ## First tokens -/

namespace Ty

open TypeShape.Parser

/-- Items with separators open a type if the items do. -/
theorem opens_intercalate {α : Type} {kind : TokenKind} (hkind : kind ∈ factorEnds)
    {toks : α → List TokenKind} {xs : List α} (hne : xs ≠ []) (h : ∀ x ∈ xs, Opens (toks x)) :
    Opens ([kind].intercalate (xs.map toks)) := by
  obtain ⟨x, xs, rfl⟩ := List.exists_cons_of_ne_nil hne
  rw [List.map_cons, intercalate_cons]
  refine (h x List.mem_cons_self).append fun rest hrest => ?_
  cases xs with
  | nil => exact hrest
  | cons y ys => exact hkind

/-- A member opens a type, in parentheses or not. -/
theorem opens_member {toks : Ty → List TokenKind} {t : Ty} (h : Opens (toks t))
    (loose : Ty → Bool) : Opens (memberTokens toks loose t) := by
  unfold memberTokens
  split
  · exact opens_cons rfl _
  · exact h

/-- A type never begins like a parameter with a mark or a keyword. -/
theorem opens_tokens {t : Ty} (h : t.WellSpelled) : Opens t.tokens := by
  induction t using inductionOnParts with
  | step t ih =>
    have hparts : ∀ u ∈ t.parts, Opens u.tokens := fun u hu => ih u hu (all_part h hu)
    have hhere := all_here h
    rw [tokens_eq]
    cases t with
    | named kind name args =>
      obtain ⟨ws, hne, hws, rfl⟩ := TypeName.isPath_iff.mp (Bool.and_eq_true_iff.mp hhere).1
      obtain ⟨w, ws, rfl⟩ := List.exists_cons_of_ne_nil hne
      rw [tokensWith, TypeName.tokens, TypeName.segments_ofSegments hne hws]
      exact opens_cons rfl _
    | singleton name => exact fun rest _ => rfl
    | union ms =>
      have hlength := (normalHere_union.mp hhere).1
      refine opens_intercalate (by decide) ?_ fun m hm => opens_member (hparts m hm) _
      rintro rfl
      simp at hlength
    | inter ms =>
      have hlength := (normalHere_inter.mp hhere).1
      refine opens_intercalate (by decide) ?_ fun m hm => opens_member (hparts m hm) _
      rintro rfl
      simp at hlength
    | literal value =>
      cases value with
      | boolean value => cases value <;> exact opens_word _
      | _ => exact opens_cons rfl _
    | logic question => cases hhere
    | var name => exact opens_word name
    | tuple items => exact opens_cons rfl _
    | record fields => exact opens_cons rfl _
    | proc c => exact opens_cons rfl _
    | slot s => exact opens_word _
    | _ => exact opens_word _

end Ty

/-! ## Texts -/

/-- The tokens of a text, given what follows it. -/
def Spells (follow : List Char → Prop) (s : String) (ks : List TokenKind) : Prop :=
  Lexes follow s.toList ks

namespace Spells

variable {follow follow' : List Char → Prop} {s s' : String} {ks ks' : List TokenKind}

/-- Texts that are written one by one are written together, if the second may follow the first. -/
theorem append (h : Spells follow s ks) (h' : Spells follow' s' ks')
    (hfollow : ∀ rest, follow' rest → follow (s'.toList ++ rest)) :
    Spells follow' (s ++ s') (ks ++ ks') := by
  rw [Spells, String.toList_append]
  exact Lexes.append h h' hfollow

/-- Anything may follow the first of two texts if nothing is asked of it. -/
theorem append_of_anything (h : Spells anything s ks) (h' : Spells follow' s' ks') :
    Spells follow' (s ++ s') (ks ++ ks') :=
  h.append h' fun _ _ => trivial

/-- What may follow can be restricted. -/
theorem mono (h : Spells follow s ks) (hfollow : ∀ rest, follow' rest → follow rest) :
    Spells follow' s ks :=
  Lexes.mono h hfollow

/-- A text between two others into which no token runs. -/
theorem enclose {l r : String} {ks₁ ks₂ : List TokenKind} (hl : Spells anything l ks₁)
    (h : Spells boundary s ks) (hr : Spells anything r ks₂)
    (hbound : ∀ rest, boundary (r.toList ++ rest)) :
    Spells anything (l ++ s ++ r) (ks₁ ++ ks ++ ks₂) :=
  (hl.append_of_anything h).append hr fun rest _ => hbound rest

/-- Texts with a separator between them that no token runs into. -/
theorem intercalate {α : Type} {separator : String} {kind : TokenKind} {text : α → String}
    {toks : α → List TokenKind} (hsep : Spells anything separator [kind])
    (hbound : ∀ rest, boundary (separator.toList ++ rest)) {xs : List α}
    (h : ∀ x ∈ xs, Spells boundary (text x) (toks x)) :
    Spells boundary (separator.intercalate (xs.map text)) ([kind].intercalate (xs.map toks)) := by
  induction xs with
  | nil => exact Lexes.nil
  | cons x xs ih =>
    obtain ⟨hx, hxs⟩ := List.forall_mem_cons.mp h
    cases xs with
    | nil => simpa using hx
    | cons y ys =>
      simp only [List.map_cons, String.intercalate_cons_cons, List.intercalate_cons_cons]
      have hfirst := hx.append hsep fun rest _ => hbound rest
      exact hfirst.append_of_anything (ih hxs)

end Spells

/-! ### Marks -/

/-- The marks that never run on, with the blanks that are written around them. -/
def writtenMarks : List (String × TokenKind) :=
  [("(", .lparen), (")", .rparen), ("[", .lbracket), ("]", .rbracket), ("?", .question),
    ("^", .caret), ("**", .starStar), (", ", .comma), (": ", .colon), ("\x7b ", .lbrace),
    (" \x7d", .rbrace), (" | ", .pipe), (" & ", .amp), (" < ", .lt), (" -> ", .arrow),
    (" => ", .fatArrow)]

/-- A mark is written as its token. -/
theorem spells_mark (s : String) (kind : TokenKind) (h : (s, kind) ∈ writtenMarks := by decide) :
    Spells anything s [kind] := by
  have hblanks : ∀ {cs : List Char}, Lexes anything cs [kind] →
      Lexes anything ([' '] ++ (cs ++ [' '])) [kind] := by
    intro cs hcs
    have hright := hcs.append_of_anything lexes_blank
    exact lexes_blank.append_of_anything hright
  simp only [writtenMarks, List.mem_cons, Prod.mk.injEq, List.not_mem_nil, or_false] at h
  rcases h with ⟨rfl, rfl⟩ | ⟨rfl, rfl⟩ | ⟨rfl, rfl⟩ | ⟨rfl, rfl⟩ | ⟨rfl, rfl⟩ | ⟨rfl, rfl⟩ |
    ⟨rfl, rfl⟩ | ⟨rfl, rfl⟩ | ⟨rfl, rfl⟩ | ⟨rfl, rfl⟩ | ⟨rfl, rfl⟩ | ⟨rfl, rfl⟩ | ⟨rfl, rfl⟩ |
    ⟨rfl, rfl⟩ | ⟨rfl, rfl⟩ | ⟨rfl, rfl⟩
  · exact lexes_mark rfl
  · exact lexes_mark rfl
  · exact lexes_mark rfl
  · exact lexes_mark rfl
  · exact lexes_mark rfl
  · exact lexes_mark rfl
  · exact lexes_starStar
  · exact (lexes_mark rfl).append_of_anything lexes_blank
  · exact lexes_colon
  · exact (lexes_mark rfl).append_of_anything lexes_blank
  · exact lexes_blank.append_of_anything (lexes_mark rfl)
  · exact hblanks (lexes_mark rfl)
  · exact hblanks (lexes_mark rfl)
  · exact hblanks (lexes_mark rfl)
  · exact hblanks lexes_arrow
  · exact hblanks lexes_fatArrow

/-! ### Names and literals -/

/-- A word is written as an identifier. -/
theorem spells_word {w : String} (h : Text.isWord w = true) : Spells boundary w [.ident w] :=
  lexes_word h

/-- A word and a colon after it. -/
theorem spells_label {w : String} (h : Text.isWord w = true) :
    Spells anything (w ++ ": ") [.ident w, .colon] :=
  (spells_word h).append (spells_mark ": " .colon) fun _ _ => rfl

/-- The segments of a path are written with colons between them. -/
theorem lexes_segments {ws : List String} (h : ∀ w ∈ ws, Text.isWord w = true) :
    Lexes boundary (ws.flatMap fun w => ':' :: ':' :: w.toList)
      (ws.flatMap fun w => [.colonColon, .ident w]) := by
  induction ws with
  | nil => exact Lexes.nil
  | cons w ws ih =>
    obtain ⟨hw, hws⟩ := List.forall_mem_cons.mp h
    rw [List.flatMap_cons, List.flatMap_cons]
    have hword := lexes_colonColon.append_of_anything (lexes_word hw)
    refine hword.append (ih hws) fun rest hrest => ?_
    cases ws with
    | nil => exact hrest
    | cons w' ws' => rfl

/-- A path is written as its tokens. -/
theorem spells_name {n : TypeName} (h : n.isPath = true) : Spells boundary n.text n.tokens := by
  obtain ⟨ws, hne, hws, rfl⟩ := TypeName.isPath_iff.mp h
  rw [Spells, TypeName.tokens, TypeName.segments_ofSegments hne hws, TypeName.toList_ofSegments hne]
  exact lexes_segments hws

/-- A literal is written as its token. -/
theorem spells_literal {v : Literal} (h : v.isPrintable = true) :
    Spells boundary v.render [v.token] := by
  cases v with
  | integer value =>
    simp only [Literal.isPrintable, Bool.and_eq_true, decide_eq_true_eq] at h
    exact lexes_integer h.1 h.2
  | string text =>
    exact (lexes_quote (List.all_eq_true.mp h)).mono fun _ _ => trivial
  | symbol name =>
    rw [Literal.render, Literal.token]
    split
    · rename_i hword
      rw [Spells, String.toList_append]
      exact lexes_symbol_word hword
    · rw [Spells, String.toList_append]
      exact (lexes_symbol_quote (List.all_eq_true.mp h)).mono fun _ _ => trivial
  | boolean value =>
    cases value
    · exact spells_word (by decide)
    · exact spells_word (by decide)

/-- A key of a record is written as its tokens. -/
theorem spells_key {v : Literal} (h : v.isPrintable = true) :
    Spells anything (Ty.renderKey v) v.keyTokens := by
  have harrow : Spells anything (v.render ++ " => ") [v.token, .fatArrow] :=
    (spells_literal h).append (spells_mark " => " .fatArrow) fun _ _ => rfl
  cases v with
  | symbol name =>
    rw [Ty.renderKey, Literal.keyTokens]
    split
    · exact spells_label ‹_›
    · exact harrow
  | integer value => exact harrow
  | string text => exact harrow
  | boolean value => exact harrow

/-! ## Written forms -/

namespace Ty

section With

variable {toks : Ty → List TokenKind}

/-- A member is written in parentheses if it is loose. -/
theorem spells_member {t : Ty} (h : Spells boundary t.render (toks t)) (loose : Ty → Bool) :
    Spells boundary (parenthesize (loose t) t.render) (memberTokens toks loose t) := by
  rw [parenthesize, memberTokens]
  split
  · have hparens := (spells_mark "(" .lparen).enclose h (spells_mark ")" .rparen) fun _ => rfl
    exact hparens.mono fun _ _ => trivial
  · exact h

/-- Types are written with commas between them. -/
theorem spells_list {ts : List Ty} (h : ∀ t ∈ ts, Spells boundary t.render (toks t)) :
    Spells boundary (", ".intercalate (renderList ts)) ([.comma].intercalate (ts.map toks)) := by
  rw [renderList_eq_map]
  exact Spells.intercalate (spells_mark ", " .comma) (fun _ => rfl) h

/-- Type arguments are written in brackets. -/
theorem spells_args {ts : List Ty} (h : ∀ t ∈ ts, Spells boundary t.render (toks t)) :
    Spells anything ("[" ++ ", ".intercalate (renderList ts) ++ "]")
      ([.lbracket] ++ [.comma].intercalate (ts.map toks) ++ [.rbracket]) :=
  (spells_mark "[" .lbracket).enclose (spells_list h) (spells_mark "]" .rbracket) fun _ => rfl

/-- Members are written with a mark between them. -/
theorem spells_members (sep : String) {kind : TokenKind} (hsep : (sep, kind) ∈ writtenMarks)
    (hbound : ∀ rest, boundary (sep.toList ++ rest)) {ts : List Ty}
    (h : ∀ t ∈ ts, Spells boundary t.render (toks t)) (loose : Ty → Bool) :
    Spells boundary (sep.intercalate (renderMembers loose ts))
      ([kind].intercalate (ts.map (memberTokens toks loose))) := by
  rw [renderMembers_eq_map]
  exact Spells.intercalate (spells_mark sep kind hsep) hbound fun t ht =>
    spells_member (h t ht) loose

/-- The fields of a record are written in braces. -/
theorem spells_fields {fields : List (Literal × Ty)}
    (hkeys : ∀ f ∈ fields, f.1.isPrintable = true)
    (h : ∀ f ∈ fields, Spells boundary f.2.render (toks f.2)) :
    Spells anything ("\x7b " ++ ", ".intercalate (renderFields fields) ++ " \x7d")
      ([.lbrace] ++ [.comma].intercalate (fields.map fun f => f.1.keyTokens ++ toks f.2) ++
        [.rbrace]) := by
  have hfields : Spells boundary (", ".intercalate (renderFields fields))
      ([.comma].intercalate (fields.map fun f => f.1.keyTokens ++ toks f.2)) := by
    rw [renderFields_eq_map]
    exact Spells.intercalate (spells_mark ", " .comma) (fun _ => rfl) fun f hf =>
      (spells_key (hkeys f hf)).append_of_anything (h f hf)
  exact (spells_mark "\x7b " .lbrace).enclose hfields (spells_mark " \x7d" .rbrace) fun _ => rfl

/-! ### Callables -/

/-- A type that may be missing is written after its mark, if it is there. -/
theorem renderOption_eq_map (mark : String) (t : Option Ty) :
    renderOption mark t = t.toList.map fun t => mark ++ t.render := by
  cases t <;> rfl

/-- Parameters are written one by one with commas between them. -/
theorem renderParams_eq (p : Params Ty) :
    renderParams p =
      "(" ++ ", ".intercalate (p.items.map fun x => x.markText ++ x.type.render) ++ ")" := by
  obtain ⟨r, o, s, k, w, t⟩ := p
  have hitems : renderList r ++ renderMarked "?" o ++ renderOption "*" s ++ renderKeywords "" k ++
      renderKeywords "?" w ++ renderOption "**" t =
      (Params.mk r o s k w t).items.map fun x => x.markText ++ x.type.render := by
    simp [Params.items, renderList_eq_map, renderMarked_eq_map, renderOption_eq_map,
      renderKeywords_eq_map, Function.comp_def, Parser.Param.markText, Parser.Param.type]
  rw [renderParams, hitems]

/-- A type does not begin with a star. -/
theorem head_render_ne_star {t : Ty} (h : Spells boundary t.render (toks t))
    (hopens : Parser.Opens (toks t)) {rest : List Char} (hrest : boundary rest) :
    (t.render.toList ++ rest).head? ≠ some '*' := by
  intro hhead
  cases hlist : t.render.toList with
  | nil =>
    rw [hlist, List.nil_append] at hhead
    obtain ⟨rest, rfl⟩ : ∃ cs, rest = '*' :: cs := List.head?_eq_some_iff.mp hhead
    cases hrest
  | cons c cs =>
    rw [hlist] at hhead
    obtain rfl : c = '*' := Option.some.inj hhead
    have hfirst := hopens.startsType []
    rw [Spells, hlist] at h
    rw [List.append_nil, Parser.first] at hfirst
    rcases h.first_star with hstar | hstar <;>
      rw [List.headD_eq_head?_getD, hstar] at hfirst <;> cases hfirst

/-- A parameter is written with its mark before its type. -/
theorem spells_param {x : Parser.Param}
    (hname : ∀ w, .ident w ∈ x.mark → Text.isWord w = true)
    (h : Spells boundary x.type.render (toks x.type)) (hopens : Parser.Opens (toks x.type)) :
    Spells boundary (x.markText ++ x.type.render) (x.mark ++ toks x.type) := by
  cases x with
  | required t =>
    have hnothing : Spells anything "" [] := Lexes.nil
    exact hnothing.append_of_anything h
  | optional t => exact (spells_mark "?" .question).append_of_anything h
  | rest t =>
    have hstar : Spells (fun rest => rest.head? ≠ some '*') "*" [.star] := lexes_star
    exact hstar.append h fun rest hrest => head_render_ne_star h hopens hrest
  | keyword name t => exact (spells_label (hname name List.mem_cons_self)).append_of_anything h
  | optionalKeyword name t =>
    have hword := spells_word (hname name (List.mem_cons_of_mem _ List.mem_cons_self))
    have hlabel := (spells_mark "?" .question).enclose hword (spells_mark ": " .colon) fun _ => rfl
    exact hlabel.append_of_anything h
  | restKeywords t => exact (spells_mark "**" .starStar).append_of_anything h

/-- The names of a printable parameter list are words. -/
theorem isWord_of_mem_items {p : Params Ty} (hp : p.isPrintable = true) {x : Parser.Param}
    (hx : x ∈ p.items) {w : String} (hw : .ident w ∈ x.mark) : Text.isWord w = true := by
  simp only [Params.isPrintable, keywordsPrintable, Bool.and_eq_true, List.all_eq_true] at hp
  obtain ⟨⟨hkeywords, -⟩, hoptional, -⟩ := hp
  simp only [Params.items, List.mem_append, List.mem_map] at hx
  rcases hx with ((((⟨t, -, rfl⟩ | ⟨t, -, rfl⟩) | ⟨t, -, rfl⟩) | ⟨e, he, rfl⟩) | ⟨e, he, rfl⟩) |
    ⟨t, -, rfl⟩
  · simp [Parser.Param.mark] at hw
  · simp [Parser.Param.mark] at hw
  · simp [Parser.Param.mark] at hw
  · obtain rfl : w = e.1 := by simpa [Parser.Param.mark] using hw
    exact hkeywords e he
  · obtain rfl : w = e.1 := by simpa [Parser.Param.mark] using hw
    exact hoptional e he
  · simp [Parser.Param.mark] at hw

/-- A parameter list is written in its parentheses. -/
theorem spells_params {p : Params Ty} (hp : p.isPrintable = true)
    (h : ∀ t ∈ p.toList, Spells boundary t.render (toks t))
    (hopens : ∀ t ∈ p.toList, Parser.Opens (toks t)) :
    Spells anything (renderParams p) (paramsTokens toks p) := by
  rw [renderParams_eq]
  have hitems : Spells boundary
      (", ".intercalate (p.items.map fun x => x.markText ++ x.type.render))
      ([.comma].intercalate (p.items.map fun x => x.mark ++ toks x.type)) := by
    refine Spells.intercalate (spells_mark ", " .comma) (fun _ => rfl) fun x hx => ?_
    have hmem := Params.type_mem_of_mem_items hx
    exact spells_param (fun w hw => isWord_of_mem_items hp hx hw) (h _ hmem) (hopens _ hmem)
  exact (spells_mark "(" .lparen).enclose hitems (spells_mark ")" .rparen) fun _ => rfl

/-- The receiver of a block is written in brackets, if there is one. -/
theorem spells_receiver {receiver : Option Ty}
    (h : ∀ t, receiver = some t → Spells boundary t.render (toks t)) :
    Spells anything (renderReceiver receiver) (receiverTokens toks receiver) := by
  cases receiver with
  | none => exact Lexes.nil
  | some t =>
    have hself : Spells anything " [self: " [.lbracket, .ident "self", .colon] :=
      lexes_blank.append_of_anything ((spells_mark "[" .lbracket).append_of_anything
        (spells_label (w := "self") (by decide)))
    exact hself.enclose (h t rfl) (spells_mark "]" .rbracket) fun _ => rfl

/-- A block is written in its braces. -/
theorem spells_block {b : Block Ty} (hp : b.arrow.params.isPrintable = true)
    (h : ∀ t ∈ b.toList, Spells boundary t.render (toks t))
    (hopens : ∀ t ∈ b.toList, Parser.Opens (toks t)) :
    Spells anything (renderBlock b) (blockTokens toks b) := by
  have hparams : Spells anything (renderParams b.arrow.params) (paramsTokens toks b.arrow.params) :=
    spells_params hp (fun t ht => h t (Block.mem_toList.mpr (Or.inl ht)))
      fun t ht => hopens t (Block.mem_toList.mpr (Or.inl ht))
  have hreceiver : Spells anything (renderReceiver b.receiver) (receiverTokens toks b.receiver) :=
    spells_receiver fun t ht => h t (Block.mem_toList.mpr (Or.inr (Or.inr ht)))
  have hresult := h b.arrow.result (Block.mem_toList.mpr (Or.inr (Or.inl rfl)))
  have hoptional : Spells anything (if b.optional then "?" else "")
      (if b.optional then [.question] else []) := by
    split
    · exact spells_mark "?" .question
    · exact Lexes.nil
  have hhead := (((hoptional.append_of_anything (spells_mark "\x7b " .lbrace)).append_of_anything
    hparams).append_of_anything hreceiver).append_of_anything (spells_mark " -> " .arrow)
  have hwritten := hhead.enclose hresult (spells_mark " \x7d" .rbrace) fun _ => rfl
  obtain ⟨⟨p, t⟩, optional, receiver⟩ := b
  rw [renderBlock, blockTokens]
  exact hwritten

/-- The tokens of a written callable. -/
theorem spells_callable {c : Callable Ty} (hc : c.isPrintable = true)
    (h : ∀ t ∈ c.toList, Spells boundary t.render (toks t))
    (hopens : ∀ t ∈ c.toList, Parser.Opens (toks t)) :
    Spells boundary (renderCallable c) (callableTokens toks c) := by
  obtain ⟨hp, hblock⟩ := Bool.and_eq_true_iff.mp hc
  have hparams : Spells anything (renderParams c.arrow.params) (paramsTokens toks c.arrow.params) :=
    spells_params hp (fun t ht => h t (Callable.mem_toList.mpr (Or.inl ht)))
      fun t ht => hopens t (Callable.mem_toList.mpr (Or.inl ht))
  have hresult := h c.arrow.result (Callable.mem_toList.mpr (Or.inr (Or.inl rfl)))
  have hoption : Spells anything (renderBlockOption c.block)
      ((c.block.map (blockTokens toks)).getD []) := by
    cases hb : c.block with
    | none => exact Lexes.nil
    | some b =>
      have hmem : ∀ t ∈ b.toList, t ∈ c.toList :=
        fun t ht => Callable.mem_toList.mpr (Or.inr (Or.inr ⟨b, hb, ht⟩))
      have hwritten := spells_block (by simpa [hb] using hblock) (fun t ht => h t (hmem t ht))
        fun t ht => hopens t (hmem t ht)
      have hblank : Spells anything " " [] := lexes_blank
      exact hblank.append_of_anything hwritten
  have hwritten := ((hparams.append_of_anything hoption).append_of_anything
    (spells_mark " -> " .arrow)).append_of_anything hresult
  obtain ⟨⟨p, t⟩, block⟩ := c
  rw [renderCallable, callableTokens]
  exact hwritten

end With

/-- The tokens of a written type whose texts are legible. -/
theorem spells_of_legible {t : Ty} (h : t.WellSpelled) (hlegible : t.Legible) :
    Spells boundary t.render t.tokens := by
  induction t using inductionOnParts with
  | step t ih =>
    have hparts : ∀ u ∈ t.parts, Spells boundary u.render u.tokens :=
      fun u hu => ih u hu (all_part h hu) (all_part hlegible hu)
    have hopens : ∀ u ∈ t.parts, Parser.Opens u.tokens := fun u hu => opens_tokens (all_part h hu)
    have hhere := all_here h
    have htexts := all_here hlegible
    rw [tokens_eq]
    cases t with
    | named kind name args =>
      have hname := spells_name (Bool.and_eq_true_iff.mp hhere).1
      cases args with
      | nil =>
        have hnothing : Spells boundary "" [] := Lexes.nil
        exact hname.append hnothing fun _ hrest => hrest
      | cons a args =>
        have hargs := spells_args hparts
        have hwritten := hname.append hargs fun rest _ => by
          rw [String.append_assoc, String.toList_append, List.append_assoc]
          rfl
        exact hwritten.mono fun _ _ => trivial
    | singleton name =>
      have hword : Spells anything "singleton(" [.ident "singleton", .lparen] := by
        have htext : "singleton(" = "singleton" ++ "(" := by decide
        rw [htext]
        exact (spells_word (by decide)).append (spells_mark "(" .lparen) fun _ _ => rfl
      have hwritten := hword.enclose (spells_name hhere) (spells_mark ")" .rparen) fun _ => rfl
      exact hwritten.mono fun _ _ => trivial
    | union ms => exact spells_members " | " (by decide) (fun _ => rfl) hparts _
    | inter ms => exact spells_members " & " (by decide) (fun _ => rfl) hparts _
    | literal value => exact spells_literal (Literal.isPrintable_iff.mpr ⟨hhere, htexts⟩)
    | tuple items => exact (spells_args hparts).mono fun _ _ => trivial
    | record fields =>
      simp only [wellSpelledHere, legibleHere, Bool.and_eq_true, List.all_eq_true] at hhere htexts
      have hkeys : ∀ f ∈ fields, f.1.isPrintable = true := fun f hf =>
        Literal.isPrintable_iff.mpr ⟨(hhere.1 f hf).2, htexts f hf⟩
      have hwritten := spells_fields hkeys fun f hf => hparts f.2 (List.mem_map_of_mem hf)
      exact hwritten.mono fun _ _ => trivial
    | proc c =>
      exact (spells_mark "^" .caret).append_of_anything (spells_callable hhere hparts hopens)
    | var name => exact spells_word (Bool.and_eq_true_iff.mp hhere).1
    | logic question => cases hhere
    | slot s => cases s <;> exact spells_word (by decide)
    | _ => exact spells_word (by decide)

/-- The tokens of a written type that can be read back. -/
theorem spells_render {t : Ty} (h : t.Printable) : Spells boundary t.render t.tokens :=
  spells_of_legible (printable_iff.mp h).1 (printable_iff.mp h).2.1

end Ty
end TypeShape
