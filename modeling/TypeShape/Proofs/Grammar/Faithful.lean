import TypeShape.Proofs.Grammar.Load
import TypeShape.Proofs.Grammar.RoundTrip
import TypeShape.Proofs.Grammar.Scanned

/-!
# Which types are read back

Everything that is read can be written, but not everything that is written is read back as it was.
A proc with a union or an intersection as its result loses members of it, a character that is
written as an escape is read as the letters of the escape, except for the four escapes that are
known, and markers of type parameters are not written.  There are no other exceptions.

Main results:

- Theorems `Ty.parse_render_asRead` and `Overload.parse_render_asRead`: what is read for a written
  form whose texts are legible.
- Theorem `Ty.legible_render`: written forms are legible, whatever texts they hold.
- Theorem `Ty.parse_render_iff_faithful`: which types and overloads are read back.
-/

namespace TypeShape

/-! ## Legible texts -/

namespace Text

/-- All characters of a text are legible. -/
def AllLegible (s : String) : Prop :=
  ∀ c ∈ s.toList, isLegible c = true

instance (s : String) : Decidable (AllLegible s) :=
  decidable_of_iff (s.toList.all isLegible = true) List.all_eq_true

variable {s s' : String}

/-- Legible texts are legible together. -/
theorem AllLegible.append (h : AllLegible s) (h' : AllLegible s') : AllLegible (s ++ s') := by
  intro c hc
  rw [String.toList_append, List.mem_append] at hc
  exact hc.elim (h c) (h' c)

/-- Legible texts are legible with a legible one between them. -/
theorem AllLegible.intercalate (h : AllLegible s) {ss : List String}
    (hss : ∀ s ∈ ss, AllLegible s) : AllLegible (s.intercalate ss) := by
  induction ss with
  | nil => exact fun c hc => by simp at hc
  | cons s₁ ss ih =>
    obtain ⟨hs₁, hss⟩ := List.forall_mem_cons.mp hss
    cases ss with
    | nil => simpa using hs₁
    | cons s₂ ss =>
      rw [String.intercalate_cons_cons]
      exact (hs₁.append h).append (ih hss)

/-- The characters of words are legible. -/
theorem isLegible_of_isWordChar {c : Char} (h : isWordChar c = true) : isLegible c = true := by
  have hne : ∀ d, isWordChar d = false → c ≠ d := by
    rintro d hd rfl
    rw [h] at hd
    cases hd
  have hvisible : isVisible c = true := by
    rw [isWordChar_iff] at h
    simp only [isVisible, isVisibleAscii, Bool.or_eq_true, Bool.and_eq_true, decide_eq_true_eq]
    omega
  have hself : escape c = [c] := by
    simp only [escape, hne '\x00' rfl, hne '\t' rfl, hne '\n' rfl, hne '\r' rfl, hne '"' rfl,
      hne '\\' rfl, hvisible, if_true, if_false]
  simp [isLegible, hself]

/-- Words are legible. -/
theorem legible_of_isWord (h : isWord s = true) : AllLegible s := by
  obtain ⟨c, cs, hlist, -, hall⟩ := exists_of_isWord h
  intro d hd
  exact isLegible_of_isWordChar (hall d (hlist ▸ hd))

/-- The digits of a code point are legible. -/
theorem isLegible_of_mem_toDigits {n : Nat} {c : Char} (h : c ∈ Nat.toDigits 16 n) :
    isLegible c = true := by
  have hdigit : ∀ d < 16, isLegible (Nat.digitChar d) = true := by decide
  have hcore : ∀ (fuel n : Nat) (ds : List Char), (∀ d ∈ ds, isLegible d = true) →
      ∀ d ∈ Nat.toDigitsCore 16 fuel n ds, isLegible d = true := by
    intro fuel
    induction fuel with
    | zero => exact fun n ds hds => hds
    | succ fuel ih =>
      intro n ds hds
      have hcons : ∀ d ∈ Nat.digitChar (n % 16) :: ds, isLegible d = true :=
        List.forall_mem_cons.mpr ⟨hdigit _ (Nat.mod_lt n (by decide)), hds⟩
      rw [Nat.toDigitsCore]
      split
      · exact hcons
      · exact ih _ _ hcons
  exact hcore _ _ [] (List.forall_mem_nil _) c h

/-- What a character is written as is legible, whether the character is or not. -/
theorem isLegible_of_mem_escape {c d : Char} (h : d ∈ escape c) : isLegible d = true := by
  by_cases hself : escape c = [c]
  · rw [hself, List.mem_singleton] at h
    simp [h, isLegible, hself]
  · have hpair : ∀ {e : Char}, isLegible e = true → d ∈ ['\\', e] → isLegible d = true := by
      intro e he hd
      simp only [List.mem_cons, List.not_mem_nil, or_false] at hd
      rcases hd with rfl | rfl
      · rfl
      · exact he
    unfold escape at h
    split at h
    · exact hpair rfl h
    split at h
    · exact hpair rfl h
    split at h
    · exact hpair rfl h
    split at h
    · exact hpair rfl h
    split at h
    · exact hpair rfl h
    split at h
    · exact hpair rfl h
    split at h
    · rename_i hnull htab hline hreturn hquote hslash hvisible
      refine absurd ?_ hself
      rw [escape, if_neg hnull, if_neg htab, if_neg hline, if_neg hreturn, if_neg hquote,
        if_neg hslash, if_pos hvisible]
    · simp only [codePoint, List.mem_append, List.mem_cons, List.not_mem_nil, or_false] at h
      rcases h with ((rfl | rfl | rfl) | h) | rfl
      · rfl
      · rfl
      · rfl
      · exact isLegible_of_mem_toDigits h
      · rfl

/-- A quoted text is legible, since it is escaped. -/
theorem legible_quote (s : String) : AllLegible (quote s) := by
  intro c hc
  rw [Lexer.toList_quote, List.mem_cons, List.mem_append, List.mem_flatMap,
    List.mem_singleton] at hc
  rcases hc with rfl | ⟨d, -, hc⟩ | rfl
  · decide
  · exact isLegible_of_mem_escape hc
  · decide

end Text

/-! ## Written forms are legible -/

open Text (AllLegible)

/-- A literal is written legibly. -/
theorem Literal.legible_render (v : Literal) : AllLegible v.render := by
  have hcolon : AllLegible ":" := by decide
  cases v with
  | integer value =>
    have hdigits : ∀ n : Nat, AllLegible n.repr := by
      intro n c hc
      rw [Nat.toList_repr] at hc
      have hdigit := Nat.isDigit_of_mem_toDigits (by decide) (by decide) hc
      exact Text.isLegible_of_isWordChar (Text.isWordChar_of_isDigit hdigit)
    cases value with
    | ofNat n => exact hdigits n
    | negSucc n => exact AllLegible.append (by decide) (hdigits (n + 1))
  | string text => exact Text.legible_quote text
  | symbol name =>
    rw [render]
    split
    · exact hcolon.append (Text.legible_of_isWord ‹_›)
    · exact hcolon.append (Text.legible_quote name)
  | boolean value => cases value <;> decide

/-- So is a path. -/
theorem TypeName.legible_text {n : TypeName} (h : n.isPath = true) : AllLegible n.text := by
  obtain ⟨ws, hne, hws, rfl⟩ := isPath_iff.mp h
  intro c hc
  rw [toList_ofSegments hne] at hc
  obtain ⟨w, hw, hc⟩ := List.mem_flatMap.mp hc
  rcases List.mem_cons.mp hc with rfl | hc
  · decide
  rcases List.mem_cons.mp hc with rfl | hc
  · decide
  exact Text.legible_of_isWord (hws w hw) c hc

namespace Ty

/-- So is a key of a record. -/
theorem legible_renderKey (key : Literal) : AllLegible (renderKey key) := by
  have harrow : AllLegible (key.render ++ " => ") := key.legible_render.append (by decide)
  cases key with
  | symbol name =>
    rw [renderKey]
    split
    · exact (Text.legible_of_isWord ‹_›).append (by decide)
    · exact harrow
  | _ => exact harrow

/-- So is a parameter list, if its types are. -/
theorem legible_renderParams {p : Params Ty} (hp : p.isPrintable = true)
    (h : ∀ t ∈ p.toList, AllLegible t.render) : AllLegible (renderParams p) := by
  have hmark : ∀ x ∈ p.items, AllLegible x.markText := by
    intro x hx
    have hword : ∀ w, .ident w ∈ x.mark → AllLegible w :=
      fun w hw => Text.legible_of_isWord (isWord_of_mem_items hp hx hw)
    cases x with
    | keyword name t => exact (hword name (by simp [Parser.Param.mark])).append (by decide)
    | optionalKeyword name t =>
      have hname := hword name (by simp [Parser.Param.mark])
      exact (AllLegible.append (by decide) hname).append (by decide)
    | required t => exact (by decide : AllLegible "")
    | optional t => exact (by decide : AllLegible "?")
    | rest t => exact (by decide : AllLegible "*")
    | restKeywords t => exact (by decide : AllLegible "**")
  rw [renderParams_eq]
  refine (AllLegible.append (by decide) (AllLegible.intercalate (by decide) ?_)).append (by decide)
  refine List.forall_mem_map.mpr fun x hx => (hmark x hx).append ?_
  exact h x.type (Params.type_mem_of_mem_items hx)

/-- So is a block, if its types are. -/
theorem legible_renderBlock {b : Block Ty} (hp : b.arrow.params.isPrintable = true)
    (h : ∀ t ∈ b.toList, AllLegible t.render) : AllLegible (renderBlock b) := by
  have hparams := legible_renderParams hp fun t ht => h t (Block.mem_toList.mpr (Or.inl ht))
  have hresult := h b.arrow.result (Block.mem_toList.mpr (Or.inr (Or.inl rfl)))
  have hreceiver : AllLegible (renderReceiver b.receiver) := by
    cases hr : b.receiver with
    | none => decide
    | some t =>
      have ht := h t (Block.mem_toList.mpr (Or.inr (Or.inr hr)))
      exact (AllLegible.append (by decide) ht).append (by decide)
  have hoptional : AllLegible (if b.optional then "?" else "") := by
    split <;> decide
  have hopening : AllLegible "\x7b " := by decide
  have harrow : AllLegible " -> " := by decide
  have hclosing : AllLegible " \x7d" := by decide
  have hhead := ((hoptional.append hopening).append hparams).append hreceiver
  have hwritten := ((hhead.append harrow).append hresult).append hclosing
  obtain ⟨⟨p, t⟩, optional, receiver⟩ := b
  rw [renderBlock]
  exact hwritten

/-- So is a callable, if its types are. -/
theorem legible_renderCallable {c : Callable Ty} (hc : c.isPrintable = true)
    (h : ∀ t ∈ c.toList, AllLegible t.render) : AllLegible (renderCallable c) := by
  obtain ⟨hp, hblock⟩ := Bool.and_eq_true_iff.mp hc
  have hparams := legible_renderParams hp fun t ht => h t (Callable.mem_toList.mpr (Or.inl ht))
  have hresult := h c.arrow.result (Callable.mem_toList.mpr (Or.inr (Or.inl rfl)))
  have hoption : AllLegible (renderBlockOption c.block) := by
    cases hb : c.block with
    | none => decide
    | some b =>
      exact AllLegible.append (by decide) (legible_renderBlock (by simpa [hb] using hblock)
        fun t ht => h t (Callable.mem_toList.mpr (Or.inr (Or.inr ⟨b, hb, ht⟩))))
  have harrow : AllLegible " -> " := by decide
  have hwritten := ((hparams.append hoption).append harrow).append hresult
  obtain ⟨⟨p, t⟩, block⟩ := c
  rw [renderCallable]
  exact hwritten

/-- Written forms are legible, whatever texts they hold. -/
theorem legible_render {t : Ty} (h : t.WellSpelled) : AllLegible t.render := by
  induction t using inductionOnParts with
  | step t ih =>
    have hparts : ∀ u ∈ t.parts, AllLegible u.render := fun u hu => ih u hu (all_part h hu)
    have hhere := all_here h
    have hlist : ∀ {ts : List Ty}, (∀ u ∈ ts, AllLegible u.render) →
        AllLegible (", ".intercalate (renderList ts)) := fun {ts} hts => by
      rw [renderList_eq_map]
      exact AllLegible.intercalate (by decide) (List.forall_mem_map.mpr hts)
    have hmembers : ∀ {sep : String} (loose : Ty → Bool) {ts : List Ty}, AllLegible sep →
        (∀ u ∈ ts, AllLegible u.render) →
        AllLegible (sep.intercalate (renderMembers loose ts)) := by
      intro sep loose ts hsep hts
      rw [renderMembers_eq_map]
      refine hsep.intercalate (List.forall_mem_map.mpr fun u hu => ?_)
      rw [parenthesize]
      split
      · exact (AllLegible.append (by decide) (hts u hu)).append (by decide)
      · exact hts u hu
    cases t with
    | named kind name args =>
      have hname := TypeName.legible_text (Bool.and_eq_true_iff.mp hhere).1
      refine hname.append ?_
      cases args with
      | nil => decide
      | cons a args => exact (AllLegible.append (by decide) (hlist hparts)).append (by decide)
    | singleton name =>
      exact (AllLegible.append (by decide) (TypeName.legible_text hhere)).append (by decide)
    | union ms => exact hmembers _ (by decide) hparts
    | inter ms => exact hmembers _ (by decide) hparts
    | literal value => exact value.legible_render
    | tuple items => exact (AllLegible.append (by decide) (hlist hparts)).append (by decide)
    | record fields =>
      have hfields : AllLegible (", ".intercalate (renderFields fields)) := by
        rw [renderFields_eq_map]
        refine AllLegible.intercalate (by decide) (List.forall_mem_map.mpr fun f hf => ?_)
        exact (legible_renderKey f.1).append (hparts f.2 (List.mem_map_of_mem hf))
      exact (AllLegible.append (by decide) hfields).append (by decide)
    | proc c => exact AllLegible.append (by decide) (legible_renderCallable hhere hparts)
    | var name => exact Text.legible_of_isWord (Bool.and_eq_true_iff.mp hhere).1
    | logic question => cases hhere
    | slot s => cases s <;> decide
    | _ => decide

end Ty

/-- So is a well-spelled overload. -/
theorem Overload.legible_render {o : Overload} (h : o.WellSpelled) : AllLegible o.render := by
  have htypes : ∀ t ∈ o.types, AllLegible t.render := fun t ht => Ty.legible_render (h.types t ht)
  have hparam : ∀ p ∈ o.typeParams, AllLegible p.render := by
    intro p hp
    have hname := Text.legible_of_isWord (h.typeParams p hp)
    rw [TypeParam.render]
    split
    · exact hname
    · rename_i t ht
      exact (hname.append (by decide)).append (htypes t (bound_mem_types hp ht))
  have hparams : AllLegible (renderTypeParams o.typeParams) := by
    cases hps : o.typeParams with
    | nil => decide
    | cons p ps =>
      have hwritten : AllLegible (", ".intercalate ((p :: ps).map TypeParam.render)) :=
        AllLegible.intercalate (by decide)
          (List.forall_mem_map.mpr fun q hq => hparam q (hps ▸ hq))
      exact (AllLegible.append (by decide) hwritten).append (by decide)
  exact hparams.append
    (Ty.legible_renderCallable h.callable fun t ht => htypes t (List.mem_append_left _ ht))

/-! ## What is read from legible texts -/

namespace Parser

/-- A key that is read from legible tokens is legible. -/
theorem KeyOf.isLegible {key : Literal}
    (h : KeyOf (TokenKind.MadeOf fun c => Text.isLegible c = true) key) : key.isLegible = true := by
  cases h with
  | integer _ => rfl
  | string h => exact List.all_eq_true.mpr h
  | symbol h => exact List.all_eq_true.mpr h
  | word h => exact List.all_eq_true.mpr (Text.legible_of_isWord h)

/-- Legibility of types is kept by everything that parses them. -/
theorem admits_legibleHere :
    Admits (TokenKind.MadeOf fun c => Text.isLegible c = true) Ty.legibleHere where
  stable := Ty.stable_legibleHere
  keyword {w t} h := by
    unfold wordType? at h
    split at h <;> first | (obtain rfl := Option.some.inj h; rfl) | cases h
  integer _ := rfl
  string h := List.all_eq_true.mpr h
  symbol h := List.all_eq_true.mpr h
  var _ _ := rfl
  singleton _ _ := rfl
  named _ _ _ := rfl
  tuple _ := rfl
  record hkeys _ := List.all_eq_true.mpr fun f hf => (hkeys f hf).isLegible
  proc _ := rfl

/-- The tokens of a legible text are made of legible characters. -/
theorem madeOf_of_allLegible {source : String} (h : AllLegible source) (tokens : List Token)
    (hscan : Token.scan source = .ok tokens) :
    ∀ t ∈ tokens, t.kind.MadeOf fun c => Text.isLegible c = true := by
  refine Token.madeOf_of_scan (fun c hc => ?_) h hscan
  unfold Lexer.unescape
  split
  · decide
  · split
    · decide
    · exact hc

end Parser

/-- A type that is parsed from a legible text is legible. -/
theorem Ty.legible_of_parse {source : String} (hsource : AllLegible source) {t : Ty}
    (h : Ty.parse source = .ok t) : t.Legible :=
  (Parser.yields_type Parser.admits_legibleHere).run (Parser.madeOf_of_allLegible hsource) h

/-- So is an overload. -/
theorem Overload.legible_of_parse {source : String} (hsource : AllLegible source) {o : Overload}
    (h : Overload.parse source = .ok o) : o.Legible :=
  ((Parser.yields_overload Parser.admits_legibleHere).run (Parser.madeOf_of_allLegible hsource) h).1

/-! ## What is read back -/

/-- What is read for a written type whose texts are legible. -/
theorem Ty.parse_render_asRead {t : Ty} (h : t.WellSpelled) (hlegible : t.Legible) :
    Ty.parse t.render = .ok t.asRead := by
  obtain ⟨tokens, hscan, hkinds⟩ := (Ty.spells_of_legible h hlegible).scan
  exact (Parser.reads_type_asRead h).run hscan hkinds (by decide)

/-- A well-spelled, legible overload is parsed as what it is read as. -/
theorem Overload.parse_render_asRead {o : Overload} (h : o.WellSpelled) (hlegible : o.Legible) :
    Overload.parse o.render = .ok o.asRead := by
  obtain ⟨tokens, hscan, hkinds⟩ := (Overload.spells_of_legible h hlegible).scan
  exact (Parser.reads_overload_asRead h).run hscan hkinds (by decide)

/-- Equal types hold the same texts. -/
theorem Ty.legible_of_beq {t u : Ty} (h : (t == u) = true) (hu : u.Legible) : t.Legible := by
  have hhere : ∀ t : Ty, t.legibleHere = t.head.1.legibleHere := by
    intro t
    cases t <;> simp [legibleHere, head, Function.comp_def]
  induction t using inductionOnParts generalizing u with
  | step t ih =>
    refine all_iff.mpr ⟨?_, fun a ha => ?_⟩
    · rw [hhere, head_eq_of_beq h, ← hhere]
      exact all_here hu
    · obtain ⟨b, hb, hab⟩ := exists_part_of_beq h ha
      exact ih a ha hab (all_part hu hb)

/-- All texts in the type are legible, and no proc has a union or an intersection as its result. -/
def Ty.Faithful (t : Ty) : Prop :=
  t.Legible ∧ t.Plain

/-- The types of the overload are faithful, and its type parameters have no markers. -/
def Overload.Faithful (o : Overload) : Prop :=
  o.Legible ∧ o.Plain

instance (t : Ty) : Decidable t.Faithful :=
  inferInstanceAs (Decidable (t.Legible ∧ t.Plain))

instance (o : Overload) : Decidable o.Faithful :=
  decidable_of_iff ((∀ t ∈ o.types, t.Faithful) ∧
      ∀ p ∈ o.typeParams, p.variance = .invariant ∧ p.unchecked = false)
    ⟨fun h => ⟨fun t ht => (h.1 t ht).1, fun t ht => (h.1 t ht).2, h.2⟩,
      fun h => ⟨fun t ht => ⟨h.1 t ht, h.2.types t ht⟩, h.2.typeParams⟩⟩

/-- A type that is parsed from its own text as an equal one is faithful. -/
theorem Ty.faithful_of_beq {t u : Ty} (ht : t.WellSpelled) (hu : Ty.parse t.render = .ok u)
    (h : (u == t) = true) : t.Faithful := by
  have hnormal := Ty.normal_of_parse hu
  have hlegible : t.Legible :=
    legible_of_beq (beq_symm hnormal.wellFormed ht.normal.wellFormed h)
      (legible_of_parse (legible_render ht) hu)
  obtain rfl : t.asRead = u := Except.ok.inj ((parse_render_asRead ht hlegible).symm.trans hu)
  exact ⟨hlegible, plain_of_asRead_beq ht.normal hnormal h⟩

/-- So is an overload. -/
theorem Overload.faithful_of_beq {o p : Overload} (ho : o.WellSpelled)
    (hp : Overload.parse o.render = .ok p) (h : (p == o) = true) : o.Faithful := by
  have hnormal := Overload.normal_of_parse hp
  have honormal : o.Normal := fun t ht => (ho.types t ht).normal
  obtain ⟨hframe, htypes⟩ := Overload.beq_iff.mp h
  have hlegible : o.Legible := by
    intro t ht
    have hsymm := htypes.symm (fun t ht => (hnormal t ht).wellFormed)
      fun t ht => (honormal t ht).wellFormed
    obtain ⟨i, hi⟩ := List.getElem?_of_mem ht
    obtain ⟨u, hu, htu⟩ := exists_of_forall₂ hsymm hi
    exact Ty.legible_of_beq htu
      (Overload.legible_of_parse (legible_render ho) hp u (List.mem_of_getElem? hu))
  obtain rfl : o.asRead = p :=
    Except.ok.inj ((parse_render_asRead ho hlegible).symm.trans hp)
  refine ⟨hlegible, fun t ht => ?_, fun q hq => ?_⟩
  · rw [types_asRead, Ty.AllEqual, List.forall₂_map_left_iff, List.forall₂_same] at htypes
    have hread : t.asRead.Normal := hnormal t.asRead (types_asRead o ▸ List.mem_map_of_mem ht)
    exact Ty.plain_of_asRead_beq (honormal t ht) hread (htypes t ht)
  · have hframes : o.asRead.typeParams.map TypeParam.frame = o.typeParams.map TypeParam.frame :=
      (Prod.mk.inj hframe).2
    rw [asRead, List.map_map] at hframes
    have hmarks := List.map_inj_left.mp hframes q hq
    simp only [Function.comp_apply, TypeParam.frame, TypeParam.asRead, Prod.mk.injEq] at hmarks
    exact ⟨hmarks.2.2.1.symm, hmarks.2.2.2.symm⟩

/-- A type or an overload that was read is read back from its written form exactly if it is
faithful. -/
theorem Ty.parse_render_iff_faithful (source : String) :
    (∀ t, Ty.parse source = .ok t →
      ((∃ u, Ty.parse t.render = .ok u ∧ (u == t) = true) ↔ t.Faithful)) ∧
    ∀ o, Overload.parse source = .ok o →
      ((∃ p, Overload.parse o.render = .ok p ∧ (p == o) = true) ↔ o.Faithful) := by
  constructor
  · intro t ht
    have hspelled := Ty.wellSpelled_of_parse ht
    constructor
    · rintro ⟨u, hu, hbeq⟩
      exact Ty.faithful_of_beq hspelled hu hbeq
    · rintro ⟨hlegible, hplain⟩
      have hread := Ty.parse_render_asRead hspelled hlegible
      rw [Ty.asRead_of_plain hspelled.normal hplain] at hread
      exact ⟨t, hread, Ty.beq_refl t⟩
  · intro o ho
    have hspelled := Overload.wellSpelled_of_parse ho
    constructor
    · rintro ⟨p, hp, hbeq⟩
      exact Overload.faithful_of_beq hspelled hp hbeq
    · rintro ⟨hlegible, hplain⟩
      have hread := Overload.parse_render_asRead hspelled hlegible
      rw [Overload.asRead_of_plain (fun t ht => (hspelled.types t ht).normal) hplain] at hread
      exact ⟨_, hread, Overload.beq_refl o⟩

/-- Each way to be unfaithful, and an overload whose own result needs no parentheses. -/
theorem Ty.parse_render_of_samples :
    (∃ t, Ty.parse "^() -> (A | B)" = .ok t ∧
      ¬ ∃ u, Ty.parse t.render = .ok u ∧ (u == t) = true) ∧
    (∃ t, Ty.parse "\"\r\"" = .ok t ∧ ¬ ∃ u, Ty.parse t.render = .ok u ∧ (u == t) = true) ∧
    (∃ o, Overload.parse "[out T] () -> T" = .ok o ∧
      ¬ ∃ p, Overload.parse o.render = .ok p ∧ (p == o) = true) ∧
    ∃ o, Overload.parse "() -> (A | 'b')" = .ok o ∧
      ∃ p, Overload.parse o.render = .ok p ∧ (p == o) = true := by
  obtain ⟨t, ht, hspills⟩ := exists_ok_of_any (x := Ty.parse "^() -> (A | B)")
    (p := fun t => !decide t.Faithful) (by decide +kernel)
  obtain ⟨u, hu, hescapes⟩ := exists_ok_of_any (x := Ty.parse "\"\r\"")
    (p := fun t => !decide t.Faithful) (by decide +kernel)
  obtain ⟨o, ho, hmarks⟩ := exists_ok_of_any (x := Overload.parse "[out T] () -> T")
    (p := fun o => !decide o.Faithful) (by decide +kernel)
  obtain ⟨q, hq, hfaithful⟩ := exists_ok_of_any (x := Overload.parse "() -> (A | 'b')")
    (p := fun o => decide o.Faithful) (by decide +kernel)
  rw [Bool.not_eq_true', decide_eq_false_iff_not] at hspills hescapes hmarks
  rw [decide_eq_true_eq] at hfaithful
  exact ⟨⟨t, ht, fun hback => hspills (((parse_render_iff_faithful _).1 t ht).mp hback)⟩,
    ⟨u, hu, fun hback => hescapes (((parse_render_iff_faithful _).1 u hu).mp hback)⟩,
    ⟨o, ho, fun hback => hmarks (((parse_render_iff_faithful _).2 o ho).mp hback)⟩,
    ⟨q, hq, ((parse_render_iff_faithful _).2 q hq).mpr hfaithful⟩⟩

end TypeShape
