import TypeShape.Grammar.Parser
import TypeShape.Proofs.Grammar.Lexing
import TypeShape.Proofs.Keyed
import TypeShape.Proofs.Types.Equality

/-!
# The tokens of types

The tokens that a type is written with.  They are put together from the tokens of its parts, in the
order of the written form but without its blanks.

Main results:

- Theorem `Ty.tokens_eq`: the tokens of a type from those of its parts.
- Theorem `Ty.length_lt_tokensWith`: a type has more tokens than any of its parts.
-/

namespace TypeShape

/-- No list is longer than what it is joined to. -/
theorem length_le_intercalate {α : Type} (separator : List α) {ls : List (List α)} {l : List α}
    (h : l ∈ ls) : l.length ≤ (separator.intercalate ls).length := by
  obtain ⟨k, ls, rfl⟩ := List.exists_cons_of_ne_nil (List.ne_nil_of_mem h)
  rw [intercalate_cons, List.length_append]
  rcases List.mem_cons.mp h with rfl | h
  · omega
  · have hmem := List.mem_map_of_mem (f := (separator ++ ·)) h
    have hle := (List.sublist_flatten_of_mem hmem).length_le
    rw [List.length_append, ← List.flatMap_def] at hle
    omega

/-! ## Names and literals -/

namespace TypeName

/-- The absolute name with the given segments. -/
def ofSegments (ws : List String) : TypeName :=
  ⟨"::" ++ "::".intercalate ws⟩

/-- The texts between the colons of a name. -/
def segments (n : TypeName) : List String :=
  ((n.text.toList.splitOn ':').filter (· ≠ [])).map String.ofList

/-- The name is made of one or more words with two colons before each. -/
def isPath (n : TypeName) : Bool :=
  n.segments ≠ [] && n.segments.all Text.isWord && n == ofSegments n.segments

/-- The tokens of a name. -/
def tokens (n : TypeName) : List TokenKind :=
  n.segments.flatMap fun w => [.colonColon, .ident w]

/-- The characters of a path are those of its segments after colons. -/
theorem toList_ofSegments {ws : List String} (h : ws ≠ []) :
    (ofSegments ws).text.toList = ws.flatMap fun w => ':' :: ':' :: w.toList := by
  obtain ⟨w, ws, rfl⟩ := List.exists_cons_of_ne_nil h
  rw [ofSegments, String.toList_append, String.toList_intercalate, List.map_cons, intercalate_cons,
    List.flatMap_map]
  rfl

/-- The segments of a path are read off again. -/
theorem segments_ofSegments {ws : List String} (hne : ws ≠ [])
    (hws : ∀ w ∈ ws, Text.isWord w = true) : (ofSegments ws).segments = ws := by
  have hchars : ∀ w ∈ ws, w.toList ≠ [] ∧ ':' ∉ w.toList := by
    intro w hw
    obtain ⟨c, cs, hlist, -, hall⟩ := Text.exists_of_isWord (hws w hw)
    rw [hlist]
    exact ⟨List.cons_ne_nil c cs, fun hmem => nomatch hall ':' hmem⟩
  have htext : (ofSegments ws).text.toList =
      [':'].intercalate ([] :: ws.flatMap fun w => [[], w.toList]) := by
    rw [toList_ofSegments hne, intercalate_cons, List.flatMap_assoc]
    simp
  have hsplit : (ofSegments ws).text.toList.splitOn ':' =
      [] :: ws.flatMap fun w => [[], w.toList] := by
    rw [htext]
    refine List.splitOn_intercalate _ ?_ (List.cons_ne_nil _ _)
    simp only [List.forall_mem_cons, List.mem_flatMap]
    refine ⟨by simp, ?_⟩
    rintro l ⟨w, hw, hl⟩
    simp only [List.mem_cons, List.not_mem_nil, or_false] at hl
    rcases hl with rfl | rfl
    · simp
    · exact (hchars w hw).2
  have hfilter : (ws.flatMap fun w => [[], w.toList]).filter (· ≠ []) = ws.map String.toList := by
    clear hsplit htext hws hne
    induction ws with
    | nil => rfl
    | cons w ws ih =>
      obtain ⟨hw, hws⟩ := List.forall_mem_cons.mp hchars
      rw [List.flatMap_cons, List.filter_append, ih hws]
      simp [hw.1]
  rw [segments, hsplit, List.filter_cons_of_neg (by simp), hfilter, List.map_map]
  exact (List.map_congr_left fun w _ => String.ofList_toList).trans (List.map_id ws)

/-- Paths are made of one word or more. -/
theorem isPath_iff {n : TypeName} : n.isPath = true ↔
    ∃ ws, ws ≠ [] ∧ (∀ w ∈ ws, Text.isWord w = true) ∧ n = ofSegments ws := by
  constructor
  · intro h
    simp only [isPath, Bool.and_eq_true, decide_eq_true_eq, List.all_eq_true, beq_iff_eq] at h
    exact ⟨n.segments, h.1.1, h.1.2, h.2⟩
  · rintro ⟨ws, hne, hws, rfl⟩
    simp only [isPath, segments_ofSegments hne hws, Bool.and_eq_true, decide_eq_true_eq,
      List.all_eq_true, beq_iff_eq]
    exact ⟨⟨hne, hws⟩, trivial⟩

/-- Segments that are words are joined to the absolute name. -/
theorem ofString_intercalate {ws : List String} (hne : ws ≠ [])
    (hws : ∀ w ∈ ws, Text.isWord w = true) : ofString ("::".intercalate ws) = ofSegments ws := by
  obtain ⟨w, ws, rfl⟩ := List.exists_cons_of_ne_nil hne
  obtain ⟨c, cs, hlist, hstart, -⟩ := Text.exists_of_isWord (hws w List.mem_cons_self)
  have hchars : ("::".intercalate (w :: ws)).toList =
      c :: (cs ++ (ws.map String.toList).flatMap ("::".toList ++ ·)) := by
    rw [String.toList_intercalate, List.map_cons, intercalate_cons, hlist, List.cons_append]
  have hcolon : c ≠ ':' := by
    rintro rfl
    cases hstart
  unfold ofString
  split
  · rename_i heq
    rw [hchars] at heq
    exact absurd (List.cons.inj heq).1 hcolon
  · rfl

end TypeName

/-- The token of a literal. -/
def Literal.token : Literal → TokenKind
  | integer value => .integer value
  | string text => .str text
  | symbol name => .symbol name
  | boolean true => .ident "true"
  | boolean false => .ident "false"

/-- The tokens of the key of a record field. -/
def Literal.keyTokens : Literal → List TokenKind
  | symbol name => if Text.isWord name then [.ident name, .colon] else [.symbol name, .fatArrow]
  | key => [key.token, .fatArrow]

/-! ## Parameters -/

namespace Parser.Param

/-- The type of a parameter. -/
def type : Param → Ty
  | required t => t
  | optional t => t
  | rest t => t
  | keyword _ t => t
  | optionalKeyword _ t => t
  | restKeywords t => t

/-- The same parameter with another type. -/
def withType : Param → Ty → Param
  | required _, t => required t
  | optional _, t => optional t
  | rest _, t => rest t
  | keyword name _, t => keyword name t
  | optionalKeyword name _, t => optionalKeyword name t
  | restKeywords _, t => restKeywords t

/-- The tokens before the type of a parameter. -/
def mark : Param → List TokenKind
  | required _ => []
  | optional _ => [.question]
  | rest _ => [.star]
  | keyword name _ => [.ident name, .colon]
  | optionalKeyword name _ => [.question, .ident name, .colon]
  | restKeywords _ => [.starStar]

/-- The text before the type of a parameter. -/
def markText : Param → String
  | required _ => ""
  | optional _ => "?"
  | rest _ => "*"
  | keyword name _ => name ++ ": "
  | optionalKeyword name _ => "?" ++ name ++ ": "
  | restKeywords _ => "**"

end Parser.Param

namespace Params

open TypeShape.Parser (Param)

/-- The parameters of a list from left to right. -/
def items (p : Params Ty) : List Param :=
  p.required.map .required ++ p.optional.map .optional ++ p.rest.toList.map .rest ++
    p.keywords.map (fun e => .keyword e.1 e.2) ++
    p.optionalKeywords.map (fun e => .optionalKeyword e.1 e.2) ++
    p.restKeywords.toList.map .restKeywords

/-- The types of the parameters are those of the list. -/
theorem map_type_items (p : Params Ty) : p.items.map Param.type = p.toList := by
  simp [items, toList, Function.comp_def, Param.type]

/-- Mapping a parameter list maps the types of its parameters. -/
theorem items_map (f : Ty → Ty) (p : Params Ty) :
    (p.map f).items = p.items.map fun x => x.withType (f x.type) := by
  cases hs : p.rest <;> cases ht : p.restKeywords <;>
    simp [items, map, hs, ht, Function.comp_def, Param.type, Param.withType]

/-- The type of a parameter is a type of the list. -/
theorem type_mem_of_mem_items {p : Params Ty} {x : Param} (h : x ∈ p.items) :
    x.type ∈ p.toList := by
  rw [← map_type_items]
  exact List.mem_map_of_mem h

end Params

/-! ## Callables -/

/-- The types of a block are those of its parameters, its result and its receiver. -/
theorem Block.mem_toList {b : Block Ty} {t : Ty} :
    t ∈ b.toList ↔ t ∈ b.arrow.params.toList ∨ t = b.arrow.result ∨ b.receiver = some t := by
  simp [Block.toList, Arrow.toList]

/-- The types of a callable are those of its parameters, its result and its block. -/
theorem Callable.mem_toList {c : Callable Ty} {t : Ty} :
    t ∈ c.toList ↔ t ∈ c.arrow.params.toList ∨ t = c.arrow.result ∨
      ∃ b, c.block = some b ∧ t ∈ b.toList := by
  cases hb : c.block <;> simp [Callable.toList, Arrow.toList, hb]

/-! ## Types -/

namespace Ty

section With

variable (toks : Ty → List TokenKind)

/-- The tokens of a parameter list. -/
def paramsTokens (p : Params Ty) : List TokenKind :=
  .lparen :: ([.comma].intercalate (p.items.map fun x => x.mark ++ toks x.type) ++ [.rparen])

/-- The tokens of the binding of the receiver. -/
def receiverTokens : Option Ty → List TokenKind
  | none => []
  | some t => [.lbracket, .ident "self", .colon] ++ toks t ++ [.rbracket]

/-- The tokens of a block. -/
def blockTokens (b : Block Ty) : List TokenKind :=
  (if b.optional then [.question] else []) ++ [.lbrace] ++ paramsTokens toks b.arrow.params ++
    receiverTokens toks b.receiver ++ [.arrow] ++ toks b.arrow.result ++ [.rbrace]

/-- The tokens of a callable. -/
def callableTokens (c : Callable Ty) : List TokenKind :=
  paramsTokens toks c.arrow.params ++ (c.block.map (blockTokens toks)).getD [] ++ [.arrow] ++
    toks c.arrow.result

/-- The tokens of a member, in parentheses when asked to. -/
def memberTokens (loose : Ty → Bool) (t : Ty) : List TokenKind :=
  if loose t then [.lparen] ++ toks t ++ [.rparen] else toks t

/-- The tokens of type arguments. -/
def argTokens : List Ty → List TokenKind
  | [] => []
  | args => [.lbracket] ++ [.comma].intercalate (args.map toks) ++ [.rbracket]

/-- The tokens of a type from those of its parts.  Predicates are never read. -/
def tokensWith : Ty → List TokenKind
  | slot s => [.ident s.word]
  | untyped => [.ident "untyped"]
  | top => [.ident "top"]
  | bot => [.ident "bot"]
  | void => [.ident "void"]
  | nil => [.ident "nil"]
  | bool => [.ident "bool"]
  | named _ name args => name.tokens ++ argTokens toks args
  | singleton name => [.ident "singleton", .lparen] ++ name.tokens ++ [.rparen]
  | union ms => [.pipe].intercalate (ms.map (memberTokens toks looseInUnion))
  | inter ms => [.amp].intercalate (ms.map (memberTokens toks looseInInter))
  | literal value => [value.token]
  | tuple items => [.lbracket] ++ [.comma].intercalate (items.map toks) ++ [.rbracket]
  | record fields =>
    [.lbrace] ++ [.comma].intercalate (fields.map fun f => f.1.keyTokens ++ toks f.2) ++ [.rbrace]
  | proc c => [.caret] ++ callableTokens toks c
  | var name => [.ident name]
  | logic _ => []

end With

section Congr

variable {toks toks' : Ty → List TokenKind}

/-- The tokens of a parameter list depend on those of its types only. -/
theorem paramsTokens_congr {p : Params Ty} (h : ∀ t ∈ p.toList, toks t = toks' t) :
    paramsTokens toks p = paramsTokens toks' p := by
  have hitems : p.items.map (fun x => x.mark ++ toks x.type) =
      p.items.map fun x => x.mark ++ toks' x.type :=
    List.map_congr_left fun x hx => by rw [h x.type (Params.type_mem_of_mem_items hx)]
  rw [paramsTokens, paramsTokens, hitems]

/-- So do those of a block. -/
theorem blockTokens_congr {b : Block Ty} (h : ∀ t ∈ b.toList, toks t = toks' t) :
    blockTokens toks b = blockTokens toks' b := by
  have hresult : toks b.arrow.result = toks' b.arrow.result :=
    h _ (Block.mem_toList.mpr (Or.inr (Or.inl rfl)))
  have hparams : paramsTokens toks b.arrow.params = paramsTokens toks' b.arrow.params :=
    paramsTokens_congr fun t ht => h t (Block.mem_toList.mpr (Or.inl ht))
  have hreceiver : receiverTokens toks b.receiver = receiverTokens toks' b.receiver := by
    cases hr : b.receiver with
    | none => rfl
    | some t =>
      rw [receiverTokens, receiverTokens, h t (Block.mem_toList.mpr (Or.inr (Or.inr hr)))]
  rw [blockTokens, blockTokens, hparams, hreceiver, hresult]

/-- So do those of a callable. -/
theorem callableTokens_congr {c : Callable Ty} (h : ∀ t ∈ c.toList, toks t = toks' t) :
    callableTokens toks c = callableTokens toks' c := by
  have hresult : toks c.arrow.result = toks' c.arrow.result :=
    h _ (Callable.mem_toList.mpr (Or.inr (Or.inl rfl)))
  have hparams : paramsTokens toks c.arrow.params = paramsTokens toks' c.arrow.params :=
    paramsTokens_congr fun t ht => h t (Callable.mem_toList.mpr (Or.inl ht))
  have hblock : c.block.map (blockTokens toks) = c.block.map (blockTokens toks') :=
    Option.map_congr fun b hb => blockTokens_congr fun t ht =>
      h t (Callable.mem_toList.mpr (Or.inr (Or.inr ⟨b, hb, ht⟩)))
  rw [callableTokens, callableTokens, hparams, hblock, hresult]

/-- Only the tokens of the parts matter. -/
theorem tokensWith_congr {t : Ty} (h : ∀ u ∈ t.parts, toks u = toks' u) :
    tokensWith toks t = tokensWith toks' t := by
  have hlist : ∀ ts : List Ty, (∀ u ∈ ts, toks u = toks' u) → ts.map toks = ts.map toks' :=
    fun _ => List.map_congr_left
  have hmembers : ∀ (ts : List Ty) (loose : Ty → Bool), (∀ u ∈ ts, toks u = toks' u) →
      ts.map (memberTokens toks loose) = ts.map (memberTokens toks' loose) :=
    fun _ loose hts => List.map_congr_left fun u hu => by rw [memberTokens, memberTokens, hts u hu]
  cases t with
  | named kind name args =>
    have hargs : argTokens toks args = argTokens toks' args := by
      cases args with
      | nil => rfl
      | cons a args => rw [argTokens, argTokens, hlist (a :: args) h] <;> simp
    rw [tokensWith, tokensWith, hargs]
  | union ms => rw [tokensWith, tokensWith, hmembers ms _ h]
  | inter ms => rw [tokensWith, tokensWith, hmembers ms _ h]
  | tuple items => rw [tokensWith, tokensWith, hlist items h]
  | record fields =>
    have hfields : fields.map (fun f => f.1.keyTokens ++ toks f.2) =
        fields.map fun f => f.1.keyTokens ++ toks' f.2 :=
      List.map_congr_left fun f hf => by rw [h f.2 (List.mem_map_of_mem hf)]
    rw [tokensWith, tokensWith, hfields]
  | proc c => rw [tokensWith, tokensWith, callableTokens_congr h]
  | _ => rfl

end Congr

section Within

variable (toks : Ty → List TokenKind) {u : Ty}

/-- A parameter list has no fewer tokens than each of its types. -/
theorem length_le_paramsTokens {p : Params Ty} (h : u ∈ p.toList) :
    (toks u).length ≤ (paramsTokens toks p).length := by
  rw [← Params.map_type_items] at h
  obtain ⟨x, hx, rfl⟩ := List.mem_map.mp h
  have hle := length_le_intercalate [.comma]
    (List.mem_map_of_mem (f := fun x => x.mark ++ toks x.type) hx)
  simp only [paramsTokens, List.length_cons, List.length_append] at hle ⊢
  omega

/-- Nor has a block. -/
theorem length_le_blockTokens {b : Block Ty} (h : u ∈ b.toList) :
    (toks u).length ≤ (blockTokens toks b).length := by
  simp only [blockTokens, List.length_append]
  rcases Block.mem_toList.mp h with h | rfl | h
  · have hle := length_le_paramsTokens toks h
    omega
  · omega
  · rw [h, receiverTokens, List.length_append, List.length_append]
    omega

/-- Nor has a callable. -/
theorem length_le_callableTokens {c : Callable Ty} (h : u ∈ c.toList) :
    (toks u).length ≤ (callableTokens toks c).length := by
  simp only [callableTokens, List.length_append]
  rcases Callable.mem_toList.mp h with h | rfl | ⟨b, hb, h⟩
  · have hle := length_le_paramsTokens toks h
    omega
  · omega
  · have hle := length_le_blockTokens toks h
    rw [hb, Option.map_some, Option.getD_some]
    omega

/-- A type that is no set of members has a token before those of each part. -/
theorem length_lt_tokensWith {t : Ty} (hset : t.isSet = false) (h : u ∈ t.parts) :
    (toks u).length < (tokensWith toks t).length := by
  have hlist : ∀ ts : List Ty, u ∈ ts →
      (toks u).length ≤ ([TokenKind.comma].intercalate (ts.map toks)).length :=
    fun _ hu => length_le_intercalate [TokenKind.comma] (List.mem_map_of_mem hu)
  cases t with
  | named kind name args =>
    cases args with
    | nil => cases h
    | cons a args =>
      have hle := hlist (a :: args) h
      simp only [tokensWith, argTokens, List.length_append, List.length_singleton]
      omega
  | tuple items =>
    have hle := hlist items h
    simp only [tokensWith, List.length_append, List.length_singleton]
    omega
  | record fields =>
    obtain ⟨f, hf, rfl⟩ := List.mem_map.mp h
    have hle := length_le_intercalate [.comma]
      (List.mem_map_of_mem (f := fun f => f.1.keyTokens ++ toks f.2) hf)
    simp only [tokensWith, List.length_append, List.length_singleton] at hle ⊢
    omega
  | proc c =>
    have hle := length_le_callableTokens toks h
    simp only [tokensWith, List.length_append, List.length_singleton]
    omega
  | union ms => cases hset
  | inter ms => cases hset
  | _ => cases h

end Within

/-- The tokens of a type. -/
def tokens (t : Ty) : List TokenKind :=
  tokensWith (fun u => if u.weight < t.weight then tokens u else []) t
termination_by t.weight

/-- The tokens of a type are made of those of its parts. -/
theorem tokens_eq (t : Ty) : t.tokens = tokensWith tokens t := by
  rw [tokens]
  exact tokensWith_congr fun u hu => if_pos (weight_lt_of_mem_parts hu)

end Ty
end TypeShape
