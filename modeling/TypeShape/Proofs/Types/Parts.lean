import Mathlib.Data.List.Forall2
import Mathlib.Tactic.Common
import TypeShape.Ty.Free
import TypeShape.Ty.Weight

/-!
# The parts of a type

A type holds further types: arguments, members, items, field types, and the types of a callable.
They are its parts.  Most facts about types are proved from the parts to the whole.

Main results:

- Theorem `Callable.rel_iff`: two callables are related type by type when they have one frame and
  their lists of types are related.
- Theorem `Ty.inductionOnParts`: what passes from the parts to the whole holds of all types.
-/

namespace TypeShape

/-! ## Related lists -/

/-- Lists in two pieces, the first of equal length, are related piece by piece. -/
theorem forall₂_append_iff {α β : Type} {R : α → β → Prop} {as cs : List α} {bs ds : List β}
    (h : as.length = bs.length) :
    List.Forall₂ R (as ++ cs) (bs ++ ds) ↔ List.Forall₂ R as bs ∧ List.Forall₂ R cs ds := by
  induction as generalizing bs with
  | nil =>
    have hbs : bs = [] := List.length_eq_zero_iff.mp h.symm
    subst hbs
    simp
  | cons a as ih =>
    cases bs with
    | nil => simp at h
    | cons b bs =>
      have hlen : as.length = bs.length := by simpa using h
      simp only [List.cons_append, List.forall₂_cons, ih hlen]
      tauto

/-- Relations of lists element by element compose. -/
theorem forall₂_trans {α β γ : Type} {R : α → β → Prop} {S : β → γ → Prop} {U : α → γ → Prop}
    (hRS : ∀ a b c, R a b → S b c → U a c) {as : List α} {bs : List β} {cs : List γ}
    (h : List.Forall₂ R as bs) (h' : List.Forall₂ S bs cs) : List.Forall₂ U as cs := by
  induction h generalizing cs with
  | nil =>
    cases h'
    exact .nil
  | cons hab _ ih =>
    cases h' with
    | cons hbc hrest => exact .cons (hRS _ _ _ hab hbc) (ih hrest)

/-- Related lists have related elements at every position. -/
theorem exists_of_forall₂ {α β : Type} {R : α → β → Prop} {as : List α} {bs : List β}
    (h : List.Forall₂ R as bs) {i : Nat} {a : α} (ha : as[i]? = some a) :
    ∃ b, bs[i]? = some b ∧ R a b := by
  obtain ⟨hi, rfl⟩ := List.getElem?_eq_some_iff.mp ha
  have hi' : i < bs.length := h.length_eq ▸ hi
  exact ⟨_, List.getElem?_eq_getElem hi', h.get hi hi'⟩

/-- Optional values are related when both are missing or both are there and related. -/
theorem forall₂_toList_iff {α β : Type} {R : α → β → Prop} {a : Option α} {b : Option β} :
    List.Forall₂ R a.toList b.toList ↔ Option.Rel R a b := by
  cases a <;> cases b <;> simp [Option.rel_some_some]

/-- Entries are related when they have the same keys and related values. -/
def EntriesRel {κ α β : Type} (R : α → β → Prop) (as : List (κ × α)) (bs : List (κ × β)) : Prop :=
  List.Forall₂ (fun a b => a.1 = b.1 ∧ R a.2 b.2) as bs

/-- Nothing is related to no entries but none. -/
@[simp]
theorem entriesRel_nil {κ α β : Type} {R : α → β → Prop} {bs : List (κ × β)} :
    EntriesRel R ([] : List (κ × α)) bs ↔ bs = [] := by
  simp [EntriesRel]

/-- Entries are related one by one, under the same keys. -/
@[simp]
theorem entriesRel_cons {κ α β : Type} {R : α → β → Prop} {a : κ × α} {as : List (κ × α)}
    {b : κ × β} {bs : List (κ × β)} :
    EntriesRel R (a :: as) (b :: bs) ↔ (a.1 = b.1 ∧ R a.2 b.2) ∧ EntriesRel R as bs := by
  simp [EntriesRel]

/-- Related entries have the same keys and related values. -/
theorem entriesRel_iff {κ α β : Type} {R : α → β → Prop} {as : List (κ × α)}
    {bs : List (κ × β)} :
    EntriesRel R as bs ↔
      as.map (·.1) = bs.map (·.1) ∧ List.Forall₂ R (as.map (·.2)) (bs.map (·.2)) := by
  induction as generalizing bs with
  | nil => cases bs <;> simp
  | cons a as ih =>
    cases bs with
    | nil => simp [EntriesRel]
    | cons b bs =>
      rw [entriesRel_cons, ih]
      simp only [List.map_cons, List.cons.injEq, List.forall₂_cons]
      tauto

/-- Entries that are equal one by one are equal. -/
theorem entriesRel_eq {κ α : Type} {as bs : List (κ × α)} : EntriesRel Eq as bs ↔ as = bs := by
  have heq : (fun a b : κ × α => a.1 = b.1 ∧ a.2 = b.2) = Eq := by
    funext a b
    simp [Prod.ext_iff]
  rw [EntriesRel, heq, List.forall₂_eq_eq_eq]

/-- Values that are related by equality are equal. -/
theorem optionRel_eq {α : Type} {a b : Option α} : Option.Rel Eq a b ↔ a = b := by
  cases a <;> cases b <;> simp [Option.rel_some_some]

/-- A value is related to one on the other side. -/
theorem exists_of_optionRel {α β : Type} {R : α → β → Prop} {a : Option α} {b : Option β}
    (h : Option.Rel R a b) {x : α} (hx : a = some x) : ∃ y, b = some y ∧ R x y := by
  subst hx
  cases h with
  | some h => exact ⟨_, rfl, h⟩

/-- Values that are related both ways. -/
theorem optionRel_symm {α β : Type} {R : α → β → Prop} {S : β → α → Prop} {a : Option α}
    {b : Option β} (hR : ∀ x y, R x y → S y x) (h : Option.Rel R a b) : Option.Rel S b a := by
  cases h with
  | none => exact .none
  | some h => exact .some (hR _ _ h)

/-- Values that are related one after another. -/
theorem optionRel_trans {α β γ : Type} {R : α → β → Prop} {S : β → γ → Prop} {U : α → γ → Prop}
    {a : Option α} {b : Option β} {c : Option γ} (hRS : ∀ x y z, R x y → S y z → U x z)
    (h : Option.Rel R a b) (h' : Option.Rel S b c) : Option.Rel U a c := by
  cases h with
  | none =>
    cases h'
    exact .none
  | some h =>
    cases h' with
    | some h' => exact .some (hRS _ _ _ h h')

/-- Related values are mapped to related ones. -/
theorem optionRel_map {α β γ δ : Type} {R : α → β → Prop} {S : γ → δ → Prop} {a : Option α}
    {b : Option β} {f : α → γ} {g : β → δ} (h : Option.Rel R a b)
    (hfg : ∀ x y, R x y → S (f x) (g y)) : Option.Rel S (a.map f) (b.map g) := by
  cases h with
  | none => exact .none
  | some h => exact .some (hfg _ _ h)

/-- A relation may be replaced by one that it implies. -/
theorem optionRel_imp {α β : Type} {R S : α → β → Prop} {a : Option α} {b : Option β}
    (h : Option.Rel R a b) (hRS : ∀ x y, R x y → S x y) : Option.Rel S a b := by
  cases h with
  | none => exact .none
  | some h => exact .some (hRS _ _ h)

/-- Continuing from related values with related steps. -/
theorem optionRel_bind {α β γ δ : Type} {R : α → β → Prop} {S : γ → δ → Prop} {a : Option α}
    {b : Option β} {f : α → Option γ} {g : β → Option δ} (h : Option.Rel R a b)
    (hfg : ∀ a b, R a b → Option.Rel S (f a) (g b)) : Option.Rel S (a.bind f) (b.bind g) := by
  cases h with
  | none => exact .none
  | some h => exact hfg _ _ h

/-! ## Callables and their types -/

namespace Params

variable {α β : Type}

/-- The types of a mapped list are the mapped types. -/
@[simp]
theorem toList_map (f : α → β) (p : Params α) : (p.map f).toList = p.toList.map f := by
  simp [toList, map, Option.toList_map, Function.comp_def]

/-- Parameter lists that agree in layout and are related type by type. -/
structure Rel (R : α → β → Prop) (p : Params α) (q : Params β) : Prop where
  required : List.Forall₂ R p.required q.required
  optional : List.Forall₂ R p.optional q.optional
  rest : Option.Rel R p.rest q.rest
  keywords : EntriesRel R p.keywords q.keywords
  optionalKeywords : EntriesRel R p.optionalKeywords q.optionalKeywords
  restKeywords : Option.Rel R p.restKeywords q.restKeywords

/-- Parameter lists are related if they have one layout and related types. -/
theorem rel_iff {R : α → β → Prop} {p : Params α} {q : Params β} :
    p.Rel R q ↔ p.layout = q.layout ∧ List.Forall₂ R p.toList q.toList := by
  obtain ⟨r, o, s, k, w, t⟩ := p
  obtain ⟨r', o', s', k', w', t'⟩ := q
  constructor
  · intro h
    obtain ⟨hk, hk'⟩ := entriesRel_iff.mp h.keywords
    obtain ⟨hw, hw'⟩ := entriesRel_iff.mp h.optionalKeywords
    have hs := forall₂_toList_iff.mpr h.rest
    have ht := forall₂_toList_iff.mpr h.restKeywords
    refine ⟨?_, ?_⟩
    · have hs' : s.isSome = s'.isSome := by cases h.rest <;> rfl
      have ht' : t.isSome = t'.isSome := by cases h.restKeywords <;> rfl
      simp only [layout, h.required.length_eq, h.optional.length_eq, hs', ht', hk, hw]
    · exact List.rel_append (List.rel_append (List.rel_append (List.rel_append
        (List.rel_append h.required h.optional) hs) hk') hw') ht
  · rintro ⟨hl, hf⟩
    simp only [layout, Layout.mk.injEq] at hl
    obtain ⟨hr, ho, hs, hk, hw, ht⟩ := hl
    have hs' : s.toList.length = s'.toList.length := by cases s <;> cases s' <;> simp_all
    have hk' := congrArg List.length hk
    have hw' := congrArg List.length hw
    simp only [List.length_map] at hk' hw'
    simp only [toList] at hf
    rw [forall₂_append_iff (by simp [hr, ho, hs', hk', hw']),
      forall₂_append_iff (by simp [hr, ho, hs', hk']), forall₂_append_iff (by simp [hr, ho, hs']),
      forall₂_append_iff (by simp [hr, ho]), forall₂_append_iff hr] at hf
    obtain ⟨⟨⟨⟨⟨fr, fo⟩, fs⟩, fk⟩, fw⟩, ft⟩ := hf
    exact ⟨fr, fo, forall₂_toList_iff.mp fs, entriesRel_iff.mpr ⟨hk, fk⟩,
      entriesRel_iff.mpr ⟨hw, fw⟩, forall₂_toList_iff.mp ft⟩

/-- Parameter lists are related by equality only to themselves. -/
theorem rel_eq {p q : Params α} : p.Rel Eq q ↔ p = q := by
  constructor
  · rintro ⟨hr, ho, hs, hk, hw, ht⟩
    rw [List.forall₂_eq_eq_eq] at hr ho
    obtain ⟨r, o, s, k, w, t⟩ := p
    simp only at hr ho hs hk hw ht
    rw [hr, ho, optionRel_eq.mp hs, entriesRel_eq.mp hk, entriesRel_eq.mp hw, optionRel_eq.mp ht]
  · rintro rfl
    rw [rel_iff, List.forall₂_eq_eq_eq]
    exact ⟨rfl, rfl⟩

/-- The layout tells how many types there are. -/
theorem length_toList {p : Params α} {q : Params β} (h : p.layout = q.layout) :
    p.toList.length = q.toList.length := by
  obtain ⟨r, o, s, k, w, t⟩ := p
  obtain ⟨r', o', s', k', w', t'⟩ := q
  simp only [layout, Layout.mk.injEq] at h
  obtain ⟨hr, ho, hs, hk, hw, ht⟩ := h
  have hk' := congrArg List.length hk
  have hw' := congrArg List.length hw
  simp only [List.length_map] at hk' hw'
  simp only [toList, List.length_append, List.length_map, hr, ho, hk', hw', Option.length_toList,
    hs, ht]

end Params

namespace Arrow

variable {α β : Type}

/-- Arrows whose parameters and results are related. -/
def Rel (R : α → β → Prop) (a : Arrow α) (b : Arrow β) : Prop :=
  a.params.Rel R b.params ∧ R a.result b.result

/-- Arrows of one layout have as many types. -/
theorem length_toList {a : Arrow α} {b : Arrow β} (h : a.params.layout = b.params.layout) :
    a.toList.length = b.toList.length := by
  simp [toList, Params.length_toList h]

/-- Arrows are related if they have one layout and related types. -/
theorem rel_iff {R : α → β → Prop} {a : Arrow α} {b : Arrow β} :
    a.Rel R b ↔ a.params.layout = b.params.layout ∧ List.Forall₂ R a.toList b.toList := by
  unfold Rel toList
  rw [Params.rel_iff]
  constructor
  · rintro ⟨⟨hl, hp⟩, hr⟩
    exact ⟨hl, List.rel_append hp (.cons hr .nil)⟩
  · rintro ⟨hl, hf⟩
    rw [forall₂_append_iff (Params.length_toList hl)] at hf
    exact ⟨⟨hl, hf.1⟩, by simpa using hf.2⟩

/-- Arrows are related by equality only to themselves. -/
theorem rel_eq {a b : Arrow α} : a.Rel Eq b ↔ a = b := by
  obtain ⟨p, r⟩ := a
  obtain ⟨q, s⟩ := b
  simp [Rel, Params.rel_eq]

end Arrow

namespace Block

variable {α β : Type}

/-- Blocks of one kind whose arrows and receivers are related. -/
def Rel (R : α → β → Prop) (b : Block α) (d : Block β) : Prop :=
  b.arrow.Rel R d.arrow ∧ b.optional = d.optional ∧ Option.Rel R b.receiver d.receiver

/-- A block without its types. -/
def frame (b : Block α) : Layout × Bool × Bool :=
  (b.arrow.params.layout, b.optional, b.receiver.isSome)

/-- Blocks are related if they have one frame and related types. -/
theorem rel_iff {R : α → β → Prop} {b : Block α} {d : Block β} :
    b.Rel R d ↔ b.frame = d.frame ∧ List.Forall₂ R b.toList d.toList := by
  obtain ⟨a, o, r⟩ := b
  obtain ⟨a', o', r'⟩ := d
  simp only [Rel, frame, toList, Prod.mk.injEq]
  rw [Arrow.rel_iff, ← forall₂_toList_iff]
  constructor
  · rintro ⟨⟨hl, ha⟩, ho, hr⟩
    have hsome : r.isSome = r'.isSome := by
      cases forall₂_toList_iff.mp hr <;> rfl
    exact ⟨⟨hl, ho, hsome⟩, List.rel_append ha hr⟩
  · rintro ⟨⟨hl, ho, hs⟩, hf⟩
    rw [forall₂_append_iff (Arrow.length_toList hl)] at hf
    exact ⟨⟨hl, hf.1⟩, ho, hf.2⟩

/-- Blocks are related by equality only to themselves. -/
theorem rel_eq {b d : Block α} : b.Rel Eq d ↔ b = d := by
  obtain ⟨a, o, r⟩ := b
  obtain ⟨a', o', r'⟩ := d
  simp [Rel, Arrow.rel_eq, optionRel_eq]

end Block

namespace Callable

variable {α β : Type}

/-- The types of a mapped callable are the mapped types. -/
@[simp]
theorem toList_map (f : α → β) (c : Callable α) : (c.map f).toList = c.toList.map f := by
  obtain ⟨⟨p, r⟩, b⟩ := c
  cases b <;> simp [toList, map, Arrow.toList, Arrow.map, Block.toList, Block.map,
    Option.toList_map]

/-- Callables whose arrows and blocks are related. -/
def Rel (R : α → β → Prop) (c : Callable α) (d : Callable β) : Prop :=
  c.arrow.Rel R d.arrow ∧ Option.Rel (Block.Rel R) c.block d.block

/-- A callable without its types. -/
def frame (c : Callable α) : Layout × Option (Layout × Bool × Bool) :=
  (c.arrow.params.layout, c.block.map Block.frame)

/-- Mapping the types of a callable keeps its frame. -/
@[simp]
theorem frame_map (f : α → β) (c : Callable α) : (c.map f).frame = c.frame := by
  obtain ⟨⟨p, r⟩, b⟩ := c
  cases b <;> simp [frame, map, Arrow.map, Block.map, Block.frame]

/-- Callables are related if they have one frame and related types. -/
theorem rel_iff {R : α → β → Prop} {c : Callable α} {d : Callable β} :
    c.Rel R d ↔ c.frame = d.frame ∧ List.Forall₂ R c.toList d.toList := by
  obtain ⟨a, b⟩ := c
  obtain ⟨a', b'⟩ := d
  simp only [Rel, frame, toList, Prod.mk.injEq]
  rw [Arrow.rel_iff]
  cases b with
  | none => cases b' <;> simp
  | some b =>
    cases b' with
    | none => simp
    | some b' =>
      simp only [Option.rel_some_some, Block.rel_iff, Option.map_some, Option.some.injEq,
        Option.getD_some]
      constructor
      · rintro ⟨⟨hl, ha⟩, hf, hb⟩
        exact ⟨⟨hl, hf⟩, List.rel_append ha hb⟩
      · rintro ⟨⟨hl, hf⟩, h⟩
        rw [forall₂_append_iff (Arrow.length_toList hl)] at h
        exact ⟨⟨hl, h.1⟩, hf, h.2⟩

/-- A callable is its frame and its types. -/
theorem eq_iff {c d : Callable α} : c = d ↔ c.frame = d.frame ∧ c.toList = d.toList := by
  have hrel : c.Rel Eq d ↔ c.frame = d.frame ∧ c.toList = d.toList := by
    rw [rel_iff, List.forall₂_eq_eq_eq]
  rw [← hrel]
  obtain ⟨a, b⟩ := c
  obtain ⟨a', b'⟩ := d
  simp only [Rel, Arrow.rel_eq, mk.injEq]
  cases b <;> cases b' <;> simp [Option.rel_some_some, Block.rel_eq]

/-- Mapping a callable depends on the images of its types only. -/
theorem map_congr {f g : α → β} {c : Callable α} (h : ∀ a ∈ c.toList, f a = g a) :
    c.map f = c.map g := by
  rw [eq_iff, frame_map, frame_map, toList_map, toList_map]
  exact ⟨rfl, List.map_congr_left h⟩

/-- Mapping twice is mapping once. -/
theorem map_map {γ : Type} (f : α → β) (g : β → γ) (c : Callable α) :
    (c.map f).map g = c.map (g ∘ f) := by
  simp only [eq_iff, frame_map, toList_map, List.map_map, and_self]

/-- Mapping by a function that changes no type of a callable changes nothing. -/
theorem map_eq_self {f : α → α} {c : Callable α} (h : ∀ a ∈ c.toList, f a = a) : c.map f = c := by
  rw [eq_iff, frame_map, toList_map]
  exact ⟨rfl, (List.map_congr_left h).trans (List.map_id' _)⟩

end Callable

/-! ## Parts -/

namespace Ty

/-- The types that a type directly holds, from left to right. -/
def parts : Ty → List Ty
  | named _ _ args => args
  | union ms => ms
  | inter ms => ms
  | tuple items => items
  | record fields => fields.map (·.2)
  | proc c => c.toList
  | _ => []

/-- A type that may be missing weighs as a list of one or none. -/
theorem weightOption_eq (t : Option Ty) : weightOption t = weightList t.toList := by
  cases t <;> simp [weightOption, weightList]

/-- A parameter list weighs as its types do. -/
theorem weightParams_eq (p : Params Ty) : weightParams p = weightList p.toList := by
  cases p
  simp only [weightParams, Params.toList, weightList_append, weightKeywords_eq, weightOption_eq]

/-- So does a block. -/
theorem weightBlock_eq (b : Block Ty) : weightBlock b = weightList b.toList := by
  obtain ⟨⟨p, t⟩, o, r⟩ := b
  simp [weightBlock, weightArrow, Block.toList, Arrow.toList, weightList_append, weightList,
    weightParams_eq, weightOption_eq, Nat.add_assoc]

/-- So does a callable. -/
theorem weightCallable_eq (c : Callable Ty) : weightCallable c = weightList c.toList := by
  obtain ⟨⟨p, t⟩, b⟩ := c
  cases b <;> simp [weightCallable, weightArrow, weightBlockOption, Callable.toList, Arrow.toList,
    weightList_append, weightList, weightParams_eq, weightBlock_eq, Nat.add_assoc]

/-- A type weighs one more than its parts. -/
theorem weight_eq (t : Ty) : t.weight = weightList t.parts + 1 := by
  cases t <;> simp [weight, parts, weightList, weightFields_eq, weightCallable_eq]

/-- A type weighs no more than a list that it is in. -/
theorem weight_le_weightList {t : Ty} {ts : List Ty} (h : t ∈ ts) : t.weight ≤ weightList ts := by
  induction ts with
  | nil => simp at h
  | cons u us ih =>
    simp only [weightList]
    rcases List.mem_cons.mp h with rfl | h
    · omega
    · have := ih h
      omega

/-- A part weighs less than the type. -/
theorem weight_lt_of_mem_parts {t u : Ty} (h : u ∈ t.parts) : u.weight < t.weight := by
  have hle := weight_le_weightList h
  rw [weight_eq t]
  omega

/-- What passes from the parts of a type to the type holds of all types. -/
theorem inductionOnParts {motive : Ty → Prop}
    (step : ∀ t, (∀ u ∈ t.parts, motive u) → motive t) (t : Ty) : motive t := by
  induction hw : t.weight using Nat.strongRecOn generalizing t with
  | ind n ih =>
    apply step t
    intro u hu
    have hlt := weight_lt_of_mem_parts hu
    exact ih u.weight (by omega) u rfl

/-- What occurs in a type is the type itself, where it is a placeholder or variable, or occurs in a
part. -/
theorem mem_occurrences {t : Ty} {x : FreeVar} :
    x ∈ t.occurrences ↔
      (∃ s, t = slot s ∧ x = .slot s) ∨ (∃ y, t = var y ∧ x = .var y) ∨
        ∃ u ∈ t.parts, x ∈ u.occurrences := by
  cases t <;> simp [occurrences, parts, occurrencesList_eq_flatMap, occurrencesFields_eq_flatMap,
    occurrencesCallable_eq_flatMap]

end Ty
end TypeShape
