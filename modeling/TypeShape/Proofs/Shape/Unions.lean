import TypeShape.Proofs.Shape.Open
import TypeShape.Proofs.Types.Merging

/-!
# Methods of a union

A method of a union stands for one overload of each member.  The overloads of the members are merged
one member after the other, so what holds of the whole is an invariant of that fold.

Main results:

- Theorem `Shape.Merged.commonOverloads`: what one more member keeps.
- Theorem `Shape.Merged.foldlM`: what all members keep.
- Theorem `Shape.isSome_commonEntry?_iff`: when the members have an entry in common.
- Theorem `Shape.ofUnion_merges_exactly`: the entries of the shape of a union.
-/

namespace TypeShape

namespace Shape

/-! ## Overloads in common -/

section Common

variable {left right merged : List Overload}

theorem mem_foldl_of_mem {os : List Overload} {o : Overload} (h : o ∈ merged) :
    o ∈ os.foldl pushOverload merged := by
  induction os generalizing merged with
  | nil => exact h
  | cons a os ih =>
    refine ih ?_
    unfold pushOverload
    split
    · exact h
    · exact List.mem_append_left _ h

/-- Of every overload that is pushed an equal one is kept. -/
theorem exists_mem_foldl_pushOverload (merged : List Overload) {os : List Overload} {o : Overload}
    (h : o ∈ os) : ∃ o' ∈ os.foldl pushOverload merged, (o' == o) = true := by
  induction os generalizing merged with
  | nil => cases h
  | cons a os ih =>
    rcases List.mem_cons.mp h with rfl | h
    · rw [List.foldl_cons]
      unfold pushOverload
      split
      · rename_i hany
        obtain ⟨o', ho', hbeq⟩ := List.any_eq_true.mp hany
        exact ⟨o', mem_foldl_of_mem ho', hbeq⟩
      · exact ⟨o, mem_foldl_of_mem (by simp), Overload.beq_refl o⟩
    · exact ih _ h

theorem exists_of_sameOverloads (h : sameOverloads left right = true) {a : Overload}
    (ha : a ∈ left) : ∃ b ∈ right, (a == b) = true := by
  have hbeq : (left == right) = true := (Bool.and_eq_true_iff.mp h).1
  clear h
  induction left generalizing right with
  | nil => cases ha
  | cons a' left ih =>
    cases right with
    | nil => cases hbeq
    | cons b right =>
      rw [List.cons_beq_cons, Bool.and_eq_true] at hbeq
      rcases List.mem_cons.mp ha with rfl | ha
      · exact ⟨b, List.mem_cons_self, hbeq.1⟩
      · obtain ⟨b', hb', hab'⟩ := ih ha hbeq.2
        exact ⟨b', List.mem_cons_of_mem b hb', hab'⟩

variable (hl : ∀ a ∈ left, a.Normal) (hr : ∀ b ∈ right, b.Normal)

include hl hr

/-- Every overload in common is in normal form and stands for one on each side. -/
theorem joins_of_commonOverloads? (h : commonOverloads? left right = some merged) {o : Overload}
    (ho : o ∈ merged) : o.Normal ∧ ∃ a ∈ left, ∃ b ∈ right, o.Joins [a, b] := by
  unfold commonOverloads? at h
  split at h
  · rename_i hsame
    obtain rfl := Option.some.inj h
    obtain ⟨b, hb, hbeq⟩ := exists_of_sameOverloads hsame ho
    exact ⟨hl o ho, o, ho, b, hb, .of_beq (hl o ho) (hr b hb) hbeq fun x hx => Or.inl hx⟩
  · split at h
    · cases h
    · obtain rfl := Option.some.inj h
      obtain ⟨a, ha, b, hb, hab⟩ := exists_of_mem_crossOverloads ho
      exact ⟨Overload.normal_merge? (hl a ha) (hr b hb) hab, a, ha, b, hb,
        Overload.joins_of_merge? (hl a ha) (hr b hb) hab⟩

/-- Sides with overloads that are alike have some in common. -/
theorem exists_commonOverloads? {a b : Overload} (ha : a ∈ left) (hb : b ∈ right)
    (hab : a.Alike b) :
    ∃ merged, commonOverloads? left right = some merged ∧ ∃ o ∈ merged, o.Alike a := by
  unfold commonOverloads?
  split
  · exact ⟨left, rfl, a, ha, .refl a⟩
  · obtain ⟨c, hc⟩ := Overload.exists_merge? hab
    have hmem : c ∈ left.flatMap fun a => right.filterMap fun b => a.merge? b :=
      List.mem_flatMap.mpr ⟨a, ha, List.mem_filterMap.mpr ⟨b, hb, hc⟩⟩
    obtain ⟨o, ho, hoc⟩ := exists_mem_foldl_pushOverload [] hmem
    have hcross : o ∈ crossOverloads left right := ho
    obtain ⟨a', ha', b', hb', ho'⟩ := exists_of_mem_crossOverloads hcross
    have hcn := Overload.normal_merge? (hl a ha) (hr b hb) hc
    have hon := Overload.normal_merge? (hl a' ha') (hr b' hb') ho'
    have hac := (Overload.joins_of_merge? (hl a ha) (hr b hb) hc).alike a (by simp)
    have hca := hac.symm (hl a ha).wellFormed hcn.wellFormed
    refine ⟨crossOverloads left right, ?_, o, hcross,
      .trans hon.wellFormed hcn.wellFormed (hl a ha).wellFormed (.of_beq hoc) hca⟩
    cases hlist : crossOverloads left right with
    | nil =>
      rw [hlist] at hcross
      cases hcross
    | cons => rfl

end Common

/-- Only sides without overloads have the empty list in common. -/
theorem eq_nil_of_commonOverloads? {left right : List Overload}
    (h : commonOverloads? left right = some []) : left = [] ∧ right = [] := by
  unfold commonOverloads? at h
  split at h
  · rename_i hsame
    obtain rfl := Option.some.inj h
    have hbeq : (([] : List Overload) == right) = true := (Bool.and_eq_true_iff.mp hsame).1
    cases right with
    | nil => exact ⟨rfl, rfl⟩
    | cons => cases hbeq
  · split at h
    · cases h
    · rename_i hne
      exact absurd (Option.some.inj h) hne

/-! ## Entries in common -/

/-- One overload of each entry, any two of them alike. -/
structure Choice (es : List Entry) (os : List Overload) : Prop where
  mem : List.Forall₂ (fun e a => a ∈ e.overloads) es os
  alike : ∀ a ∈ os, ∀ b ∈ os, a.Alike b

/-- All overloads of an entry are in normal form. -/
def NormalEntry (e : Entry) : Prop :=
  ∀ a ∈ e.overloads, a.Normal

/-- Every overload is in normal form and stands for one overload of each entry. -/
def Merged (es : List Entry) (merged : List Overload) : Prop :=
  ∀ o ∈ merged, o.Normal ∧ ∃ os, List.Forall₂ (fun e a => a ∈ e.overloads) es os ∧ o.Joins os

theorem normal_of_forall₂ {es : List Entry} (hes : ∀ e ∈ es, NormalEntry e) {os : List Overload}
    (h : List.Forall₂ (fun e a => a ∈ e.overloads) es os) : ∀ a ∈ os, a.Normal := by
  induction h with
  | nil => simp
  | cons hmem _ ih =>
    obtain ⟨he, hes⟩ := List.forall_mem_cons.mp hes
    exact List.forall_mem_cons.mpr ⟨he _ hmem, ih hes⟩

namespace Merged

variable {es rs : List Entry} {e : Entry} {left merged : List Overload}

theorem single (he : NormalEntry e) : Merged [e] e.overloads :=
  fun o ho => ⟨he o ho, [o], .cons ho .nil, .self (he o ho)⟩

/-- What one more entry keeps. -/
theorem commonOverloads (hes : ∀ e ∈ es, NormalEntry e) (he : NormalEntry e) (h : Merged es left)
    (hm : commonOverloads? left e.overloads = some merged) : Merged (es ++ [e]) merged := by
  intro o ho
  obtain ⟨hon, a, ha, b, hb, hjoins⟩ := joins_of_commonOverloads? (fun a ha => (h a ha).1) he hm ho
  obtain ⟨han, os, hos, hjoins'⟩ := h a ha
  refine ⟨hon, os ++ [b], List.rel_append hos (.cons hb .nil), ?_⟩
  exact hjoins'.append (normal_of_forall₂ hes hos) han (he b hb) hon hjoins

/-- What all further entries keep. -/
theorem foldlM (hes : ∀ e ∈ es, NormalEntry e) (hrs : ∀ e ∈ rs, NormalEntry e)
    (h : Merged es left)
    (hm : rs.foldlM (fun merged e => commonOverloads? merged e.overloads) left = some merged) :
    Merged (es ++ rs) merged := by
  induction rs generalizing es left with
  | nil =>
    obtain rfl := Option.some.inj hm
    rwa [List.append_nil]
  | cons e rs ih =>
    obtain ⟨he, hrs⟩ := List.forall_mem_cons.mp hrs
    rw [List.foldlM_cons] at hm
    obtain ⟨next, hnext, hm⟩ := Option.bind_eq_some_iff.mp hm
    have hrest := ih (by simpa [or_imp, forall_and] using ⟨hes, he⟩) hrs
      (h.commonOverloads hes he hnext) hm
    rwa [List.append_assoc] at hrest

theorem exists_choice (hes : ∀ e ∈ es, NormalEntry e) (h : Merged es merged) {o : Overload}
    (ho : o ∈ merged) : ∃ os, Choice es os ∧ o.Joins os := by
  obtain ⟨hon, os, hos, hjoins⟩ := h o ho
  have hnormal := normal_of_forall₂ hes hos
  refine ⟨os, ⟨hos, fun a ha b hb => ?_⟩, hjoins⟩
  have hwf : ∀ a ∈ os, a.WellFormed := fun a ha => (hnormal a ha).wellFormed
  have hob := (hjoins.alike b hb).symm (hwf b hb) hon.wellFormed
  exact (hjoins.alike a ha).trans (hwf a ha) hon.wellFormed (hwf b hb) hob

end Merged

section Fold

variable {rs : List Entry} {left : List Overload}

/-- As long as every entry has an overload like a given one, something is in common. -/
theorem exists_foldlM {f : Overload} (hf : f.Normal) (hl : ∀ a ∈ left, a.Normal)
    (hrs : ∀ e ∈ rs, NormalEntry e) (hleft : ∃ a ∈ left, a.Alike f)
    (hright : ∀ e ∈ rs, ∃ a ∈ e.overloads, a.Alike f) :
    ∃ merged, rs.foldlM (fun merged e => commonOverloads? merged e.overloads) left =
      some merged := by
  induction rs generalizing left with
  | nil => exact ⟨left, rfl⟩
  | cons e rs ih =>
    obtain ⟨he, hrs⟩ := List.forall_mem_cons.mp hrs
    obtain ⟨⟨b, hb, hbf⟩, hright⟩ := List.forall_mem_cons.mp hright
    obtain ⟨a, ha, haf⟩ := hleft
    have hfb := hbf.symm (he b hb).wellFormed hf.wellFormed
    have hab := haf.trans (hl a ha).wellFormed hf.wellFormed (he b hb).wellFormed hfb
    obtain ⟨next, hnext, o, ho, hoa⟩ := exists_commonOverloads? hl he ha hb hab
    have hnormal : ∀ a ∈ next, a.Normal :=
      fun a ha => (joins_of_commonOverloads? hl he hnext ha).1
    have hof := hoa.trans (hnormal o ho).wellFormed (hl a ha).wellFormed hf.wellFormed haf
    obtain ⟨merged, hmerged⟩ := ih hnormal hrs ⟨o, ho, hof⟩ hright
    refine ⟨merged, ?_⟩
    rw [List.foldlM_cons, hnext]
    exact hmerged

theorem foldlM_nil (h : ∀ e ∈ rs, e.overloads = []) :
    rs.foldlM (fun merged e => commonOverloads? merged e.overloads) [] = some [] := by
  induction rs with
  | nil => rfl
  | cons e rs ih =>
    obtain ⟨he, hrs⟩ := List.forall_mem_cons.mp h
    rw [List.foldlM_cons, he]
    exact ih hrs

/-- Nothing is in common only where there is nothing at all. -/
theorem eq_nil_of_foldlM
    (h : rs.foldlM (fun merged e => commonOverloads? merged e.overloads) left = some []) :
    left = [] ∧ ∀ e ∈ rs, e.overloads = [] := by
  induction rs generalizing left with
  | nil => exact ⟨Option.some.inj h, by simp⟩
  | cons e rs ih =>
    rw [List.foldlM_cons] at h
    obtain ⟨next, hnext, h⟩ := Option.bind_eq_some_iff.mp h
    obtain ⟨rfl, hrs⟩ := ih h
    obtain ⟨rfl, he⟩ := eq_nil_of_commonOverloads? hnext
    exact ⟨rfl, List.forall_mem_cons.mpr ⟨he, hrs⟩⟩

end Fold

section CommonEntry

variable {es : List Entry} (hes : ∀ e ∈ es, NormalEntry e)

include hes

/-- There is an entry in common when there are no overloads at all, or one can be chosen from each
entry. -/
theorem isSome_commonEntry?_iff (hne : es ≠ []) :
    (∃ entry, commonEntry? es = some entry) ↔
      (∀ e ∈ es, e.overloads = []) ∨ ∃ os, Choice es os := by
  cases es with
  | nil => exact absurd rfl hne
  | cons e es =>
    obtain ⟨he, hrs⟩ := List.forall_mem_cons.mp hes
    constructor
    · rintro ⟨entry, h⟩
      obtain ⟨merged, hmerged, -⟩ := Option.bind_eq_some_iff.mp h
      cases merged with
      | nil =>
        obtain ⟨hnil, hrest⟩ := eq_nil_of_foldlM hmerged
        exact Or.inl (List.forall_mem_cons.mpr ⟨hnil, hrest⟩)
      | cons o merged =>
        have hall := (Merged.single he).foldlM (by simpa using he) hrs hmerged
        obtain ⟨os, hos, -⟩ := hall.exists_choice hes List.mem_cons_self
        exact Or.inr ⟨os, hos⟩
    · intro h
      have hfold : ∃ merged, es.foldlM (fun merged e => commonOverloads? merged e.overloads)
          e.overloads = some merged := by
        rcases h with hnil | ⟨os, hmem, halike⟩
        · obtain ⟨hnil, hrest⟩ := List.forall_mem_cons.mp hnil
          rw [hnil]
          exact ⟨[], foldlM_nil hrest⟩
        · obtain _ | ⟨ha, hmem⟩ := hmem
          rename_i a os
          refine exists_foldlM (he a ha) he hrs ⟨a, ha, .refl a⟩ fun e' he' => ?_
          obtain ⟨i, hi⟩ := List.mem_iff_getElem?.mp he'
          obtain ⟨b, hb, hmem'⟩ := exists_of_forall₂ hmem hi
          exact ⟨b, hmem', halike b (by simp [List.mem_of_getElem? hb]) a (by simp)⟩
      obtain ⟨merged, hmerged⟩ := hfold
      exact ⟨_, Option.bind_eq_some_iff.mpr ⟨merged, hmerged, rfl⟩⟩

/-- The entry in common is private when some entry is, and its overloads stand for choices. -/
theorem joins_of_commonEntry? {entry : Entry} (h : commonEntry? es = some entry) :
    (entry.isPrivate = true ↔ ∃ e ∈ es, e.isPrivate = true) ∧
      ∀ o ∈ entry.overloads, ∃ os, Choice es os ∧ o.Joins os := by
  cases es with
  | nil => cases h
  | cons e es =>
    obtain ⟨he, hrs⟩ := List.forall_mem_cons.mp hes
    obtain ⟨merged, hmerged, h⟩ := Option.bind_eq_some_iff.mp h
    obtain rfl := Option.some.inj h
    have hall := (Merged.single he).foldlM (by simpa using he) hrs hmerged
    exact ⟨List.any_eq_true, fun o ho => hall.exists_choice hes ho⟩

end CommonEntry

/-! ## The shape of a union -/

theorem entries?_eq_some_iff {name : String} {shapes : List Shape} {es : List Entry} :
    entries? name shapes = some es ↔
      List.Forall₂ (fun s e => s.get? name = some e) shapes es := by
  unfold entries?
  induction shapes generalizing es with
  | nil => simp [eq_comm]
  | cons s shapes ih =>
    rw [List.mapM_cons, List.forall₂_cons_left_iff]
    constructor
    · intro h
      obtain ⟨e, he, h⟩ := Option.bind_eq_some_iff.mp h
      obtain ⟨es', hes', h⟩ := Option.bind_eq_some_iff.mp h
      exact ⟨e, es', he, ih.mp hes', (Option.some.inj h).symm⟩
    · rintro ⟨e, es', he, hes', rfl⟩
      exact Option.bind_eq_some_iff.mpr ⟨e, he, Option.bind_eq_some_iff.mpr ⟨es', ih.mpr hes', rfl⟩⟩

theorem get?_filterMap {F : String → Option Entry} {names : List String} {name : String} :
    Keyed.get? name (names.filterMap fun n => (F n).map fun e => (n, e)) =
      if name ∈ names then F name else none := by
  induction names with
  | nil => rfl
  | cons n names ih =>
    by_cases hn : n = name
    · subst hn
      cases hF : F n with
      | none => simp [hF, ih]
      | some e => simp [hF, Keyed.get?_cons]
    · have hmem : name ∈ n :: names ↔ name ∈ names := by simp [Ne.symm hn]
      cases hF : F n with
      | none => simp [hF, ih, hmem]
      | some e => simp [hF, Keyed.get?_cons, hn, ih, hmem]

/-- The entry of a method in the shape of a union is what the members have in common. -/
theorem get?_ofUnion (t : Ty) {shapes : List Shape} (hne : shapes ≠ []) (name : String) :
    (ofUnion t shapes).get? name = (entries? name shapes).bind commonEntry? := by
  cases shapes with
  | nil => exact absurd rfl hne
  | cons s ss =>
    unfold ofUnion Shape.get?
    rw [get?_filterMap]
    split
    · rfl
    · rename_i hname
      have hnone : s.get? name = none := by
        refine Option.eq_none_iff_forall_ne_some.mpr fun e he => hname ?_
        exact List.mem_map.mpr ⟨_, Keyed.mem_of_get? he, rfl⟩
      have hentries : entries? name (s :: ss) = none := by
        rw [entries?, List.mapM_cons, hnone]
        rfl
      rw [hentries]
      rfl

/-- The shape of a union has an entry for just the methods that all members have with overloads that
can be merged.  It is private when some member's is, and each of its overloads stands for one
overload of every member. -/
theorem ofUnion_merges_exactly (t : Ty) {shapes : List Shape} (hne : shapes ≠ [])
    (hnormal : ∀ s ∈ shapes, ∀ m ∈ s.methods, ∀ o ∈ m.2.overloads, o.Normal) (name : String) :
    ((∃ entry, (ofUnion t shapes).get? name = some entry) ↔
      ∃ es, List.Forall₂ (fun s e => s.get? name = some e) shapes es ∧
        ((∀ e ∈ es, e.overloads = []) ∨ ∃ os, Choice es os)) ∧
    ∀ entry, (ofUnion t shapes).get? name = some entry →
      ∃ es, List.Forall₂ (fun s e => s.get? name = some e) shapes es ∧
        (entry.isPrivate = true ↔ ∃ e ∈ es, e.isPrivate = true) ∧
        ∀ o ∈ entry.overloads, ∃ os, Choice es os ∧ o.Joins os := by
  have hes : ∀ {es}, entries? name shapes = some es → ∀ e ∈ es, NormalEntry e := by
    intro es h e he
    obtain ⟨s, hs, hse⟩ := exists_of_entries h he
    exact hnormal s hs _ (Keyed.mem_of_get? hse)
  have hne' : ∀ {es}, entries? name shapes = some es → es ≠ [] := by
    rintro es h rfl
    cases entries?_eq_some_iff.mp h
    exact hne rfl
  rw [get?_ofUnion t hne]
  constructor
  · constructor
    · rintro ⟨entry, h⟩
      obtain ⟨es, hsome, hentry⟩ := Option.bind_eq_some_iff.mp h
      exact ⟨es, entries?_eq_some_iff.mp hsome,
        (isSome_commonEntry?_iff (hes hsome) (hne' hsome)).mp ⟨entry, hentry⟩⟩
    · rintro ⟨es, hforall, h⟩
      have hsome := entries?_eq_some_iff.mpr hforall
      obtain ⟨entry, hentry⟩ := (isSome_commonEntry?_iff (hes hsome) (hne' hsome)).mpr h
      exact ⟨entry, Option.bind_eq_some_iff.mpr ⟨es, hsome, hentry⟩⟩
  · intro entry h
    obtain ⟨es, hsome, hentry⟩ := Option.bind_eq_some_iff.mp h
    exact ⟨es, entries?_eq_some_iff.mp hsome, joins_of_commonEntry? (hes hsome) hentry⟩

/-- An overload with one required parameter. -/
def callsOne (param result : Ty) : Overload :=
  ⟨[], ⟨⟨{ required := [param] }, result⟩, none⟩, []⟩

/-- Three shapes with a method in common, private in the second, with one more overload in the
third. -/
def threeShapes : List Shape :=
  [⟨.nil, [("call", ⟨[callsOne (.literal (.integer 1)) .nil], false⟩)]⟩,
    ⟨.bool, [("call", ⟨[callsOne (.literal (.integer 2)) .bool], true⟩)]⟩,
    ⟨.top, [("call", ⟨[⟨[], ⟨⟨{}, .nil⟩, none⟩, []⟩,
      callsOne (.literal (.integer 1)) .nil], false⟩)]⟩]

theorem ofUnion_threeShapes :
    let o := callsOne (.inter [.literal (.integer 1), .literal (.integer 2)]) (.union [.nil, .bool])
    (ofUnion .void threeShapes).get? "call" = some ⟨[o], true⟩ ∧
      ∃ es, List.Forall₂ (fun s e => s.get? "call" = some e) threeShapes es ∧
        ∃ os, Choice es os ∧ o.Joins os := by
  intro o
  have hnormal : ∀ s ∈ threeShapes, ∀ m ∈ s.methods, ∀ o ∈ m.2.overloads, o.Normal := by decide
  have hget : (ofUnion .void threeShapes).get? "call" = some ⟨[o], true⟩ := by rfl
  have hmerges := ofUnion_merges_exactly .void (by simp [threeShapes]) hnormal "call"
  obtain ⟨es, hes, -, hjoins⟩ := hmerges.2 _ hget
  exact ⟨hget, es, hes, hjoins o List.mem_cons_self⟩

end Shape
end TypeShape
