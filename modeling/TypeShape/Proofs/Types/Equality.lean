import Mathlib.Data.List.Perm.Subperm
import TypeShape.Proofs.Types.Everywhere

/-!
# Equality of types

Equality compares the members of unions and intersections one way only: the lists are equally long
and every member of the first is equal to one of the second.  Where the members of a list are
pairwise different, as the constructions keep them, this is enough: by counting, every member of
the second list is then equal to one of the first.

Main results:

- Theorem `Ty.beq_refl`: every type is equal to itself.
- Theorems `Ty.beq_symm` and `Ty.beq_trans`: on types with distinct members equality is symmetric
  and transitive.
- Theorem `Ty.mem_occurrences_of_beq`: equal types mention the same placeholders and variables.
-/

namespace TypeShape

/-! ## Counting -/

/-- A relation that gives every element of a list an element of another, and never the same to two,
pairs the first list with elements of the second. -/
theorem exists_subperm_of_rel {α β : Type} {R : α → β → Prop} {as : List α} {bs : List β}
    (htotal : ∀ a ∈ as, ∃ b ∈ bs, R a b)
    (hinj : as.Pairwise fun a a' => ∀ b ∈ bs, R a b → ¬ R a' b) :
    ∃ cs, cs.Subperm bs ∧ List.Forall₂ R as cs := by
  induction as generalizing bs with
  | nil => exact ⟨[], List.nil_subperm, .nil⟩
  | cons a as ih =>
    obtain ⟨b₀, hb₀, hR⟩ := htotal a List.mem_cons_self
    obtain ⟨front, back, rfl⟩ := List.append_of_mem hb₀
    rw [List.pairwise_cons] at hinj
    -- The rest of the first list finds its elements in what is left without `b₀`.
    have hrest : ∀ a' ∈ as, ∃ b ∈ front ++ back, R a' b := by
      intro a' ha'
      obtain ⟨b, hb, hR'⟩ := htotal a' (List.mem_cons_of_mem a ha')
      have hne : b ≠ b₀ := by
        rintro rfl
        exact hinj.1 a' ha' b hb hR hR'
      refine ⟨b, ?_, hR'⟩
      simp only [List.mem_append, List.mem_cons] at hb ⊢
      rcases hb with hb | hb | hb
      · exact Or.inl hb
      · exact absurd hb hne
      · exact Or.inr hb
    have hsub : ∀ b ∈ front ++ back, b ∈ front ++ b₀ :: back := by
      intro b hb
      simp only [List.mem_append, List.mem_cons] at hb ⊢
      tauto
    obtain ⟨cs, hcs, hall⟩ := ih hrest (hinj.2.imp fun h b hb => h b (hsub b hb))
    refine ⟨b₀ :: cs, ?_, .cons hR hall⟩
    exact ((List.subperm_cons b₀).mpr hcs).trans List.perm_middle.symm.subperm

/-- If the lists are equally long, no element of the second is left out. -/
theorem exists_rel_of_length_eq {α β : Type} {R : α → β → Prop} {as : List α} {bs : List β}
    (hlen : as.length = bs.length) (htotal : ∀ a ∈ as, ∃ b ∈ bs, R a b)
    (hinj : as.Pairwise fun a a' => ∀ b ∈ bs, R a b → ¬ R a' b) :
    ∀ b ∈ bs, ∃ a ∈ as, R a b := by
  obtain ⟨cs, hsub, hall⟩ := exists_subperm_of_rel htotal hinj
  have hperm := hsub.perm_of_length_le (Nat.le_of_eq (hlen.symm.trans hall.length_eq))
  intro b hb
  obtain ⟨i, hi⟩ := List.getElem?_of_mem (hperm.mem_iff.mpr hb)
  obtain ⟨a, ha, hab⟩ := exists_of_forall₂ hall.flip hi
  exact ⟨a, List.mem_of_getElem? ha, hab⟩

/-- The first list is no longer than the second. -/
theorem length_le_of_rel {α β : Type} {R : α → β → Prop} {as : List α} {bs : List β}
    (htotal : ∀ a ∈ as, ∃ b ∈ bs, R a b)
    (hinj : as.Pairwise fun a a' => ∀ b ∈ bs, R a b → ¬ R a' b) : as.length ≤ bs.length := by
  obtain ⟨cs, hsub, hall⟩ := exists_subperm_of_rel htotal hinj
  rw [hall.length_eq]
  exact hsub.length_le

namespace Ty

/-! ## Equality by parts -/

/-- The type is a union or an intersection, whose members are compared as sets. -/
def isSet : Ty → Bool
  | union _ => true
  | inter _ => true
  | _ => false

/-- A type without its parts; of a proc the frame is left. -/
def head : Ty → Ty × Option (Layout × Option (Layout × Bool × Bool))
  | named kind name _ => (named kind name [], none)
  | union _ => (union [], none)
  | inter _ => (inter [], none)
  | tuple _ => (tuple [], none)
  | record fields => (record (fields.map fun f => (f.1, nil)), none)
  | proc c => (nil, some c.frame)
  | t => (t, none)

/-- Lists of types are equal if their types are, one by one. -/
theorem beqList_iff {as bs : List Ty} :
    beqList as bs = true ↔ List.Forall₂ (fun a b => (a == b) = true) as bs := by
  induction as generalizing bs with
  | nil => cases bs <;> simp [beqList]
  | cons a as ih =>
    cases bs with
    | nil => simp [beqList]
    | cons b bs =>
      rw [beqList, Bool.and_eq_true, List.forall₂_cons, ih]
      rfl

/-- Fields are equal if they have the same keys and equal types. -/
theorem beqFields_iff {as bs : List (Literal × Ty)} :
    beqFields as bs = true ↔ EntriesRel (fun a b => (a == b) = true) as bs := by
  induction as generalizing bs with
  | nil => cases bs <;> simp [beqFields]
  | cons a as ih =>
    cases bs with
    | nil => simp [beqFields, EntriesRel]
    | cons b bs =>
      rw [beqFields, Bool.and_eq_true, Bool.and_eq_true, ih, entriesRel_cons, beq_iff_eq]
      rfl

/-- So are keywords. -/
theorem beqKeywords_iff {as bs : List (String × Ty)} :
    beqKeywords as bs = true ↔ EntriesRel (fun a b => (a == b) = true) as bs := by
  induction as generalizing bs with
  | nil => cases bs <;> simp [beqKeywords]
  | cons a as ih =>
    cases bs with
    | nil => simp [beqKeywords, EntriesRel]
    | cons b bs =>
      rw [beqKeywords, Bool.and_eq_true, Bool.and_eq_true, ih, entriesRel_cons, beq_iff_eq]
      rfl

/-- Types that may be missing are equal if both are missing or both are equal. -/
theorem beqOption_iff {a b : Option Ty} :
    beqOption a b = true ↔ Option.Rel (fun a b => (a == b) = true) a b := by
  cases a with
  | none => cases b <;> simp [beqOption]
  | some a =>
    cases b with
    | none => simp [beqOption]
    | some b => rw [beqOption, Option.rel_some_some]; rfl

/-- Parameter lists are equal if their types are, in one layout. -/
theorem beqParams_iff {p q : Params Ty} :
    beqParams p q = true ↔ p.Rel (fun a b => (a == b) = true) q := by
  cases p
  cases q
  simp only [beqParams, Bool.and_eq_true, beqList_iff, beqKeywords_iff, beqOption_iff]
  constructor
  · rintro ⟨⟨⟨⟨⟨hr, ho⟩, hs⟩, hk⟩, hw⟩, ht⟩
    exact ⟨hr, ho, hs, hk, hw, ht⟩
  · rintro ⟨hr, ho, hs, hk, hw, ht⟩
    exact ⟨⟨⟨⟨⟨hr, ho⟩, hs⟩, hk⟩, hw⟩, ht⟩

/-- So are arrows. -/
theorem beqArrow_iff {a b : Arrow Ty} :
    beqArrow a b = true ↔ a.Rel (fun a b => (a == b) = true) b := by
  cases a
  cases b
  rw [beqArrow, Bool.and_eq_true, beqParams_iff]
  rfl

/-- So are blocks. -/
theorem beqBlock_iff {b d : Block Ty} :
    beqBlock b d = true ↔ b.Rel (fun a b => (a == b) = true) d := by
  cases b
  cases d
  rw [beqBlock, Bool.and_eq_true, Bool.and_eq_true, beqArrow_iff, beqOption_iff, beq_iff_eq]
  simp only [Block.Rel, and_assoc]

/-- Callables are equal if they have one frame and equal types. -/
theorem beqCallable_iff {c d : Callable Ty} :
    beqCallable c d = true ↔
      c.frame = d.frame ∧ List.Forall₂ (fun a b => (a == b) = true) c.toList d.toList := by
  rw [← Callable.rel_iff]
  obtain ⟨a, b⟩ := c
  obtain ⟨a', b'⟩ := d
  rw [beqCallable, Bool.and_eq_true, beqArrow_iff]
  cases b <;> cases b' <;> simp [beqBlockOption, Callable.Rel, beqBlock_iff, Option.rel_some_some]

/-- Records without types are told apart by their keys. -/
theorem map_fst_nil_eq_iff {as bs : List (Literal × Ty)} :
    (as.map fun f => (f.1, nil)) = (bs.map fun f => (f.1, nil)) ↔
      as.map (·.1) = bs.map (·.1) := by
  have hinj : Function.Injective fun k : Literal => (k, nil) := by
    intro k l h
    exact congrArg Prod.fst h
  have hmap : ∀ fs : List (Literal × Ty),
      (fs.map fun f => (f.1, nil)) = (fs.map (·.1)).map fun k => (k, nil) := by
    intro fs
    rw [List.map_map]
    rfl
  rw [hmap, hmap, (List.map_injective_iff.mpr hinj).eq_iff]

/-- Types other than unions and intersections are equal when they differ in their parts only, and
these are equal one by one. -/
theorem beq_iff_of_not_isSet {t u : Ty} (h : t.isSet = false) :
    (t == u) = true ↔
      t.head = u.head ∧ List.Forall₂ (fun a b => (a == b) = true) t.parts u.parts := by
  change beq t u = true ↔ _
  cases t with
  | union => cases h
  | inter => cases h
  | _ =>
    cases u <;> simp [beq, head, parts, beqList_iff, beqFields_iff, beqCallable_iff,
      entriesRel_iff, map_fst_nil_eq_iff, and_assoc]

/-- Unions, and likewise intersections, are equal when they have equally many members and every
member of the first is equal to one of the second. -/
theorem beq_iff_of_isSet {t u : Ty} (h : t.isSet = true) :
    (t == u) = true ↔
      t.head = u.head ∧ t.parts.length = u.parts.length ∧
        ∀ a ∈ t.parts, ∃ b ∈ u.parts, (a == b) = true := by
  change beq t u = true ↔ _
  cases t with
  | union => cases u <;> simp [beq, head, parts, subset_eq_all]
  | inter => cases u <;> simp [beq, head, parts, subset_eq_all]
  | _ => cases h

/-- The head tells whether members are compared as sets. -/
theorem isSet_eq_of_head_eq {t u : Ty} (h : t.head = u.head) : t.isSet = u.isSet := by
  have hhead : ∀ v : Ty, v.isSet = v.head.1.isSet := by
    intro v
    cases v <;> rfl
  rw [hhead t, hhead u, h]

/-- Equal types have one head. -/
theorem head_eq_of_beq {t u : Ty} (h : (t == u) = true) : t.head = u.head := by
  cases hs : t.isSet with
  | false => exact ((beq_iff_of_not_isSet hs).mp h).1
  | true => exact ((beq_iff_of_isSet hs).mp h).1

/-! ## Types told by their heads -/

/-- Only a union has the head of one. -/
theorem eq_union_of_head {t : Ty} {ms : List Ty} (h : t.head = (union ms).head) :
    ∃ ms', t = union ms' := by
  cases t <;> simp_all [head]

/-- Only an intersection has the head of one. -/
theorem eq_inter_of_head {t : Ty} {ms : List Ty} (h : t.head = (inter ms).head) :
    ∃ ms', t = inter ms' := by
  cases t <;> simp_all [head]

/-- Only the bottom has its head. -/
theorem eq_bot_of_head {t : Ty} (h : t.head = bot.head) : t = bot := by
  cases t <;> simp_all [head]

/-- Only the top has its head. -/
theorem eq_top_of_head {t : Ty} (h : t.head = top.head) : t = top := by
  cases t <;> simp_all [head]

/-- Only the untyped type has its head. -/
theorem eq_untyped_of_head {t : Ty} (h : t.head = untyped.head) : t = untyped := by
  cases t <;> simp_all [head]

/-- The type has no parts and could have none. -/
def isAtom : Ty → Bool
  | named _ _ _ => false
  | union _ => false
  | inter _ => false
  | tuple _ => false
  | record _ => false
  | proc _ => false
  | _ => true

/-- An atom is told by its head. -/
theorem eq_of_head_of_isAtom {t u : Ty} (ht : t.isAtom = true) (h : u.head = t.head) : u = t := by
  have hhead : t.head = (t, none) := by cases t <;> simp_all [isAtom, head]
  rw [hhead] at h
  cases u <;> simp_all [head] <;> subst h <;> simp_all [isAtom]

/-- Only a type of one name has the head of another. -/
theorem eq_named_of_head {t : Ty} {kind : Nominal} {name : TypeName} {args : List Ty}
    (h : t.head = (named kind name args).head) : ∃ args', t = named kind name args' := by
  cases t <;> simp_all [head]

/-- Only a tuple has the head of one. -/
theorem eq_tuple_of_head {t : Ty} {items : List Ty} (h : t.head = (tuple items).head) :
    ∃ items', t = tuple items' := by
  cases t <;> simp_all [head]

/-- Only a record has the head of one. -/
theorem eq_record_of_head {t : Ty} {fields : List (Literal × Ty)}
    (h : t.head = (record fields).head) : ∃ fields', t = record fields' := by
  cases t <;> simp_all [head]

/-- Only a procedure has the head of one. -/
theorem eq_proc_of_head {t : Ty} {c : Callable Ty} (h : t.head = (proc c).head) :
    ∃ c', t = proc c' := by
  cases t <;> simp_all [head]

/-! ## Parts of equal types -/

/-- Every part of a type is equal to a part of an equal type. -/
theorem exists_part_of_beq {t u a : Ty} (h : (t == u) = true) (ha : a ∈ t.parts) :
    ∃ b ∈ u.parts, (a == b) = true := by
  cases hs : t.isSet with
  | false =>
    obtain ⟨-, hf⟩ := (beq_iff_of_not_isSet hs).mp h
    obtain ⟨i, hi, rfl⟩ := List.getElem_of_mem ha
    exact ⟨_, List.getElem_mem (hf.length_eq ▸ hi), hf.get hi _⟩
  | true => exact ((beq_iff_of_isSet hs).mp h).2.2 a ha

/-! ## An equivalence -/

/-- Every type equals itself. -/
@[simp]
theorem beq_refl (t : Ty) : (t == t) = true := by
  induction t using inductionOnParts with
  | step t ih =>
    cases hs : t.isSet with
    | false =>
      rw [beq_iff_of_not_isSet hs]
      exact ⟨rfl, List.forall₂_same.mpr ih⟩
    | true =>
      rw [beq_iff_of_isSet hs]
      exact ⟨rfl, rfl, fun a ha => ⟨a, ha, ih a ha⟩⟩

/-- No two types of a list are equal. -/
def distinctTypes (ts : List Ty) : Bool :=
  decide (ts.Pairwise fun a b => (a == b) = false)

/-- The members of a union or intersection are distinct. -/
def distinctHere : Ty → Bool
  | union ms => distinctTypes ms
  | inter ms => distinctTypes ms
  | _ => true

/-- The members of every union and intersection in a type are distinct. -/
def WellFormed (t : Ty) : Prop :=
  t.all distinctHere = true

instance (t : Ty) : Decidable t.WellFormed :=
  inferInstanceAs (Decidable (_ = true))

/-- Parts of a well-formed type are well formed. -/
theorem WellFormed.part {t u : Ty} (h : t.WellFormed) (hu : u ∈ t.parts) : u.WellFormed :=
  all_part h hu

/-- The members of a well-formed set are distinct. -/
theorem WellFormed.pairwise {t : Ty} (h : t.WellFormed) (hs : t.isSet = true) :
    t.parts.Pairwise fun a b => (a == b) = false := by
  have hhere : t.distinctHere = true := all_here h
  cases t <;> simp_all [isSet, distinctHere, distinctTypes, parts]

/-- Symmetry and transitivity from a well-formed type, proved together: that no member is counted
twice in one needs the other on the members. -/
theorem beq_symm_trans {t : Ty} (ht : t.WellFormed) :
    ∀ u : Ty, u.WellFormed → (t == u) = true →
      (u == t) = true ∧ ∀ v : Ty, v.WellFormed → (u == v) = true → (t == v) = true := by
  induction t using inductionOnParts with
  | step t ih =>
    intro u hu htu
    have hhead := head_eq_of_beq htu
    have hset := isSet_eq_of_head_eq hhead
    cases hs : t.isSet with
    | false =>
      have hs' : u.isSet = false := hset ▸ hs
      obtain ⟨-, hf⟩ := (beq_iff_of_not_isSet hs).mp htu
      constructor
      · rw [beq_iff_of_not_isSet hs']
        refine ⟨hhead.symm, List.Forall₂.flip ?_⟩
        rw [List.forall₂_iff_get] at hf ⊢
        refine ⟨hf.1, fun i hi hi' => ?_⟩
        have ha := List.get_mem t.parts ⟨i, hi⟩
        have hb := List.get_mem u.parts ⟨i, hi'⟩
        exact (ih _ ha (ht.part ha) _ (hu.part hb) (hf.2 i hi hi')).1
      · intro v hv huv
        obtain ⟨hhead', hf'⟩ := (beq_iff_of_not_isSet hs').mp huv
        rw [beq_iff_of_not_isSet hs]
        refine ⟨hhead.trans hhead', ?_⟩
        rw [List.forall₂_iff_get] at hf hf' ⊢
        refine ⟨hf.1.trans hf'.1, fun i hi hi'' => ?_⟩
        have hi' : i < u.parts.length := hf.1 ▸ hi
        have ha := List.get_mem t.parts ⟨i, hi⟩
        have hb := List.get_mem u.parts ⟨i, hi'⟩
        have hc := List.get_mem v.parts ⟨i, hi''⟩
        exact (ih _ ha (ht.part ha) _ (hu.part hb) (hf.2 i hi hi')).2 _ (hv.part hc)
          (hf'.2 i hi' hi'')
    | true =>
      have hs' : u.isSet = true := hset ▸ hs
      obtain ⟨-, hlen, htotal⟩ := (beq_iff_of_isSet hs).mp htu
      constructor
      · -- Two members of `t` that are equal to one of `u` would be equal to each other.
        have hinj : t.parts.Pairwise fun a a' =>
            ∀ b ∈ u.parts, (a == b) = true → ¬ (a' == b) = true := by
          refine (ht.pairwise hs).imp_of_mem ?_
          intro a a' ha ha' hne b hb hab hab'
          have hba' := (ih a' ha' (ht.part ha') b (hu.part hb) hab').1
          have haa' := (ih a ha (ht.part ha) b (hu.part hb) hab).2 a' (ht.part ha') hba'
          rw [hne] at haa'
          exact Bool.false_ne_true haa'
        rw [beq_iff_of_isSet hs']
        refine ⟨hhead.symm, hlen.symm, fun b hb => ?_⟩
        obtain ⟨a, ha, hab⟩ := exists_rel_of_length_eq hlen htotal hinj b hb
        exact ⟨a, ha, (ih a ha (ht.part ha) b (hu.part hb) hab).1⟩
      · intro v hv huv
        obtain ⟨hhead', hlen', htotal'⟩ := (beq_iff_of_isSet hs').mp huv
        rw [beq_iff_of_isSet hs]
        refine ⟨hhead.trans hhead', hlen.trans hlen', fun a ha => ?_⟩
        obtain ⟨b, hb, hab⟩ := htotal a ha
        obtain ⟨c, hc, hbc⟩ := htotal' b hb
        exact ⟨c, hc, (ih a ha (ht.part ha) b (hu.part hb) hab).2 c (hv.part hc) hbc⟩

/-- Equality of well-formed types is symmetric. -/
theorem beq_symm {t u : Ty} (ht : t.WellFormed) (hu : u.WellFormed) (h : (t == u) = true) :
    (u == t) = true :=
  (beq_symm_trans ht u hu h).1

/-- Equality of well-formed types is transitive. -/
theorem beq_trans {t u v : Ty} (ht : t.WellFormed) (hu : u.WellFormed) (hv : v.WellFormed)
    (h : (t == u) = true) (h' : (u == v) = true) : (t == v) = true :=
  (beq_symm_trans ht u hu h).2 v hv h'

instance : ReflBEq Ty :=
  ⟨beq_refl _⟩

/-! ## What equal types share -/

/-- What occurs in a type occurs in every equal type. -/
theorem mem_occurrences_of_beq {t u : Ty} {x : FreeVar} (h : (t == u) = true)
    (hx : x ∈ t.occurrences) : x ∈ u.occurrences := by
  induction t using inductionOnParts generalizing u with
  | step t ih =>
    have hhead := head_eq_of_beq h
    rw [mem_occurrences] at hx
    rcases hx with ⟨s, rfl, rfl⟩ | ⟨y, rfl, rfl⟩ | ⟨a, ha, hxa⟩
    · cases u <;> simp_all [head, occurrences]
    · cases u <;> simp_all [head, occurrences]
    · obtain ⟨b, hb, hab⟩ := exists_part_of_beq h ha
      exact mem_occurrences.mpr (Or.inr (Or.inr ⟨b, hb, ih a ha hab hxa⟩))

end Ty
end TypeShape
