import TypeShape.Proofs.Types.Congruence

/-!
# Types that can stand for each other

Well-formed types that are equal have the same form, and their parts correspond: one by one, or as
sets of members.  Functions that read a type only through its form and its parts give the same
answer on both.  The well-formed types are those that the constructors build.

Main results:

- Theorem `Ty.built_iff_wellFormed`: what the constructors build is what is well formed.
- Theorem `Ty.Same.alike`: equal types form by form.
- Theorem `Ty.Same.freeVars_eq`: equal types have the same free variables.
-/

namespace TypeShape
namespace Ty

/-! ## Built types -/

/-- The types that can be built: unions and intersections from distinct members, unions and
intersections in normal form, and all other types from any parts. -/
inductive Built : Ty → Prop
  | ofParts {t : Ty} (form : t.isSet = false) (parts : ∀ u ∈ t.parts, Built u) : Built t
  | union {ts : List Ty} (members : ∀ t ∈ ts, Built t) : Built (union (distinct ts))
  | inter {ts : List Ty} (members : ∀ t ∈ ts, Built t) : Built (inter (distinct ts))
  | unionOf {ts : List Ty} (members : ∀ t ∈ ts, Built t) : Built (unionOf ts)
  | interOf {ts : List Ty} (members : ∀ t ∈ ts, Built t) : Built (interOf ts)

/-- A type that is no set is well formed if its parts are. -/
theorem wellFormed_of_not_isSet {t : Ty} (hs : t.isSet = false)
    (h : ∀ u ∈ t.parts, u.WellFormed) : t.WellFormed := by
  refine all_iff.mpr ⟨?_, h⟩
  cases t <;> simp_all [isSet, distinctHere]

/-- A union of distinct members is well formed if they are. -/
theorem wellFormed_union {ms : List Ty} (hd : ms.Pairwise fun a b => (a == b) = false)
    (h : ∀ m ∈ ms, m.WellFormed) : (union ms).WellFormed :=
  all_iff.mpr ⟨by simpa [distinctHere, distinctTypes] using hd, h⟩

/-- So is an intersection. -/
theorem wellFormed_inter {ms : List Ty} (hd : ms.Pairwise fun a b => (a == b) = false)
    (h : ∀ m ∈ ms, m.WellFormed) : (inter ms).WellFormed :=
  all_iff.mpr ⟨by simpa [distinctHere, distinctTypes] using hd, h⟩

/-- Types that can be built are well formed. -/
theorem Built.wellFormed {t : Ty} (h : t.Built) : t.WellFormed := by
  induction h with
  | ofParts form _ ih => exact wellFormed_of_not_isSet form ih
  | @union ts _ ih =>
    exact wellFormed_union (pairwise_distinct ts) fun m hm => ih m (mem_of_mem_distinct hm)
  | @inter ts _ ih =>
    exact wellFormed_inter (pairwise_distinct ts) fun m hm => ih m (mem_of_mem_distinct hm)
  | unionOf _ ih => exact stable_distinctHere.unionOf ih
  | interOf _ ih => exact stable_distinctHere.interOf ih

/-- Well-formed types can be built. -/
theorem WellFormed.built {t : Ty} (h : t.WellFormed) : t.Built := by
  induction t using inductionOnParts with
  | step t ih =>
    have hparts : ∀ u ∈ t.parts, u.Built := fun u hu => ih u hu (h.part hu)
    cases hs : t.isSet with
    | false => exact .ofParts hs hparts
    | true =>
      have hd := distinct_eq_self (h.pairwise hs)
      cases t with
      | union ms =>
        rw [← show distinct ms = ms from hd]
        exact .union hparts
      | inter ms =>
        rw [← show distinct ms = ms from hd]
        exact .inter hparts
      | _ => cases hs

/-- What the constructors build is what is well formed. -/
theorem built_iff_wellFormed {t : Ty} : t.Built ↔ t.WellFormed :=
  ⟨Built.wellFormed, WellFormed.built⟩

/-! ## Equal types form by form -/

/-- Both types are well formed, and they are equal. -/
structure Same (t u : Ty) : Prop where
  left : t.WellFormed
  right : u.WellFormed
  beq : (t == u) = true

/-- Every type of one list is the same as one of the other, both ways. -/
def SameMembers (ts us : List Ty) : Prop :=
  (∀ t ∈ ts, ∃ u ∈ us, Same t u) ∧ ∀ u ∈ us, ∃ t ∈ ts, Same t u

/-- The two types have one form, and their parts correspond. -/
inductive Alike : Ty → Ty → Prop
  | atom {t : Ty} (h : t.isAtom = true) : Alike t t
  | named {kind : Nominal} {name : TypeName} {args args' : List Ty}
      (h : List.Forall₂ Same args args') : Alike (named kind name args) (named kind name args')
  | union {ms ms' : List Ty} (h : SameMembers ms ms') : Alike (union ms) (union ms')
  | inter {ms ms' : List Ty} (h : SameMembers ms ms') : Alike (inter ms) (inter ms')
  | tuple {items items' : List Ty} (h : List.Forall₂ Same items items') :
      Alike (tuple items) (tuple items')
  | record {fields fields' : List (Literal × Ty)} (h : EntriesRel Same fields fields') :
      Alike (record fields) (record fields')
  | proc {c c' : Callable Ty} : Alike (proc c) (proc c')

namespace Same

variable {t u v : Ty}

/-- A well-formed type is the same as itself. -/
theorem refl (h : t.WellFormed) : Same t t :=
  ⟨h, h, beq_refl t⟩

/-- Types are the same both ways. -/
theorem symm (h : Same t u) : Same u t :=
  ⟨h.right, h.left, beq_symm h.left h.right h.beq⟩

/-- Types that are the same as one are the same. -/
theorem trans (h : Same t u) (h' : Same u v) : Same t v :=
  ⟨h.left, h'.right, beq_trans h.left h.right h'.right h.beq h'.beq⟩

/-- Types that are the same have one head. -/
theorem head_eq (h : Same t u) : u.head = t.head :=
  (head_eq_of_beq h.beq).symm

/-- Types that are the same are equal to the same types. -/
theorem beq_eq {t' u' : Ty} (h : Same t t') (h' : Same u u') : (t == u) = (t' == u') := by
  have hforth : ∀ {t t' u u' : Ty}, Same t t' → Same u u' → (t == u) = true →
      (t' == u') = true := by
    intro t t' u u' h h' htu
    exact ((h.symm.trans ⟨h.left, h'.left, htu⟩).trans h').beq
  rw [Bool.eq_iff_iff]
  exact ⟨hforth h h', hforth h.symm h'.symm⟩

/-- The parts of types that are the same are so one by one, unless they are sets. -/
theorem parts (h : Same t u) (hs : t.isSet = false) : List.Forall₂ Same t.parts u.parts := by
  obtain ⟨-, hforall⟩ := (beq_iff_of_not_isSet hs).mp h.beq
  rw [List.forall₂_iff_get] at hforall ⊢
  refine ⟨hforall.1, fun i hi hi' => ⟨?_, ?_, hforall.2 i hi hi'⟩⟩
  · exact h.left.part (List.get_mem _ ⟨i, hi⟩)
  · exact h.right.part (List.get_mem _ ⟨i, hi'⟩)

/-- Every part of one is the same as a part of the other. -/
theorem exists_part (h : Same t u) {a : Ty} (ha : a ∈ t.parts) : ∃ b ∈ u.parts, Same a b := by
  obtain ⟨b, hb, hab⟩ := exists_part_of_beq h.beq ha
  exact ⟨b, hb, h.left.part ha, h.right.part hb, hab⟩

/-- Sets that are the same have the same members. -/
theorem sameMembers (h : Same t u) : SameMembers t.parts u.parts := by
  refine ⟨fun a ha => h.exists_part ha, fun b hb => ?_⟩
  obtain ⟨a, ha, hba⟩ := h.symm.exists_part hb
  exact ⟨a, ha, hba.symm⟩

/-- Equal types have one form, and their parts correspond. -/
theorem alike (h : Same t u) : Alike t u := by
  have hhead := h.head_eq
  cases t with
  | named kind name args =>
    obtain ⟨args', rfl⟩ := eq_named_of_head hhead
    exact .named (h.parts rfl)
  | union ms =>
    obtain ⟨ms', rfl⟩ := eq_union_of_head hhead
    exact .union h.sameMembers
  | inter ms =>
    obtain ⟨ms', rfl⟩ := eq_inter_of_head hhead
    exact .inter h.sameMembers
  | tuple items =>
    obtain ⟨items', rfl⟩ := eq_tuple_of_head hhead
    exact .tuple (h.parts rfl)
  | record fields =>
    obtain ⟨fields', rfl⟩ := eq_record_of_head hhead
    have hkeys := map_fst_nil_eq_iff.mp (record.inj (congrArg Prod.fst hhead.symm))
    exact .record (entriesRel_iff.mpr ⟨hkeys, h.parts rfl⟩)
  | proc c =>
    obtain ⟨c', rfl⟩ := eq_proc_of_head hhead
    exact .proc
  | _ =>
    rw [eq_of_head_of_isAtom rfl hhead]
    exact .atom rfl

/-- Types that are the same are one atom, or both have parts. -/
theorem atom_or (h : Same t u) : t = u ∨ t.isAtom = false ∧ u.isAtom = false := by
  cases h.alike with
  | atom => exact Or.inl rfl
  | _ => exact Or.inr ⟨rfl, rfl⟩

/-- Equal types mention the same placeholders and variables, and so list them alike. -/
theorem freeVars_eq (h : Same t u) : t.freeVars = u.freeVars :=
  Keyed.sortKeys_eq_of_mem_iff (mem_occurrences_iff_of_beq h.left h.right h.beq)

end Same

/-! ## Types that are one or the same -/

/-- The types are one, or well formed and equal. -/
def Like (t u : Ty) : Prop :=
  t = u ∨ Same t u

namespace Like

variable {t u v : Ty}

/-- A type is like itself. -/
theorem refl (t : Ty) : Like t t :=
  Or.inl rfl

/-- Types are alike both ways. -/
theorem symm (h : Like t u) : Like u t := by
  rcases h with rfl | h
  · exact .refl _
  · exact Or.inr h.symm

/-- Types that are like one are alike. -/
theorem trans (h : Like t u) (h' : Like u v) : Like t v := by
  rcases h with rfl | h
  · exact h'
  · rcases h' with rfl | h'
    · exact Or.inr h
    · exact Or.inr (h.trans h')

/-- Types that are alike are equal. -/
theorem beq (h : Like t u) : (t == u) = true := by
  rcases h with rfl | h
  · exact beq_refl _
  · exact h.beq

/-- Types that are alike have one head. -/
theorem head_eq (h : Like t u) : u.head = t.head :=
  (head_eq_of_beq h.beq).symm

/-- The parts of types that are alike are alike. -/
theorem exists_part (h : Like t u) {a : Ty} (ha : a ∈ t.parts) : ∃ b ∈ u.parts, Like a b := by
  rcases h with rfl | h
  · exact ⟨a, ha, .refl a⟩
  · obtain ⟨b, hb, hab⟩ := h.exists_part ha
    exact ⟨b, hb, Or.inr hab⟩

/-- Types that are alike mention placeholders or not. -/
theorem mentionsSlot_eq (h : Like t u) : t.mentionsSlot = u.mentionsSlot := by
  rcases h with rfl | h
  · rfl
  · rw [mentionsSlot, mentionsSlot, h.freeVars_eq]

/-- Equal options of well-formed types are alike. -/
theorem of_beq_option {o o' : Option Ty} (h : ∀ t, o = some t → t.WellFormed)
    (h' : ∀ t, o' = some t → t.WellFormed) (hbeq : (o == o') = true) : Option.Rel Like o o' := by
  cases o with
  | none =>
    cases o' with
    | none => exact .none
    | some t' => cases hbeq
  | some t =>
    cases o' with
    | none => cases hbeq
    | some t' => exact .some (Or.inr ⟨h t rfl, h' t' rfl, hbeq⟩)

/-- Equal entries of well-formed types are alike. -/
theorem of_beq_entries {es es' : List (String × Ty)} (h : ∀ e ∈ es, e.2.WellFormed)
    (h' : ∀ e ∈ es', e.2.WellFormed) (hbeq : (es == es') = true) : EntriesRel Like es es' := by
  induction es generalizing es' with
  | nil =>
    cases es' with
    | nil => exact .nil
    | cons e' es' => cases hbeq
  | cons e es ih =>
    cases es' with
    | nil => cases hbeq
    | cons e' es' =>
      obtain ⟨he, hes⟩ := Bool.and_eq_true_iff.mp hbeq
      obtain ⟨hname, htype⟩ := Bool.and_eq_true_iff.mp he
      obtain ⟨hwf, hwfs⟩ := List.forall_mem_cons.mp h
      obtain ⟨hwf', hwfs'⟩ := List.forall_mem_cons.mp h'
      exact .cons ⟨eq_of_beq hname, Or.inr ⟨hwf, hwf', htype⟩⟩ (ih hwfs hwfs' hes)

end Like

/-! ## Lists of corresponding types -/

section Lists

variable {ts us : List Ty}

/-- Lists that are the same one by one have the same members. -/
theorem sameMembers_of_forall₂ (h : List.Forall₂ Same ts us) : SameMembers ts us := by
  induction h with
  | nil => exact ⟨by simp, by simp⟩
  | @cons t u ts us htu _ ih =>
    constructor
    · intro a ha
      rcases List.mem_cons.mp ha with rfl | ha
      · exact ⟨u, List.mem_cons_self, htu⟩
      · obtain ⟨b, hb, hab⟩ := ih.1 a ha
        exact ⟨b, List.mem_cons_of_mem u hb, hab⟩
    · intro b hb
      rcases List.mem_cons.mp hb with rfl | hb
      · exact ⟨t, List.mem_cons_self, htu⟩
      · obtain ⟨a, ha, hab⟩ := ih.2 b hb
        exact ⟨a, List.mem_cons_of_mem t ha, hab⟩

namespace SameMembers

/-- Members that are the same are well formed on the left. -/
theorem left (h : SameMembers ts us) : ∀ t ∈ ts, t.WellFormed := by
  intro t ht
  obtain ⟨u, -, htu⟩ := h.1 t ht
  exact htu.left

/-- They are well formed on the right, too. -/
theorem right (h : SameMembers ts us) : ∀ u ∈ us, u.WellFormed := by
  intro u hu
  obtain ⟨t, -, htu⟩ := h.2 u hu
  exact htu.right

/-- Lists have the same members both ways. -/
theorem symm (h : SameMembers ts us) : SameMembers us ts := by
  constructor
  · intro u hu
    obtain ⟨t, ht, htu⟩ := h.2 u hu
    exact ⟨t, ht, htu.symm⟩
  · intro t ht
    obtain ⟨u, hu, htu⟩ := h.1 t ht
    exact ⟨u, hu, htu.symm⟩

/-- Every type of the first list is equal to one of the second. -/
theorem covered (h : SameMembers ts us) : Covered ts us := by
  intro t ht
  obtain ⟨u, hu, htu⟩ := h.1 t ht
  exact ⟨u, hu, htu.beq⟩

/-- Unions of the same types are the same. -/
theorem unionOf (h : SameMembers ts us) : Same (unionOf ts) (unionOf us) :=
  ⟨stable_distinctHere.unionOf h.left, stable_distinctHere.unionOf h.right,
    beq_unionOf h.left h.right h.covered h.symm.covered⟩

/-- Intersections of the same types are the same. -/
theorem interOf (h : SameMembers ts us) : Same (interOf ts) (interOf us) :=
  ⟨stable_distinctHere.interOf h.left, stable_distinctHere.interOf h.right,
    beq_interOf h.left h.right h.covered h.symm.covered⟩

variable {f g : Ty → Bool} (hfg : ∀ t u, Same t u → f t = g u)

include hfg

/-- Tests that agree on types that are the same pass on all members of both lists or not. -/
theorem all_eq (h : SameMembers ts us) : ts.all f = us.all g := by
  rw [Bool.eq_iff_iff, List.all_eq_true, List.all_eq_true]
  constructor
  · intro hall u hu
    obtain ⟨t, ht, htu⟩ := h.2 u hu
    rw [← hfg t u htu]
    exact hall t ht
  · intro hall t ht
    obtain ⟨u, hu, htu⟩ := h.1 t ht
    rw [hfg t u htu]
    exact hall u hu

/-- Tests that agree on types that are the same pass on some member of both lists or not. -/
theorem any_eq (h : SameMembers ts us) : ts.any f = us.any g := by
  rw [Bool.eq_iff_iff, List.any_eq_true, List.any_eq_true]
  constructor
  · rintro ⟨t, ht, hf⟩
    obtain ⟨u, hu, htu⟩ := h.1 t ht
    exact ⟨u, hu, hfg t u htu ▸ hf⟩
  · rintro ⟨u, hu, hg⟩
    obtain ⟨t, ht, htu⟩ := h.2 u hu
    exact ⟨t, ht, (hfg t u htu).symm ▸ hg⟩

end SameMembers

/-- Applications of one name to types that are the same are the same. -/
theorem Same.named {kind : Nominal} {name : TypeName} (h : List.Forall₂ Same ts us) :
    Same (.named kind name ts) (.named kind name us) := by
  have hmembers := sameMembers_of_forall₂ h
  exact ⟨wellFormed_of_not_isSet rfl hmembers.left, wellFormed_of_not_isSet rfl hmembers.right,
    (beq_iff_of_not_isSet rfl).mpr ⟨rfl, h.imp fun _ _ htu => htu.beq⟩⟩

/-- A comparison that agrees on types that are the same gives one answer position by position. -/
theorem all_zip_eq {f : Ty → Ty → Bool} {ts' us' : List Ty}
    (hf : ∀ t t' u u', Same t t' → Same u u' → f t u = f t' u')
    (hts : List.Forall₂ Same ts ts') (hus : List.Forall₂ Same us us') :
    ((ts.zip us).all fun p => f p.1 p.2) = (ts'.zip us').all fun p => f p.1 p.2 := by
  induction hts generalizing us us' with
  | nil => rfl
  | cons ht _ ih =>
    cases hus with
    | nil => rfl
    | cons hu hus =>
      rw [List.zip_cons_cons, List.zip_cons_cons, List.all_cons, List.all_cons, ih hus,
        hf _ _ _ _ ht hu]

end Lists
end Ty
end TypeShape
