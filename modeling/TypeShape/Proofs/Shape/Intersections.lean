import Mathlib.Data.List.Induction
import TypeShape.Proofs.Keyed
import TypeShape.Shape.Members

/-!
# Methods of an intersection

A value of an intersection has every method that some member has.  The members are gone through one
after the other, and a later entry replaces an earlier one unless it is private and the earlier one
public.  So the last public entry counts, or the last one at all where none is public, and whether a
method is public does not depend on the order of the members.

Main results:

- Theorem `Shape.get?_addMethods`: what one more member does to an entry.
- Theorem `Shape.get?_ofInter`: an entry of the intersection is a fold over the entries of the
  members.
- Theorem `Shape.last_public_entry_wins`: the entries of the shape of an intersection.
-/

namespace TypeShape

/-- The entry that counts of an earlier and a later one. -/
def Entry.override (earlier later : Entry) : Entry :=
  if !earlier.isPrivate && later.isPrivate then earlier else later

namespace Entry

variable {earlier later : Entry}

theorem override_of_isPublic (h : later.isPrivate = false) : earlier.override later = later := by
  simp [override, h]

theorem override_of_isPrivate (h : earlier.isPrivate = true) : earlier.override later = later := by
  simp [override, h]

theorem override_keeps (he : earlier.isPrivate = false) (hl : later.isPrivate = true) :
    earlier.override later = earlier := by
  simp [override, he, hl]

end Entry

namespace Shape

/-! ## One member after the other -/

theorem get?_addMethod (methods : List (String × Entry)) (m : String × Entry) (name : String) :
    Keyed.get? name (addMethod methods m) =
      (Keyed.get? name methods).merge Entry.override (if m.1 = name then some m.2 else none) := by
  unfold addMethod
  split
  · rename_i existing hexisting
    by_cases hname : m.1 = name
    · subst hname
      rw [if_pos rfl, hexisting, Option.merge_some_some, Entry.override]
      split
      · exact hexisting
      · rw [Keyed.get?_insert, if_pos rfl]
    · rw [if_neg hname, Option.merge_none_right]
      split
      · rfl
      · rw [Keyed.get?_insert, if_neg hname]
  · rename_i hnone
    rw [Keyed.get?_insert]
    by_cases hname : m.1 = name
    · subst hname
      rw [if_pos rfl, if_pos rfl, hnone, Option.merge_none_left]
    · rw [if_neg hname, if_neg hname, Option.merge_none_right]

/-- A further member changes an entry only by its own entry of that name. -/
theorem get?_addMethods {ms : List (String × Entry)} (hms : Keyed.Sorted ms)
    (methods : List (String × Entry)) (name : String) :
    Keyed.get? name (ms.foldl addMethod methods) =
      (Keyed.get? name methods).merge Entry.override (Keyed.get? name ms) := by
  induction ms generalizing methods with
  | nil => rw [List.foldl_nil, Keyed.get?_nil, Option.merge_none_right]
  | cons m ms ih =>
    obtain ⟨hm, hms⟩ := List.pairwise_cons.mp hms
    rw [List.foldl_cons, ih hms, get?_addMethod, Keyed.get?_cons]
    by_cases hname : m.1 = name
    · -- Names ascend, so the rest has none that is equal.
      have hrest : Keyed.get? name ms = none := by
        refine Option.eq_none_iff_forall_ne_some.mpr fun e he => ?_
        have hlt : compare m.1 name = .lt := hm _ (Keyed.mem_of_get? he)
        rw [hname, Std.ReflOrd.compare_self] at hlt
        cases hlt
      rw [if_pos hname, if_pos hname, hrest, Option.merge_none_right]
    · rw [if_neg hname, if_neg hname, Option.merge_none_right]

theorem sorted_addMethods (ms : List (String × Entry)) {methods : List (String × Entry)}
    (h : Keyed.Sorted methods) : Keyed.Sorted (ms.foldl addMethod methods) := by
  refine List.foldlRecOn ms _ h fun methods h m _ => ?_
  unfold addMethod
  split
  · split
    · exact h
    · exact Keyed.sorted_insert h
  · exact Keyed.sorted_insert h

theorem sorted_ofInter (t : Ty) (shapes : List Shape) : Keyed.Sorted (ofInter t shapes).methods :=
  List.foldlRecOn shapes _ List.Pairwise.nil fun _ h s _ => sorted_addMethods s.methods h

/-- An entry of the intersection is a fold over the entries of the members. -/
theorem get?_ofInter (t : Ty) {shapes : List Shape}
    (hsorted : ∀ s ∈ shapes, Keyed.Sorted s.methods) (name : String) :
    (ofInter t shapes).get? name =
      shapes.foldl (fun entry s => entry.merge Entry.override (s.get? name)) none := by
  induction shapes using List.reverseRecOn with
  | nil => rfl
  | append_singleton shapes s ih =>
    have hlast := get?_addMethods (hsorted s (by simp)) (ofInter t shapes).methods name
    rw [List.foldl_append, ← ih fun u hu => hsorted u (List.mem_append_left _ hu)]
    simp only [ofInter, Shape.get?, List.foldl_append, List.foldl_cons, List.foldl_nil] at hlast ⊢
    exact hlast

/-! ## The entry that wins -/

/-- The entry of a name in the last of some shapes in which it passes a test. -/
def LastWith (test : Entry → Prop) (name : String) (shapes : List Shape) (e : Entry) : Prop :=
  ∃ earlier s later, shapes = earlier ++ s :: later ∧ s.get? name = some e ∧ test e ∧
    ∀ u ∈ later, ∀ e', u.get? name = some e' → ¬ test e'

namespace LastWith

variable {test : Entry → Prop} {name : String} {shapes : List Shape} {s : Shape} {e : Entry}

theorem last (hs : s.get? name = some e) (he : test e) : LastWith test name (shapes ++ [s]) e :=
  ⟨shapes, s, [], rfl, hs, he, by simp⟩

theorem append_singleton (h : LastWith test name shapes e)
    (hs : ∀ e', s.get? name = some e' → ¬ test e') : LastWith test name (shapes ++ [s]) e := by
  obtain ⟨earlier, u, later, rfl, hu, he, hlater⟩ := h
  have hrest := List.forall_mem_append.mpr ⟨hlater, List.forall_mem_singleton.mpr hs⟩
  exact ⟨earlier, u, later ++ [s], by simp, hu, he, hrest⟩

theorem exists_mem (h : LastWith test name shapes e) :
    ∃ s ∈ shapes, s.get? name = some e ∧ test e := by
  obtain ⟨earlier, s, later, rfl, hs, he, -⟩ := h
  exact ⟨s, by simp, hs, he⟩

end LastWith

/-- The entry of a name that counts: the last public one, or the last one if all are private. -/
def Wins (name : String) (shapes : List Shape) (e : Entry) : Prop :=
  LastWith (fun e => e.isPrivate = false) name shapes e ∨
    (∀ s ∈ shapes, ∀ e', s.get? name = some e' → e'.isPrivate = true) ∧
      LastWith (fun _ => True) name shapes e

namespace Wins

variable {name : String} {shapes : List Shape} {s : Shape} {e : Entry}

theorem exists_mem (h : Wins name shapes e) : ∃ s ∈ shapes, s.get? name = some e := by
  rcases h with h | ⟨-, h⟩
  · obtain ⟨s, hs, hget, -⟩ := h.exists_mem
    exact ⟨s, hs, hget⟩
  · obtain ⟨s, hs, hget, -⟩ := h.exists_mem
    exact ⟨s, hs, hget⟩

/-- The entry is public if and only if some member has the name as a public one. -/
theorem isPublic_iff (h : Wins name shapes e) :
    e.isPrivate = false ↔ ∃ s ∈ shapes, ∃ e', s.get? name = some e' ∧ e'.isPrivate = false := by
  constructor
  · intro he
    obtain ⟨s, hs, hget⟩ := h.exists_mem
    exact ⟨s, hs, e, hget, he⟩
  · rintro ⟨s, hs, e', hget, he'⟩
    rcases h with h | ⟨hprivate, -⟩
    · obtain ⟨-, -, -, he⟩ := h.exists_mem
      exact he
    · rw [hprivate s hs e' hget] at he'
      cases he'

/-- The only entry of a name wins. -/
theorem only (hsilent : ∀ u ∈ shapes, u.get? name = none) (hs : s.get? name = some e) :
    Wins name (shapes ++ [s]) e := by
  cases he : e.isPrivate with
  | false => exact Or.inl (.last hs he)
  | true =>
    refine Or.inr ⟨List.forall_mem_append.mpr ⟨fun u hu e' he' => ?_,
      List.forall_mem_singleton.mpr fun e' he' => ?_⟩, .last hs trivial⟩
    · rw [hsilent u hu] at he'
      cases he'
    · rw [← Option.some.inj (hs.symm.trans he')]
      exact he

/-- A member without the name changes nothing. -/
theorem append_none (h : Wins name shapes e) (hs : s.get? name = none) :
    Wins name (shapes ++ [s]) e := by
  have hsilent : ∀ e', s.get? name ≠ some e' := by simp [hs]
  refine h.imp (fun h => h.append_singleton fun e' he' => absurd he' (hsilent e')) ?_
  rintro ⟨hprivate, h⟩
  refine ⟨List.forall_mem_append.mpr ⟨hprivate, List.forall_mem_singleton.mpr ?_⟩,
    h.append_singleton fun e' he' => absurd he' (hsilent e')⟩
  exact fun e' he' => absurd he' (hsilent e')

/-- A member with the name brings in its own entry or leaves a public one in place. -/
theorem override {later : Entry} (h : Wins name shapes e) (hs : s.get? name = some later) :
    Wins name (shapes ++ [s]) (e.override later) := by
  cases hl : later.isPrivate with
  | false =>
    rw [Entry.override_of_isPublic hl]
    exact Or.inl (.last hs hl)
  | true =>
    have hhidden : ∀ e', s.get? name = some e' → e'.isPrivate = true := by
      intro e' he'
      obtain rfl := Option.some.inj (hs.symm.trans he')
      exact hl
    cases he : e.isPrivate with
    | false =>
      rw [Entry.override_keeps he hl]
      rcases h with h | ⟨hprivate, h⟩
      · exact Or.inl (h.append_singleton fun e' he' => by simp [hhidden e' he'])
      · obtain ⟨u, hu, hget, -⟩ := h.exists_mem
        rw [hprivate u hu e hget] at he
        cases he
    | true =>
      rw [Entry.override_of_isPrivate he]
      rcases h with h | ⟨hprivate, -⟩
      · obtain ⟨-, -, -, hpublic⟩ := h.exists_mem
        rw [he] at hpublic
        cases hpublic
      · have hall := List.forall_mem_append.mpr ⟨hprivate, List.forall_mem_singleton.mpr hhidden⟩
        exact Or.inr ⟨hall, .last hs trivial⟩

end Wins

/-- Folding over the members finds nothing if no member has the name, and the entry that wins
otherwise. -/
theorem foldl_override_cases (name : String) (shapes : List Shape) :
    (shapes.foldl (fun entry s => entry.merge Entry.override (s.get? name)) none = none ∧
        ∀ s ∈ shapes, s.get? name = none) ∨
      ∃ e, shapes.foldl (fun entry s => entry.merge Entry.override (s.get? name)) none = some e ∧
        Wins name shapes e := by
  induction shapes using List.reverseRecOn with
  | nil => exact Or.inl ⟨rfl, by simp⟩
  | append_singleton shapes s ih =>
    rw [List.foldl_append, List.foldl_cons, List.foldl_nil]
    cases hs : s.get? name with
    | none =>
      rw [Option.merge_none_right]
      rcases ih with ⟨hnone, hsilent⟩ | ⟨e, he, hwins⟩
      · exact Or.inl ⟨hnone, List.forall_mem_append.mpr ⟨hsilent, List.forall_mem_singleton.mpr hs⟩⟩
      · exact Or.inr ⟨e, he, hwins.append_none hs⟩
    | some later =>
      refine Or.inr ?_
      rcases ih with ⟨hnone, hsilent⟩ | ⟨e, he, hwins⟩
      · rw [hnone, Option.merge_none_left]
        exact ⟨later, rfl, .only hsilent hs⟩
      · rw [he, Option.merge_some_some]
        exact ⟨_, rfl, hwins.override hs⟩

/-! ## The shape of an intersection -/

theorem mem_methodNames_iff {s : Shape} {name : String} :
    name ∈ s.methodNames ↔ ∃ e, s.get? name = some e :=
  Keyed.mem_keys_iff

section Order

variable {shapes : List Shape} (hsorted : ∀ s ∈ shapes, Keyed.Sorted s.methods) (t : Ty)
  (name : String)

include hsorted

theorem wins_of_get?_ofInter {e : Entry} (h : (ofInter t shapes).get? name = some e) :
    Wins name shapes e := by
  rw [get?_ofInter t hsorted] at h
  rcases foldl_override_cases name shapes with ⟨hnone, -⟩ | ⟨e', he', hwins⟩
  · cases hnone.symm.trans h
  · obtain rfl := Option.some.inj (he'.symm.trans h)
    exact hwins

/-- The intersection has the methods that some member has. -/
theorem exists_get?_ofInter_iff :
    (∃ e, (ofInter t shapes).get? name = some e) ↔ ∃ s ∈ shapes, ∃ e, s.get? name = some e := by
  constructor
  · rintro ⟨e, he⟩
    obtain ⟨s, hs, hget⟩ := (wins_of_get?_ofInter hsorted t name he).exists_mem
    exact ⟨s, hs, e, hget⟩
  · rintro ⟨s, hs, e, he⟩
    rw [get?_ofInter t hsorted]
    rcases foldl_override_cases name shapes with ⟨-, hsilent⟩ | ⟨e', he', -⟩
    · rw [hsilent s hs] at he
      cases he
    · exact ⟨e', he'⟩

section Permuted

variable {shapes' : List Shape} (hperm : shapes.Perm shapes') (t' : Ty)

include hperm

theorem methodNames_ofInter_perm :
    (ofInter t' shapes').methodNames = (ofInter t shapes).methodNames := by
  have hsorted' : ∀ s ∈ shapes', Keyed.Sorted s.methods := fun s hs =>
    hsorted s (hperm.mem_iff.mpr hs)
  have hascending : ∀ (t : Ty) (shapes : List Shape),
      (ofInter t shapes).methodNames.Pairwise fun a b => compare a b = .lt := fun t shapes =>
    List.pairwise_map.mpr (sorted_ofInter t shapes)
  refine Keyed.eq_of_ascending (hascending t' shapes') (hascending t shapes) fun name => ?_
  rw [mem_methodNames_iff, mem_methodNames_iff, exists_get?_ofInter_iff hsorted',
    exists_get?_ofInter_iff hsorted]
  simp only [hperm.mem_iff]

/-- Whether a method is public does not depend on the order of the members. -/
theorem isPrivate_ofInter_perm :
    ((ofInter t' shapes').get? name).map (·.isPrivate) =
      ((ofInter t shapes).get? name).map (·.isPrivate) := by
  have hsorted' : ∀ s ∈ shapes', Keyed.Sorted s.methods := fun s hs =>
    hsorted s (hperm.mem_iff.mpr hs)
  have hsome : (∃ e, (ofInter t' shapes').get? name = some e) ↔
      ∃ e, (ofInter t shapes).get? name = some e := by
    rw [exists_get?_ofInter_iff hsorted', exists_get?_ofInter_iff hsorted]
    simp only [hperm.mem_iff]
  cases h : (ofInter t shapes).get? name with
  | none =>
    cases h' : (ofInter t' shapes').get? name with
    | none => rfl
    | some e' => simp [h, h'] at hsome
  | some e =>
    obtain ⟨e', h'⟩ := hsome.mpr ⟨e, h⟩
    have hpublic := (wins_of_get?_ofInter hsorted t name h).isPublic_iff
    have hpublic' := (wins_of_get?_ofInter hsorted' t' name h').isPublic_iff
    simp only [← hperm.mem_iff] at hpublic'
    rw [h', Option.map_some, Option.map_some, Option.some.injEq, ← Bool.not_inj_iff,
      Bool.eq_iff_iff, Bool.not_eq_true', Bool.not_eq_true', hpublic, hpublic']

end Permuted

end Order

/-- The shape of an intersection has an entry for just the names that some member has.  The entry is
public if and only if some member's is, and it is the last public one, or the last one if none is
public.  So neither the names nor their visibility depend on the order of the members. -/
theorem last_public_entry_wins (t : Ty) {shapes : List Shape}
    (hsorted : ∀ s ∈ shapes, Keyed.Sorted s.methods) :
    (∀ name, name ∈ (ofInter t shapes).methodNames ↔ ∃ s ∈ shapes, name ∈ s.methodNames) ∧
    (∀ name e, (ofInter t shapes).get? name = some e →
      (e.isPrivate = false ↔
        ∃ s ∈ shapes, ∃ e', s.get? name = some e' ∧ e'.isPrivate = false) ∧
      Wins name shapes e) ∧
    ∀ shapes' t', shapes.Perm shapes' →
      (ofInter t' shapes').methodNames = (ofInter t shapes).methodNames ∧
      ∀ name, ((ofInter t' shapes').get? name).map (·.isPrivate) =
        ((ofInter t shapes).get? name).map (·.isPrivate) := by
  refine ⟨fun name => ?_, fun name e he => ?_, fun shapes' t' hperm => ⟨?_, fun name => ?_⟩⟩
  · simp only [mem_methodNames_iff]
    exact exists_get?_ofInter_iff hsorted t name
  · have hwins := wins_of_get?_ofInter hsorted t name he
    exact ⟨hwins.isPublic_iff, hwins⟩
  · exact methodNames_ofInter_perm hsorted t hperm t'
  · exact isPrivate_ofInter_perm hsorted t name hperm t'

/-- A public or private entry that returns a type. -/
def returning (t : Ty) (isPrivate : Bool) : Entry :=
  ⟨[⟨[], ⟨⟨{}, t⟩, none⟩, []⟩], isPrivate⟩

/-- Three shapes: the first method is public, public and private, the second private twice, and the
third comes once. -/
def threeMembers : List Shape :=
  [⟨.nil, [("a", returning .nil false), ("b", returning .nil true)]⟩,
    ⟨.bool, [("a", returning .bool false), ("c", returning .bool true)]⟩,
    ⟨.top, [("a", returning .top true), ("b", returning .top true)]⟩]

theorem entries_of_threeMembers :
    let s := ofInter .void threeMembers
    let s' := ofInter .void threeMembers.reverse
    s.get? "a" = some (returning .bool false) ∧ s.get? "b" = some (returning .top true) ∧
    s'.get? "a" = some (returning .nil false) ∧ s.methodNames = ["a", "b", "c"] ∧
    LastWith (fun e => e.isPrivate = false) "a" threeMembers (returning .bool false) ∧
    LastWith (fun _ => True) "b" threeMembers (returning .top true) ∧
    s'.methodNames = s.methodNames ∧
    (s'.get? "b").map (·.isPrivate) = (s.get? "b").map (·.isPrivate) := by
  intro s s'
  have hsorted : ∀ m ∈ threeMembers, Keyed.Sorted m.methods := by decide
  obtain ⟨-, hentry, horder⟩ := last_public_entry_wins .void hsorted
  have ha : s.get? "a" = some (returning .bool false) := by rfl
  have hb : s.get? "b" = some (returning .top true) := by rfl
  have hlast :
      LastWith (fun e => e.isPrivate = false) "a" threeMembers (returning .bool false) := by
    rcases (hentry "a" _ ha).2 with h | ⟨hprivate, -⟩
    · exact h
    · exact absurd (hprivate _ List.mem_cons_self (returning .nil false) rfl) (by decide)
  have hlast' : LastWith (fun _ => True) "b" threeMembers (returning .top true) := by
    rcases (hentry "b" _ hb).2 with h | ⟨-, h⟩
    · obtain ⟨-, -, -, hpublic⟩ := h.exists_mem
      cases hpublic
    · exact h
  have hperm := horder threeMembers.reverse .void (List.reverse_perm _).symm
  exact ⟨ha, hb, rfl, rfl, hlast, hlast', hperm.1, hperm.2 "b"⟩

end Shape
end TypeShape
