import Mathlib.Data.List.Perm.Subperm
import TypeShape.Keyed
import TypeShape.Proofs.Types.Parts

/-!
# Entries in key order

How looking up, storing and erasing go together, and which entries an operation can bring in.

Main results:

- Theorems `Keyed.get?_insert` and `Keyed.get?_erase`: what is found after storing and erasing.
- Theorem `Keyed.eq_of_get?_eq`: entries in order are known from what is found under each key.
- Theorem `Keyed.mem_sortKeys`: sorting keys neither adds nor drops one.
- Theorems `Keyed.sortKeys_eq_of_mem_iff` and `Keyed.unionKeys_assoc`: the same keys are sorted
  alike.
- Theorem `Keyed.entriesRel_ofList`: related entries stay related when put in order.
- Theorem `Keyed.entriesRel_iff_get?`: entries are related in order when they are under each key.
-/

namespace TypeShape

instance : Std.LawfulEqOrd TypeName where
  compare_self := by
    intro a
    exact Std.ReflOrd.compare_self (a := a.text)
  eq_of_compare := by
    intro a b h
    obtain ⟨s⟩ := a
    obtain ⟨t⟩ := b
    exact congrArg TypeName.mk (Std.LawfulEqOrd.eq_of_compare (a := s) (b := t) h)

instance : Std.TransOrd TypeName where
  eq_swap := by
    intro a b
    have h : compare a.text b.text = (compare b.text a.text).swap := Std.OrientedCmp.eq_swap
    exact h
  isLE_trans := by
    intro a b c hab hbc
    have h : (compare a.text c.text).isLE := Std.TransCmp.isLE_trans (b := b.text) hab hbc
    exact h

instance : Std.LawfulEqOrd Literal where
  compare_self := by
    intro a
    cases a with
    | integer x => exact Std.ReflOrd.compare_self (a := x)
    | string x => exact Std.ReflOrd.compare_self (a := x)
    | symbol x => exact Std.ReflOrd.compare_self (a := x)
    | boolean x => exact Std.ReflOrd.compare_self (a := x)
  eq_of_compare := by
    have heq : ∀ {α : Type} [Ord α] [Std.LawfulEqOrd α] {x y : α}, compare x y = .eq → x = y :=
      Std.LawfulEqOrd.eq_of_compare
    intro a b h
    cases a <;> cases b <;> first | exact congrArg _ (heq h) | cases h

instance : Std.TransOrd Literal where
  eq_swap := by
    have hswap : ∀ {α : Type} [Ord α] [Std.OrientedOrd α] (x y : α),
        compare x y = (compare y x).swap := fun _ _ => Std.OrientedCmp.eq_swap
    intro a b
    rcases a with x | x | x | x <;> rcases b with y | y | y | y <;> first | rfl | exact hswap x y
  isLE_trans := by
    have htrans : ∀ {α : Type} [Ord α] [Std.TransOrd α] (x y z : α),
        (compare x y).isLE → (compare y z).isLE → (compare x z).isLE :=
      fun _ _ _ => Std.TransCmp.isLE_trans
    intro a b c hab hbc
    rcases a with x | x | x | x <;> rcases b with y | y | y | y <;>
      rcases c with z | z | z | z <;>
      first | rfl | (cases hab; done) | cases hbc | exact htrans x y z hab hbc

namespace Keyed

variable {κ ν μ : Type}

/-! ## Looking up -/

section Lookup

variable [DecidableEq κ] {k k' : κ} {v : ν} {es : List (κ × ν)}

/-- Nothing is found among no entries. -/
@[simp]
theorem get?_nil : get? k ([] : List (κ × ν)) = none :=
  rfl

/-- The first entry with a key is found. -/
theorem get?_cons {e : κ × ν} : get? k (e :: es) = if e.1 = k then some e.2 else get? k es :=
  rfl

/-- An entry that is found is there. -/
theorem mem_of_get? (h : get? k es = some v) : (k, v) ∈ es := by
  induction es with
  | nil => simp at h
  | cons e es ih =>
    rw [get?_cons] at h
    split at h
    · rename_i hk
      obtain rfl : e.2 = v := by simpa using h
      simp [← hk]
    · exact List.mem_cons_of_mem e (ih h)

/-- A key occurs if and only if something is found under it. -/
theorem mem_keys_iff : k ∈ es.map (·.1) ↔ ∃ v, get? k es = some v := by
  constructor
  · intro h
    induction es with
    | nil => cases h
    | cons e es ih =>
      rw [get?_cons]
      split
      · exact ⟨e.2, rfl⟩
      · rename_i hk
        exact ih (List.mem_of_ne_of_mem (Ne.symm hk) h)
  · rintro ⟨v, hv⟩
    exact List.mem_map_of_mem (mem_of_get? hv)

/-- An erased key is not found and all others are as before. -/
theorem get?_erase : get? k (erase k' es) = if k = k' then none else get? k es := by
  induction es with
  | nil => simp [erase]
  | cons e es ih =>
    unfold erase at ih ⊢
    by_cases he : e.1 = k'
    · rw [List.filter_cons_of_neg (by simpa using he), ih, get?_cons]
      grind
    · rw [List.filter_cons_of_pos (by simpa using he), get?_cons, get?_cons, ih]
      grind

/-- Looking up in related entries finds related values. -/
theorem get?_rel {R : ν → μ → Prop} {fs : List (κ × μ)} (h : EntriesRel R es fs) (k : κ) :
    Option.Rel R (get? k es) (get? k fs) := by
  induction h with
  | nil => exact .none
  | cons hef _ ih =>
    rw [get?_cons, get?_cons, hef.1]
    split
    · exact .some hef.2
    · exact ih

end Lookup

/-! ## Storing -/

section Storing

variable [Ord κ] {k k' : κ} {v : ν} {es : List (κ × ν)}

/-- After an insertion the entries are the new one and old ones. -/
theorem mem_insert {e : κ × ν} (h : e ∈ insert k v es) : e = (k, v) ∨ e ∈ es := by
  induction es with
  | nil => simpa [insert] using h
  | cons f es ih =>
    unfold insert at h
    split at h
    · simpa using h
    · rcases List.mem_cons.mp h with h | h
      · exact Or.inl h
      · exact Or.inr (List.mem_cons_of_mem f h)
    · rcases List.mem_cons.mp h with h | h
      · exact Or.inr (by simp [h])
      · rcases ih h with h | h
        · exact Or.inl h
        · exact Or.inr (List.mem_cons_of_mem f h)

/-- The same for the values. -/
theorem eq_or_mem_of_mem_values_insert {w : ν} (h : w ∈ (insert k v es).map (·.2)) :
    w = v ∨ w ∈ es.map (·.2) := by
  obtain ⟨e, he, rfl⟩ := List.mem_map.mp h
  rcases mem_insert he with rfl | he
  · exact Or.inl rfl
  · exact Or.inr (List.mem_map_of_mem he)

/-- Mapping the values and inserting commute. -/
theorem map_insert (f : ν → μ) (k : κ) (v : ν) (es : List (κ × ν)) :
    (insert k v es).map (fun e => (e.1, f e.2)) =
      insert k (f v) (es.map fun e => (e.1, f e.2)) := by
  induction es with
  | nil => rfl
  | cons e es ih =>
    rw [List.map_cons]
    unfold insert
    split
    · rfl
    · rfl
    · rw [List.map_cons, ih]

/-- The same for several insertions. -/
theorem mem_foldl_insert {es acc : List (κ × ν)} {e : κ × ν}
    (h : e ∈ es.foldl (fun acc e => insert e.1 e.2 acc) acc) : e ∈ acc ∨ e ∈ es := by
  induction es generalizing acc with
  | nil => exact Or.inl h
  | cons f es ih =>
    rcases ih h with h | h
    · rcases mem_insert h with h | h
      · exact Or.inr (by simp [h])
      · exact Or.inl h
    · exact Or.inr (List.mem_cons_of_mem f h)

/-- Putting entries in order brings in no new one. -/
theorem mem_of_mem_ofList {e : κ × ν} (h : e ∈ ofList es) : e ∈ es := by
  rcases mem_foldl_insert h with h | h
  · simp at h
  · exact h

/-- The inserted value is found and all other keys are as before. -/
theorem get?_insert [DecidableEq κ] [Std.LawfulEqOrd κ] :
    get? k (insert k' v es) = if k' = k then some v else get? k es := by
  induction es with
  | nil => rfl
  | cons f es ih =>
    unfold insert
    split
    · rw [get?_cons]
    · rename_i heq
      have hk : k' = f.1 := Std.LawfulEqOrd.eq_of_compare heq
      rw [get?_cons, get?_cons, ← hk]
      grind
    · rename_i hgt
      have hk : k' ≠ f.1 := by
        intro hk
        rw [hk, Std.ReflOrd.compare_self] at hgt
        cases hgt
      rw [get?_cons, get?_cons, ih]
      grind

/-- Of entries that are stored one after the other, the last one of a key is found. -/
theorem get?_foldl_insert [DecidableEq κ] [Std.LawfulEqOrd κ] {α : Type} (key : α → κ)
    (value : α → ν) (xs : List α) (es : List (κ × ν)) :
    get? k (xs.foldl (fun es x => insert (key x) (value x) es) es) =
      ((xs.reverse.find? fun x => key x = k).map value).or (get? k es) := by
  induction xs generalizing es with
  | nil => rfl
  | cons x xs ih =>
    have hlast : (List.find? (fun x => key x = k) [x]).map value =
        if key x = k then some (value x) else none := by
      by_cases h : key x = k <;> simp [h]
    rw [List.foldl_cons, ih, get?_insert, List.reverse_cons, List.find?_append, Option.map_or,
      Option.or_assoc, hlast]
    split <;> rfl

/-- Every key of a list is found in the list that it makes. -/
theorem exists_get?_ofList [DecidableEq κ] [Std.LawfulEqOrd κ] (h : k ∈ es.map (·.1)) :
    ∃ v, get? k (ofList es) = some v := by
  obtain ⟨e, he, rfl⟩ := List.mem_map.mp h
  obtain ⟨e', he'⟩ : ∃ e', (es.reverse.find? fun x => x.1 = e.1) = some e' := by
    rw [← Option.ne_none_iff_exists', Ne, List.find?_eq_none]
    exact fun hnone => hnone e (List.mem_reverse.mpr he) (by simp)
  have hget := get?_foldl_insert (k := e.1) (fun e : κ × ν => e.1) (fun e => e.2) es []
  rw [he'] at hget
  exact ⟨e'.2, hget⟩

/-- Related values are inserted into related entries. -/
theorem entriesRel_insert {R : ν → μ → Prop} {fs : List (κ × μ)} {w : μ}
    (h : EntriesRel R es fs) (hv : R v w) : EntriesRel R (insert k v es) (insert k w fs) := by
  induction h with
  | nil => exact .cons ⟨rfl, hv⟩ .nil
  | @cons e f es fs hef hrest ih =>
    obtain ⟨hk, hR⟩ := hef
    unfold insert
    rw [← hk]
    split
    · exact .cons ⟨rfl, hv⟩ (.cons ⟨rfl, hR⟩ hrest)
    · exact .cons ⟨rfl, hv⟩ hrest
    · exact .cons ⟨rfl, hR⟩ ih

/-- Related entries stay related when put in order. -/
theorem entriesRel_ofList {R : ν → μ → Prop} {fs : List (κ × μ)} (h : EntriesRel R es fs) :
    EntriesRel R (ofList es) (ofList fs) := by
  unfold ofList
  generalize hacc : ([] : List (κ × ν)) = acc
  generalize hacc' : ([] : List (κ × μ)) = acc'
  have hinit : EntriesRel R acc acc' := by
    subst hacc hacc'
    exact .nil
  clear hacc hacc'
  induction h generalizing acc acc' with
  | nil => exact hinit
  | @cons e f es fs hef _ ih =>
    rw [List.foldl_cons, List.foldl_cons, ← hef.1]
    exact ih _ _ (entriesRel_insert hinit hef.2)

end Storing

/-! ## Order -/

/-- The keys ascend. -/
def Sorted [Ord κ] (es : List (κ × ν)) : Prop :=
  es.Pairwise fun a b => compare a.1 b.1 = .lt

instance [Ord κ] (es : List (κ × ν)) : Decidable (Sorted es) :=
  inferInstanceAs (Decidable (List.Pairwise _ _))

section Order

variable [Ord κ] {k : κ} {v : ν} {es : List (κ × ν)}

/-- Mapping the values keeps the order of the keys. -/
theorem sorted_map {ν' : Type} {f : ν → ν'} (h : Sorted es) :
    Sorted (es.map fun e => (e.1, f e.2)) :=
  List.pairwise_map.mpr h

section Oriented

variable [Std.OrientedOrd κ]

/-- A key after all others is stored at the end. -/
theorem insert_of_forall_lt (h : ∀ e ∈ es, compare e.1 k = .lt) :
    insert k v es = es ++ [(k, v)] := by
  induction es with
  | nil => rfl
  | cons e es ih =>
    have hgt : compare k e.1 = .gt :=
      Std.OrientedCmp.gt_iff_lt.mpr (h e List.mem_cons_self)
    unfold insert
    rw [hgt, ih fun f hf => h f (List.mem_cons_of_mem e hf)]
    rfl

/-- Inserting sorted entries after smaller ones appends them. -/
theorem foldl_insert_of_sorted {acc : List (κ × ν)} (h : Sorted (acc ++ es)) :
    es.foldl (fun acc e => insert e.1 e.2 acc) acc = acc ++ es := by
  induction es generalizing acc with
  | nil => simp
  | cons e es ih =>
    have hlt : ∀ f ∈ acc, compare f.1 e.1 = .lt :=
      fun f hf => (List.pairwise_append.mp h).2.2 f hf e List.mem_cons_self
    rw [List.foldl_cons, insert_of_forall_lt hlt]
    have hrest : Sorted (acc ++ [(e.1, e.2)] ++ es) := by simpa using h
    simpa using ih hrest

/-- Entries in order are left as they are. -/
theorem ofList_eq_self (h : Sorted es) : ofList es = es :=
  foldl_insert_of_sorted h

/-- A key before which all stored keys stand is not stored. -/
theorem get?_eq_none_of_forall_lt [DecidableEq κ] (h : ∀ e ∈ es, compare e.1 k = .lt) :
    get? k es = none := by
  cases hg : get? k es with
  | none => rfl
  | some v =>
    have hlt := h _ (mem_of_get? hg)
    rw [Std.ReflOrd.compare_self] at hlt
    cases hlt

/-- In sorted entries, what is there is found. -/
theorem get?_eq_some_iff [DecidableEq κ] (h : Sorted es) : get? k es = some v ↔ (k, v) ∈ es := by
  refine ⟨mem_of_get?, fun hmem => ?_⟩
  induction es with
  | nil => simp at hmem
  | cons e es ih =>
    obtain ⟨he, hes⟩ := List.pairwise_cons.mp h
    rw [get?_cons]
    rcases List.mem_cons.mp hmem with rfl | hmem
    · exact if_pos rfl
    · have hlt : compare e.1 k = .lt := he _ hmem
      have hne : e.1 ≠ k := by
        rintro rfl
        rw [Std.ReflOrd.compare_self] at hlt
        cases hlt
      rw [if_neg hne, ih hes hmem]

/-- Lists that ascend and have the same elements are equal. -/
theorem eq_of_ascending {α : Type} {key : α → κ} {as bs : List α}
    (has : as.Pairwise fun a b => compare (key a) (key b) = .lt)
    (hbs : bs.Pairwise fun a b => compare (key a) (key b) = .lt) (h : ∀ a, a ∈ as ↔ a ∈ bs) :
    as = bs := by
  have hnodup : ∀ as : List α, (as.Pairwise fun a b => compare (key a) (key b) = .lt) →
      as.Nodup := by
    intro as has
    refine has.imp ?_
    rintro a _ hlt rfl
    rw [Std.ReflOrd.compare_self] at hlt
    cases hlt
  have hperm : as.Perm bs := (List.perm_ext_iff_of_nodup (hnodup as has) (hnodup bs hbs)).mpr h
  refine hperm.eq_of_pairwise ?_ has hbs
  intro a b _ _ hab hba
  rw [Std.OrientedCmp.gt_iff_lt.mpr hab] at hba
  cases hba

/-- Entries in order are known from what is found under each key. -/
theorem eq_of_get?_eq [DecidableEq κ] {fs : List (κ × ν)} (hes : Sorted es) (hfs : Sorted fs)
    (h : ∀ k, get? k es = get? k fs) : es = fs := by
  refine eq_of_ascending hes hfs fun e => ?_
  rw [← get?_eq_some_iff hes, ← get?_eq_some_iff hfs, h]

end Oriented

/-- Insertion keeps the order. -/
theorem sorted_insert [Std.TransOrd κ] [Std.LawfulEqOrd κ] (h : Sorted es) :
    Sorted (insert k v es) := by
  induction es with
  | nil => exact List.pairwise_singleton _ _
  | cons e es ih =>
    obtain ⟨he, hes⟩ := List.pairwise_cons.mp h
    unfold insert
    split
    · rename_i hlt
      refine List.pairwise_cons.mpr ⟨?_, h⟩
      intro f hf
      rcases List.mem_cons.mp hf with rfl | hf
      · exact hlt
      · exact Std.TransCmp.lt_trans hlt (he f hf)
    · rename_i heq
      have hk : k = e.1 := Std.LawfulEqOrd.eq_of_compare heq
      exact List.pairwise_cons.mpr ⟨fun f hf => hk ▸ he f hf, hes⟩
    · rename_i hgt
      refine List.pairwise_cons.mpr ⟨?_, ih hes⟩
      intro f hf
      rcases mem_insert hf with rfl | hf
      · exact Std.OrientedCmp.gt_iff_lt.mp hgt
      · exact he f hf

/-- Entries put in order are in order. -/
theorem sorted_foldl_insert [Std.TransOrd κ] [Std.LawfulEqOrd κ] {α : Type} (key : α → κ)
    (value : α → ν) (xs : List α) (h : Sorted es) :
    Sorted (xs.foldl (fun es x => insert (key x) (value x) es) es) :=
  List.foldlRecOn xs _ h fun _ h _ _ => sorted_insert h

/-- A list of entries becomes a sorted one. -/
theorem sorted_ofList [Std.TransOrd κ] [Std.LawfulEqOrd κ] : Sorted (ofList es) :=
  sorted_foldl_insert Prod.fst Prod.snd es List.Pairwise.nil

end Order

section Pairs

variable [Ord κ] [Std.LawfulEqOrd κ] [Std.TransOrd κ]

/-- As many entries under keys that all occur in the other list are entries under the same keys. -/
theorem keys_eq_of_subset {es : List (κ × ν)} {fs : List (κ × μ)} (hes : Sorted es)
    (hfs : Sorted fs) (hlen : es.length = fs.length) (hsub : es.map (·.1) ⊆ fs.map (·.1)) :
    es.map (·.1) = fs.map (·.1) := by
  have hascending : (es.map (·.1)).Pairwise fun a b => compare a b = .lt :=
    List.pairwise_map.mpr hes
  have hnodup : (es.map (·.1)).Nodup := by
    refine hascending.imp ?_
    rintro a _ hlt rfl
    rw [Std.ReflOrd.compare_self] at hlt
    cases hlt
  have hperm := (List.subperm_of_subset hnodup hsub).perm_of_length_le (by simp [hlen])
  exact eq_of_ascending hascending (List.pairwise_map.mpr hfs) fun k => hperm.mem_iff

/-- Two lists in key order are related entry by entry when they are equally long and each entry of
the first is related to what the second has under its key. -/
theorem entriesRel_iff_get? [DecidableEq κ] {R : ν → μ → Prop} {es : List (κ × ν)}
    {fs : List (κ × μ)} (hes : Sorted es) (hfs : Sorted fs) :
    EntriesRel R es fs ↔
      es.length = fs.length ∧ ∀ e ∈ es, ∃ w, get? e.1 fs = some w ∧ R e.2 w := by
  constructor
  · intro h
    refine ⟨h.length_eq, fun e he => ?_⟩
    have hrel := get?_rel h e.1
    rw [(get?_eq_some_iff hes).mpr he] at hrel
    cases hw : get? e.1 fs with
    | none =>
      rw [hw] at hrel
      cases hrel
    | some w =>
      rw [hw] at hrel
      exact ⟨w, rfl, Option.rel_some_some.mp hrel⟩
  · rintro ⟨hlen, hget⟩
    have hkeys : es.map (·.1) = fs.map (·.1) := by
      refine keys_eq_of_subset hes hfs hlen fun k hk => ?_
      obtain ⟨e, he, rfl⟩ := List.mem_map.mp hk
      obtain ⟨w, hw, -⟩ := hget e he
      exact List.mem_map_of_mem (mem_of_get? hw)
    have hpairs : List.Forall₂ Eq (es.map (·.1)) (fs.map (·.1)) := hkeys ▸ List.forall₂_refl _
    rw [List.forall₂_map_left_iff, List.forall₂_map_right_iff, List.forall₂_iff_zip] at hpairs
    refine List.forall₂_iff_zip.mpr ⟨hlen, fun {e f} hef => ⟨hpairs.2 hef, ?_⟩⟩
    obtain ⟨w, hw, hR⟩ := hget e (List.of_mem_zip hef).1
    have hf : get? e.1 fs = some f.2 := by
      rw [hpairs.2 hef]
      exact (get?_eq_some_iff hfs).mpr (List.of_mem_zip hef).2
    rw [hw] at hf
    rwa [← Option.some.inj hf]

end Pairs

/-! ## Sets of keys -/

/-- After a key is added the keys are the new one and old ones. -/
theorem eq_or_mem_of_addKey [Ord κ] {k x : κ} {ks : List κ} (h : x ∈ addKey k ks) :
    x = k ∨ x ∈ ks := by
  induction ks with
  | nil => exact Or.inl (List.mem_singleton.mp h)
  | cons l ks ih =>
    unfold addKey at h
    split at h
    · exact List.mem_cons.mp h
    · exact Or.inr h
    · rcases List.mem_cons.mp h with rfl | h
      · exact Or.inr List.mem_cons_self
      · exact (ih h).imp_right (List.mem_cons_of_mem l)

/-- Keys taken together come from one side or the other. -/
theorem mem_or_mem_of_unionKeys [Ord κ] {x : κ} {ks ls : List κ} (h : x ∈ unionKeys ks ls) :
    x ∈ ks ∨ x ∈ ls := by
  unfold unionKeys at h
  induction ls generalizing ks with
  | nil => exact Or.inl h
  | cons l ls ih =>
    rcases ih h with h | h
    · rcases eq_or_mem_of_addKey h with rfl | h
      · exact Or.inr List.mem_cons_self
      · exact Or.inl h
    · exact Or.inr (List.mem_cons_of_mem l h)

section Keys

variable [Ord κ] [Std.LawfulEqOrd κ] {k x : κ} {ks : List κ}

/-- The added key and the old ones are there. -/
theorem mem_addKey : x ∈ addKey k ks ↔ x = k ∨ x ∈ ks := by
  induction ks with
  | nil => simp [addKey]
  | cons l ks ih =>
    unfold addKey
    split
    · simp
    · rename_i heq
      rw [Std.LawfulEqOrd.eq_of_compare heq]
      simp
    · rw [List.mem_cons, ih, List.mem_cons]
      tauto

/-- The same for several keys. -/
theorem mem_foldl_addKey {ls : List κ} :
    x ∈ ls.foldl (fun acc k => addKey k acc) ks ↔ x ∈ ks ∨ x ∈ ls := by
  induction ls generalizing ks with
  | nil => simp
  | cons l ls ih =>
    rw [List.foldl_cons, ih, mem_addKey, List.mem_cons]
    tauto

/-- Sorting keys neither adds nor drops one. -/
theorem mem_sortKeys : x ∈ sortKeys ks ↔ x ∈ ks := by
  rw [sortKeys, mem_foldl_addKey]
  simp

/-- A union of keys has the keys of both. -/
theorem mem_unionKeys {ls : List κ} : x ∈ unionKeys ks ls ↔ x ∈ ks ∨ x ∈ ls :=
  mem_foldl_addKey

section Ascending

variable [Std.TransOrd κ]

/-- Adding a key keeps the order. -/
theorem ascending_addKey (h : ks.Pairwise fun a b => compare a b = .lt) :
    (addKey k ks).Pairwise fun a b => compare a b = .lt := by
  induction ks with
  | nil => exact List.pairwise_singleton _ _
  | cons l ks ih =>
    obtain ⟨hl, hks⟩ := List.pairwise_cons.mp h
    unfold addKey
    split
    · rename_i hlt
      refine List.pairwise_cons.mpr ⟨?_, h⟩
      intro x hx
      rcases List.mem_cons.mp hx with rfl | hx
      · exact hlt
      · exact Std.TransCmp.lt_trans hlt (hl x hx)
    · exact h
    · rename_i hgt
      refine List.pairwise_cons.mpr ⟨?_, ih hks⟩
      intro x hx
      rcases mem_addKey.mp hx with rfl | hx
      · exact Std.OrientedCmp.gt_iff_lt.mp hgt
      · exact hl x hx

/-- Sorted keys ascend. -/
theorem ascending_sortKeys (ks : List κ) :
    (sortKeys ks).Pairwise fun a b => compare a b = .lt :=
  List.foldlRecOn ks _ List.Pairwise.nil fun _ h _ _ => ascending_addKey h

/-- So does a union of keys. -/
theorem ascending_unionKeys {ls : List κ} (h : ks.Pairwise fun a b => compare a b = .lt) :
    (unionKeys ks ls).Pairwise fun a b => compare a b = .lt :=
  List.foldlRecOn ls _ h fun _ h _ _ => ascending_addKey h

/-- Lists of the same keys, in any order and any number, are sorted alike. -/
theorem sortKeys_eq_of_mem_iff {ls : List κ} (h : ∀ x, x ∈ ks ↔ x ∈ ls) :
    sortKeys ks = sortKeys ls := by
  refine eq_of_ascending (ascending_sortKeys ks) (ascending_sortKeys ls) fun x => ?_
  rw [mem_sortKeys, mem_sortKeys, h x]

/-- It does not matter how three sets of keys are taken together. -/
theorem unionKeys_assoc {ls ms : List κ} (h : ks.Pairwise fun a b => compare a b = .lt) :
    unionKeys (unionKeys ks ls) ms = unionKeys ks (unionKeys ls ms) := by
  refine eq_of_ascending (ascending_unionKeys (ascending_unionKeys h)) (ascending_unionKeys h)
    fun x => ?_
  rw [mem_unionKeys, mem_unionKeys, mem_unionKeys, mem_unionKeys, or_assoc]

end Ascending

end Keys
end Keyed
end TypeShape
