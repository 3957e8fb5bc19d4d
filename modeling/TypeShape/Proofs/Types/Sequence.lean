import TypeShape.Proofs.Types.Composition
import TypeShape.Proofs.Types.Nesting

/-!
# Replacing twice, member by member

Replacing by one substitution and then by another is replacing once, by the replaced images, and the
results are the same to the order of the members in every union and intersection.  For that it does
not matter whether repeated members are dropped before the second replacement or only after it: a
member that repeats an earlier one becomes nothing that the earlier one does not become.  What is
replaced need not be in normal form, as the first replacement leaves a normal form behind.

Main results:

- Theorem `Ty.Flattens.join_map_distinct`: repeated members can be dropped early.
- Theorems `Subst.replace_unionOf` and `Subst.replace_interOf`: replacement and joining commute.
- Theorem `Subst.replace_replace`: replacing twice is replacing once.
- Theorem `Subst.applyOverload_applyOverload`: the same for overloads.
-/

namespace TypeShape

namespace Ty

/-! ## Dropping repeated members early -/

/-- Types that repeat an earlier one can be left out before they are spread, if they are spread into
nothing that the earlier one is not spread into. -/
theorem distinct_flatMap_distinct {spread : Ty → List Ty} {ts : List Ty}
    (h : ∀ a ∈ ts, ∀ b ∈ ts, (a == b) = true → ∀ v ∈ spread b, ∃ u ∈ spread a, (u == v) = true) :
    distinct ((distinct ts).flatMap spread) = distinct (ts.flatMap spread) := by
  -- The types are added from the left, so the induction takes the last one away.
  induction ts using List.reverseRecOn with
  | nil => rfl
  | append_singleton ts t ih =>
    have hearlier := ih fun a ha b hb =>
      h a (List.mem_append_left _ ha) b (List.mem_append_left _ hb)
    have hlast : distinct (ts ++ [t]) = pushNew (distinct ts) t := by
      simp [distinct, List.foldl_append]
    rw [hlast, List.flatMap_append, ← distinct_distinct_append, ← hearlier]
    cases hany : (distinct ts).any (· == t) with
    | false =>
      rw [pushNew_of_not_any hany, List.flatMap_append, distinct_distinct_append]
    | true =>
      obtain ⟨u, hu, hut⟩ := List.any_eq_true.mp hany
      have hspread : ∀ v ∈ [t].flatMap spread,
          ∃ m ∈ distinct ((distinct ts).flatMap spread), (m == v) = true := by
        intro v hv
        rw [List.flatMap_singleton] at hv
        obtain ⟨w, hw, hwv⟩ := h u (List.mem_append_left _ (mem_of_mem_distinct hu)) t
          (by simp) hut v hv
        obtain ⟨m, hm, hmw⟩ := exists_mem_distinct (List.mem_flatMap.mpr ⟨u, hu, hw⟩)
        exact ⟨m, hm, beq_of_beq_of_beq hmw hwv⟩
      have hkept : distinct (distinct ((distinct ts).flatMap spread) ++ [t].flatMap spread) =
          distinct ((distinct ts).flatMap spread) := by
        rw [distinct_distinct_append, distinct, List.foldl_append]
        exact foldl_pushNew_eq_self hspread
      rw [pushNew_of_any hany, hkept]

/-- A way to join types that opens what it has joined before. -/
structure Flattens (join : List Ty → Ty) (parts : Ty → List Ty) : Prop where
  congr : ∀ {ts us : List Ty}, distinct (ts.flatMap parts) = distinct (us.flatMap parts) →
    join ts = join us
  nested : ∀ (xs : List Ty) {ys : List Ty} (zs : List Ty), (∀ t ∈ ys, t.Normal) →
    join (xs ++ join ys :: zs) = join (xs ++ ys ++ zs)
  covered : ∀ {t u : Ty}, (t == u) = true → Covered (parts t) (parts u)
  normal : ∀ {t u : Ty}, u ∈ parts t → t.Normal → u.Normal

/-- Unions open what they have joined before. -/
theorem flattens_unionOf : Flattens unionOf unionParts where
  congr := unionOf_congr
  nested xs _ zs hys := unionOf_nested xs zs fun t ht => (hys t ht).steady
  covered := covered_unionParts
  normal := all_of_mem_unionParts

/-- An intersection depends on the distinct parts of its members. -/
theorem interOf_congr {ts us : List Ty}
    (h : distinct (ts.flatMap interParts) = distinct (us.flatMap interParts)) :
    interOf ts = interOf us := by
  rw [interOf_eq ts, interOf_eq us, h]

/-- An intersection inside a list of types can be replaced by what it is the intersection of. -/
theorem interOf_nested (xs : List Ty) {ys : List Ty} (zs : List Ty) (hys : ∀ t ∈ ys, t.Normal) :
    interOf (xs ++ interOf ys :: zs) = interOf (xs ++ ys ++ zs) := by
  refine interOf_congr ?_
  rw [List.flatMap_append, List.flatMap_cons, interParts_interOf hys, ← List.append_assoc,
    ← distinct_distinct_append, distinct_append_distinct, distinct_distinct_append,
    List.flatMap_append, List.flatMap_append]

/-- Intersections open what they have joined before. -/
theorem flattens_interOf : Flattens interOf interParts where
  congr := interOf_congr
  nested := interOf_nested
  covered := covered_interParts
  normal := all_of_mem_interParts

namespace Flattens

variable {join : List Ty → Ty} {parts : Ty → List Ty} (hj : Flattens join parts)

include hj

/-- Joining what was joined is joining all that it was made of. -/
theorem join_map_join {α : Type} {f : α → List Ty} {xs : List α}
    (h : ∀ x ∈ xs, ∀ t ∈ f x, t.Normal) :
    join (xs.map fun x => join (f x)) = join (xs.flatMap f) := by
  have hopen : ∀ done : List Ty,
      join (done ++ xs.map fun x => join (f x)) = join (done ++ xs.flatMap f) := by
    induction xs with
    | nil => exact fun _ => rfl
    | cons x xs ih =>
      intro done
      obtain ⟨hx, hxs⟩ := List.forall_mem_cons.mp h
      rw [List.map_cons, hj.nested _ _ hx, ih hxs, List.flatMap_cons, List.append_assoc]
  exact hopen []

/-- Repeated types can be dropped before a map that keeps equal types equal. -/
theorem join_map_distinct {f : Ty → Ty} {ts : List Ty} (hf : ∀ t ∈ ts, (f t).Normal)
    (h : ∀ a ∈ ts, ∀ b ∈ ts, (a == b) = true → (f a == f b) = true) :
    join ((distinct ts).map f) = join (ts.map f) := by
  refine hj.congr ?_
  rw [List.flatMap_map, List.flatMap_map]
  refine distinct_flatMap_distinct fun a ha b hb hab v hv => ?_
  have hfba := beq_symm (hf a ha).wellFormed (hf b hb).wellFormed (h a ha b hb hab)
  obtain ⟨u, hu, hvu⟩ := hj.covered hfba v hv
  have hwv := (hj.normal hv (hf b hb)).wellFormed
  exact ⟨u, hu, beq_symm hwv (hj.normal hu (hf a ha)).wellFormed hvu⟩

end Flattens

end Ty

namespace Subst

variable {s o m : Subst}

/-- Replacement leaves a normal form behind, whatever it is carried out on. -/
theorem normal_replace_of_images {t : Ty} (himage : ∀ x ∈ t.occurrences, (s.imageOf x).Normal) :
    (s.replace t).Normal := by
  induction t using Ty.inductionOnParts with
  | step t ih =>
    have hparts : ∀ v ∈ t.parts.map s.replace, v.Normal := by
      intro v hv
      obtain ⟨u, hu, rfl⟩ := List.mem_map.mp hv
      exact ih u hu fun x hx => himage x (Ty.mem_occurrences_of_part hu hx)
    rcases t.form_cases with ⟨x, rfl⟩ | ⟨ms, rfl⟩ | ⟨ms, rfl⟩ | hr
    · rw [replace_toTy]
      exact himage x (by simp)
    · rw [replace_union]
      exact Ty.normal_unionOf hparts
    · rw [replace_inter]
      exact Ty.normal_interOf hparts
    · have hset := Ty.isSet_eq_false_of_isRigid (isRigid_replace (s := s) hr)
      rw [Ty.Normal, Ty.all_iff, parts_replace hr]
      exact ⟨Ty.setTest_normalHere.other _ hset, hparts⟩

/-! ## Joining and replacing -/

section Joining

variable (himage : ∀ x, (s.imageOf x).Normal)

include himage

/-- What the parts of some types become, without the repeated ones, is joined to what the types
become. -/
theorem join_map_replace_distinct {join : List Ty → Ty} {parts : Ty → List Ty}
    (hj : Ty.Flattens join parts)
    (hparts : ∀ t : Ty, t.Normal → s.replace t = join ((parts t).map s.replace)) {ts : List Ty}
    (hts : ∀ t ∈ ts, t.Normal) :
    join ((Ty.distinct (ts.flatMap parts)).map s.replace) = join (ts.map s.replace) := by
  have hflat : ∀ u ∈ ts.flatMap parts, u.Normal := by
    intro u hu
    obtain ⟨t, ht, hut⟩ := List.mem_flatMap.mp hu
    exact hj.normal hut (hts t ht)
  calc join ((Ty.distinct (ts.flatMap parts)).map s.replace)
      = join ((ts.flatMap parts).map s.replace) :=
        hj.join_map_distinct (fun u hu => normal_replace (hflat u hu) fun x _ => himage x)
          fun a ha b hb => beq_replace_of_beq (hflat a ha).wellFormed (hflat b hb).wellFormed
            fun x _ => (himage x).wellFormed
    _ = join (ts.flatMap fun t => (parts t).map s.replace) := by rw [List.map_flatMap]
    _ = join (ts.map fun t => join ((parts t).map s.replace)) :=
        (hj.join_map_join fun t ht => normal_map_replace himage fun u hu =>
          hj.normal hu (hts t ht)).symm
    _ = join (ts.map s.replace) := by rw [List.map_congr_left fun t ht => hparts t (hts t ht)]

/-- A replaced union is the union of the replaced types. -/
theorem replace_unionOf {ts : List Ty} (hts : ∀ t ∈ ts, t.Normal) :
    s.replace (Ty.unionOf ts) = Ty.unionOf (ts.map s.replace) := by
  by_cases hun : Ty.untyped ∈ ts
  · have hmap : Ty.untyped ∈ ts.map s.replace := List.mem_map.mpr ⟨.untyped, hun, rfl⟩
    rw [Ty.unionOf_of_mem_untyped hun, Ty.unionOf_of_mem_untyped hmap]
    rfl
  · have hdistinct : ∀ u ∈ Ty.distinct (ts.flatMap Ty.unionParts), u.Normal := by
      intro u hu
      obtain ⟨t, ht, hut⟩ := List.mem_flatMap.mp (Ty.mem_of_mem_distinct hu)
      exact Ty.all_of_mem_unionParts hut (hts t ht)
    rw [Ty.unionOf_eq_collapseUnion hts hun, replace_collapseUnion himage hdistinct]
    exact join_map_replace_distinct himage Ty.flattens_unionOf
      (fun _ ht => replace_eq_unionOf himage ht) hts

/-- A replaced intersection is the intersection of the replaced types. -/
theorem replace_interOf {ts : List Ty} (hts : ∀ t ∈ ts, t.Normal) :
    s.replace (Ty.interOf ts) = Ty.interOf (ts.map s.replace) := by
  have hdistinct : ∀ u ∈ Ty.distinct (ts.flatMap Ty.interParts), u.Normal := by
    intro u hu
    obtain ⟨t, ht, hut⟩ := List.mem_flatMap.mp (Ty.mem_of_mem_distinct hu)
    exact Ty.all_of_mem_interParts hut (hts t ht)
  rw [Ty.interOf_eq, replace_collapseInter himage hdistinct]
  exact join_map_replace_distinct himage Ty.flattens_interOf
    (fun _ ht => replace_eq_interOf himage ht) hts

end Joining

/-! ## Replacing twice -/

/-- Replacing twice in a rigid type is replacing once if it is so in its parts. -/
theorem replace_eq_of_isRigid {t : Ty} (h : t.isRigid = true)
    (hparts : ∀ u ∈ t.parts, m.replace u = o.replace (s.replace u)) :
    m.replace t = o.replace (s.replace t) := by
  have hlist : ∀ us : List Ty, (∀ u ∈ us, m.replace u = o.replace (s.replace u)) →
      us.map m.replace = (us.map s.replace).map o.replace := fun us hus => by
    rw [List.map_map]
    exact List.map_congr_left hus
  cases t with
  | named kind name args => simp only [replace, replaceList_eq_map, hlist args hparts]
  | tuple items => simp only [replace, replaceList_eq_map, hlist items hparts]
  | record fields =>
    simp only [replace, replaceFields_eq_map, List.map_map]
    congr 1
    refine List.map_congr_left fun f hf => ?_
    rw [hparts f.2 (List.mem_map.mpr ⟨f, hf, rfl⟩)]
    rfl
  | proc c =>
    simp only [replace, replaceCallable_eq_map]
    congr 1
    rw [Callable.eq_iff]
    simp only [Callable.frame_map, Callable.toList_map, hlist c.toList hparts, and_self]
  | slot s => simp [Ty.isRigid] at h
  | var x => simp [Ty.isRigid] at h
  | union ms => simp [Ty.isRigid] at h
  | inter ms => simp [Ty.isRigid] at h
  | _ => rfl

/-- Replacing by one substitution and then by another is replacing by a third one that maps what
occurs in the type as both do. -/
theorem replace_replace {t : Ty} (hs : ∀ x, (s.imageOf x).Normal) (ho : ∀ x, (o.imageOf x).Normal)
    (h : ∀ x ∈ t.occurrences, m.imageOf x = o.replace (s.imageOf x)) :
    m.replace t = o.replace (s.replace t) := by
  induction t using Ty.inductionOnParts with
  | step t ih =>
    have hparts : ∀ u ∈ t.parts, m.replace u = o.replace (s.replace u) := fun u hu =>
      ih u hu fun x hx => h x (Ty.mem_occurrences_of_part hu hx)
    have hmap : t.parts.map m.replace = (t.parts.map s.replace).map o.replace := by
      rw [List.map_map]
      exact List.map_congr_left hparts
    have hinner : ∀ u ∈ t.parts.map s.replace, u.Normal := by
      intro v hv
      obtain ⟨u, -, rfl⟩ := List.mem_map.mp hv
      exact normal_replace_of_images fun x _ => hs x
    rcases t.form_cases with ⟨x, rfl⟩ | ⟨ms, rfl⟩ | ⟨ms, rfl⟩ | hr
    · rw [replace_toTy, replace_toTy]
      exact h x (by simp)
    · rw [replace_union, replace_union]
      exact (congrArg Ty.unionOf hmap).trans (replace_unionOf ho hinner).symm
    · rw [replace_inter, replace_inter]
      exact (congrArg Ty.interOf hmap).trans (replace_interOf ho hinner).symm
    · exact replace_eq_of_isRigid hr hparts

/-! ## Overloads -/

/-- What holds of the types of an overload, under its type parameters, holds of the overload. -/
theorem applyOverload_applyOverload {d : Overload}
    (h : ∀ t ∈ d.types, (m.under d).apply t = (o.under d).apply ((s.under d).apply t)) :
    m.applyOverload d = o.applyOverload (s.applyOverload d) := by
  calc m.applyOverload d
      = d.mapTypes ((o.under d).apply ∘ (s.under d).apply) := Overload.mapTypes_congr h
    _ = (s.applyOverload d).mapTypes (o.under d).apply := (Overload.mapTypes_mapTypes _ _ d).symm
    _ = o.applyOverload (s.applyOverload d) := by
      rw [applyOverload_eq_mapTypes o, under_applyOverload]

end Subst
end TypeShape
