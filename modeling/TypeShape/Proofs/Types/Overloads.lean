import TypeShape.Proofs.Types.Substitution

/-!
# Overloads by their types

An overload is a frame of types: those of its callable and the bounds of its type parameters.
Substitution maps each of them and leaves the frame alone.

Main results:

- Theorem `Overload.mem_freeVars`: the free variables are what occurs in the types, less the type
  parameters of the overload.
- Theorem `Subst.types_applyOverload`: the types of a substituted overload.
-/

namespace TypeShape

/-! ## Free variables in order -/

instance : Std.LawfulEqOrd FreeVar where
  compare_self := by
    intro a
    rcases a with slot | name
    · cases slot <;> rfl
    · exact Std.ReflOrd.compare_self (a := name)
  eq_of_compare := by
    intro a b h
    rcases a with a | x <;> rcases b with b | y
    · cases a <;> cases b <;> first | rfl | cases h
    · cases a <;> cases h
    · cases b <;> cases h
    · exact congrArg FreeVar.var (Std.LawfulEqOrd.eq_of_compare h)

instance : Std.TransOrd FreeVar where
  eq_swap := by
    intro a b
    rcases a with a | x <;> rcases b with b | y
    · cases a <;> cases b <;> rfl
    · cases a <;> rfl
    · cases b <;> rfl
    · exact Std.OrientedOrd.eq_swap (a := x) (b := y)
  isLE_trans := by
    intro a b c hab hbc
    rcases a with a | x <;> rcases b with b | y <;> rcases c with c | z
    · revert hab hbc
      cases a <;> cases b <;> cases c <;> decide
    · cases a <;> rfl
    · cases c <;> cases hbc
    · cases a <;> rfl
    · cases b <;> cases hab
    · cases b <;> cases hab
    · cases c <;> cases hbc
    · exact Std.TransOrd.isLE_trans (a := x) (b := y) (c := z) hab hbc

/-- The free variables of a type are those that occur in it. -/
theorem Ty.mem_freeVars {t : Ty} {x : FreeVar} : x ∈ t.freeVars ↔ x ∈ t.occurrences :=
  Keyed.mem_sortKeys

/-- A type mentions a placeholder when one occurs in it. -/
theorem Ty.mentionsSlot_eq_false_iff {t : Ty} :
    t.mentionsSlot = false ↔ ∀ s, FreeVar.slot s ∉ t.occurrences := by
  unfold mentionsSlot
  rw [List.any_eq_false]
  constructor
  · intro h s hs
    exact h (.slot s) (Ty.mem_freeVars.mpr hs) rfl
  · rintro h (s | y) hx
    · exact absurd (Ty.mem_freeVars.mp hx) (h s)
    · simp [FreeVar.isSlot]

/-! ## Overloads -/

namespace Overload

/-- The types of an overload: those of its callable, then the bounds of its type parameters. -/
def types (o : Overload) : List Ty :=
  o.callable.toList ++ o.typeParams.flatMap fun p => p.bound.toList

/-- The names of the type parameters. -/
def paramNames (o : Overload) : List String :=
  o.typeParams.map (·.name)

/-- Every type of an overload is in normal form. -/
def Normal (o : Overload) : Prop :=
  ∀ t ∈ o.types, t.Normal

instance (o : Overload) : Decidable o.Normal :=
  inferInstanceAs (Decidable (∀ t ∈ o.types, t.Normal))

/-- What occurs in an overload occurs in one of its types. -/
theorem mem_occurrences {o : Overload} {x : FreeVar} :
    x ∈ o.occurrences ↔ ∃ t ∈ o.types, x ∈ t.occurrences := by
  simp only [occurrences, types, Ty.occurrencesCallable_eq_flatMap,
    Ty.occurrencesOption_eq_flatMap, List.mem_append, List.mem_flatMap]
  constructor
  · rintro (⟨t, ht, hx⟩ | ⟨p, hp, t, ht, hx⟩)
    · exact ⟨t, Or.inl ht, hx⟩
    · exact ⟨t, Or.inr ⟨p, hp, ht⟩, hx⟩
  · rintro ⟨t, ht | ⟨p, hp, ht⟩, hx⟩
    · exact Or.inl ⟨t, ht, hx⟩
    · exact Or.inr ⟨p, hp, t, ht, hx⟩

/-- The free variables of an overload occur in it and are none of its parameters. -/
theorem mem_freeVars {o : Overload} {x : FreeVar} :
    x ∈ o.freeVars ↔ x ∈ o.occurrences ∧ ∀ name ∈ o.paramNames, x ≠ .var name := by
  simp [freeVars, paramNames, List.mem_filter, Keyed.mem_sortKeys]

/-- The overload with each of its types mapped. -/
def mapTypes (f : Ty → Ty) (o : Overload) : Overload :=
  { o with
    typeParams := o.typeParams.map fun p => { p with bound := p.bound.map f }
    callable := o.callable.map f }

/-- Maps that agree on the types of an overload give one overload. -/
theorem mapTypes_congr {f g : Ty → Ty} {o : Overload} (h : ∀ t ∈ o.types, f t = g t) :
    o.mapTypes f = o.mapTypes g := by
  have hcallable : o.callable.map f = o.callable.map g :=
    Callable.map_congr fun t ht => h t (List.mem_append_left _ ht)
  have hparams : (o.typeParams.map fun p => { p with bound := p.bound.map f }) =
      o.typeParams.map fun p => { p with bound := p.bound.map g } := by
    refine List.map_congr_left fun p hp => ?_
    have hbound : p.bound.map f = p.bound.map g :=
      Option.map_congr fun t ht => h t (List.mem_append_right _
        (List.mem_flatMap.mpr ⟨p, hp, Option.mem_toList.mpr ht⟩))
    rw [hbound]
  unfold mapTypes
  rw [hcallable, hparams]

/-- Mapping the types of an overload twice is mapping them once. -/
theorem mapTypes_mapTypes (f g : Ty → Ty) (o : Overload) :
    (o.mapTypes f).mapTypes g = o.mapTypes (g ∘ f) := by
  simp only [mapTypes, List.map_map, Callable.map_map, Function.comp_def, Option.map_map]

/-- A function that fixes the types of an overload fixes the overload. -/
theorem mapTypes_eq_self {f : Ty → Ty} {o : Overload} (h : ∀ t ∈ o.types, f t = t) :
    o.mapTypes f = o := by
  have hcallable : o.callable.map id = o.callable := Callable.map_eq_self fun _ _ => rfl
  calc o.mapTypes f
      = o.mapTypes id := mapTypes_congr h
    _ = o := by simp [mapTypes, hcallable]

end Overload

namespace Subst

/-- The substitution that reaches the types of an overload: its own type parameters are spared. -/
def under (s : Subst) (o : Overload) : Subst :=
  s.without o.paramNames

/-- What is put in an overload for a name is what the substitution puts, or the name itself. -/
theorem imageOf_under (s : Subst) (o : Overload) (x : FreeVar) :
    (s.under o).imageOf x = s.imageOf x ∨ (s.under o).imageOf x = x.toTy := by
  cases x with
  | slot p => exact Or.inl rfl
  | var x =>
    simp only [imageOf, image?, under, get?_without]
    split
    · exact Or.inr rfl
    · exact Or.inl rfl

/-- An overload is substituted type by type, under its parameters. -/
theorem applyOverload_eq_mapTypes (s : Subst) (o : Overload) :
    s.applyOverload o = o.mapTypes (s.under o).apply :=
  rfl

/-- So its types are the images of its types. -/
theorem types_applyOverload (s : Subst) (o : Overload) :
    (s.applyOverload o).types = o.types.map (s.under o).apply := by
  simp only [applyOverload, Overload.types, applyCallable, Callable.toList_map, List.map_append,
    List.flatMap_map, List.map_flatMap, Option.toList_map]
  rfl

/-- Its parameters keep their names. -/
theorem paramNames_applyOverload (s : Subst) (o : Overload) :
    (s.applyOverload o).paramNames = o.paramNames := by
  simp [applyOverload, Overload.paramNames, Function.comp_def]

end Subst
end TypeShape
