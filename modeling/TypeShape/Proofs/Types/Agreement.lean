import TypeShape.Proofs.Subtyping
import TypeShape.Proofs.Types.Sequence

/-!
# Substitutions that agree

A substitution acts on a type only through its placeholders and variables, and on an overload only
through those that are free: what it makes of an overload's own type parameters does not count.  So
substitutions that agree there do the same, and one that replaces nothing there changes nothing.
The empty substitution is not carried out at all, and on types in normal form, and on no others,
that is what carrying it out would give.

Main results:

- Theorems `Subst.beq_apply_of_agree` and `Subst.beq_applyOverload_of_agree`: substitutions that
  agree on what is free.
- Theorem `Subst.replace_eq_apply_iff`: when not carrying out the empty substitution makes no
  difference.
- Theorem `Subst.depends_on_freeVars`: substitution depends on what is free, and on nothing else.
-/

namespace TypeShape
namespace Subst

variable {s s' : Subst}

/-- A built substitution stays one under the parameters of an overload. -/
theorem Built.under (hs : s.Built) (d : Overload) : (s.under d).Built where
  values e he := hs.values e (mem_foldl_erase he)
  anchors := hs.anchors

/-! ## Types -/

/-- Substitutions that agree on what occurs in a type make equal types of it. -/
theorem beq_apply_of_agree (hs : s.Built) (hs' : s'.Built) {t : Ty} (ht : t.Normal)
    (h : ∀ x ∈ t.occurrences, (s.imageOf x == s'.imageOf x) = true) :
    (s.apply t == s'.apply t) = true := by
  rw [apply_eq_replace ht, apply_eq_replace ht]
  exact beq_replace ht.wellFormed (fun x _ => hs.imageOf x) (fun x _ => hs'.imageOf x) h

/-- Carrying out the empty substitution brings a type into normal form. -/
theorem replace_eq_apply_iff (hs : s.isEmpty = true) {t : Ty} :
    s.replace t = s.apply t ↔ t.Normal := by
  constructor
  · intro h
    have hsame : s.replace t = t := by rw [h, apply, if_pos hs]
    rw [← hsame]
    refine normal_replace_of_images fun x _ => ?_
    rw [imageOf_of_isEmpty hs]
    cases x <;> rfl
  · exact fun ht => (apply_eq_replace ht).symm

/-! ## Overloads -/

/-- Under the type parameters of an overload, substitutions that agree on what is free in it agree
on everything that occurs in it. -/
theorem beq_imageOf_under_of_agree {d : Overload}
    (h : ∀ x ∈ d.freeVars, (s.imageOf x == s'.imageOf x) = true) {t : Ty} (ht : t ∈ d.types)
    {x : FreeVar} (hx : x ∈ t.occurrences) :
    ((s.under d).imageOf x == (s'.under d).imageOf x) = true := by
  rw [under, under, imageOf_without, imageOf_without]
  split
  · exact Ty.beq_refl _
  · rename_i hown
    refine h x (Overload.mem_freeVars.mpr ⟨Overload.mem_occurrences.mpr ⟨t, ht, hx⟩, ?_⟩)
    exact fun name hname hxn => hown ⟨name, hname, hxn⟩

/-- Substitutions that agree on what is free in an overload make equal overloads of it. -/
theorem beq_applyOverload_of_agree (hs : s.Built) (hs' : s'.Built) {d : Overload} (hd : d.Normal)
    (h : ∀ x ∈ d.freeVars, (s.imageOf x == s'.imageOf x) = true) :
    (s.applyOverload d == s'.applyOverload d) = true := by
  rw [Overload.beq_iff, frame_applyOverload, frame_applyOverload, types_applyOverload,
    types_applyOverload]
  refine ⟨rfl, ?_⟩
  unfold Ty.AllEqual
  rw [List.forall₂_map_left_iff, List.forall₂_map_right_iff, List.forall₂_same]
  intro t ht
  exact beq_apply_of_agree (hs.under d) (hs'.under d) (hd t ht)
    fun x hx => beq_imageOf_under_of_agree h ht hx

/-- A substitution that replaces nothing that is free in an overload leaves it as it is. -/
theorem applyOverload_eq_self_of_free {d : Overload} (hd : d.Normal)
    (h : ∀ x ∈ d.freeVars, s.image? x = none) : s.applyOverload d = d := by
  refine Overload.mapTypes_eq_self fun t ht => apply_eq_self (hd t ht) fun x hx => ?_
  refine imageOf_of_image?_none (image?_under_eq_none.mpr fun hfree => ?_)
  exact h x (Overload.mem_freeVars.mpr ⟨Overload.mem_occurrences.mpr ⟨t, ht, hx⟩, hfree⟩)

/-! ## What substitution depends on -/

/-- Substitutions that give equal results on the free variables of a type or overload give equal
results on the type or overload, whatever types they put in that can be built.  One that maps none
of them changes nothing.  So it makes no difference that the empty substitution is not carried out,
if and only if the type is in normal form. -/
theorem depends_on_freeVars (hs : s.Built) (hs' : s'.Built) :
    (∀ t : Ty, t.Normal → (∀ x ∈ t.freeVars, (s.apply x.toTy == s'.apply x.toTy) = true) →
      (s.apply t == s'.apply t) = true) ∧
    (∀ d : Overload, d.Normal →
      (∀ x ∈ d.freeVars, (s.apply x.toTy == s'.apply x.toTy) = true) →
        (s.applyOverload d == s'.applyOverload d) = true) ∧
    (∀ t : Ty, t.Normal → (∀ x ∈ t.freeVars, s.image? x = none) →
      s.apply t = t ∧ s.replace t = t) ∧
    (∀ d : Overload, d.Normal → (∀ x ∈ d.freeVars, s.image? x = none) →
      s.applyOverload d = d) ∧
    ∀ t : Ty, s.isEmpty = true → (s.replace t = s.apply t ↔ t.Normal) := by
  refine ⟨fun t ht h => ?_, fun d hd h => ?_, fun t ht h => ?_, fun d hd h => ?_, fun t he => ?_⟩
  · refine beq_apply_of_agree hs hs' ht fun x hx => ?_
    simpa only [apply_toTy] using h x (Ty.mem_freeVars.mpr hx)
  · refine beq_applyOverload_of_agree hs hs' hd fun x hx => ?_
    simpa only [apply_toTy] using h x hx
  · have hfixed : ∀ x ∈ t.occurrences, s.imageOf x = x.toTy := fun x hx =>
      imageOf_of_image?_none (h x (Ty.mem_freeVars.mpr hx))
    exact ⟨apply_eq_self ht hfixed, replace_eq_self ht hfixed⟩
  · exact applyOverload_eq_self_of_free hd h
  · exact replace_eq_apply_iff he

/-- The overload `[V] (V, T) -> W`. -/
def pairing : Overload where
  typeParams := [{ name := "V" }]
  callable := ⟨⟨{ required := [.var "V", .var "T"] }, .var "W"⟩, none⟩

/-- Two substitutions that write a union in different orders, and of which only one replaces the
type parameter of the overload. -/
theorem agreement_on_pairing :
    let s : Subst := { vars := [("T", .union [.nil, .var "V"])] }
    let s' : Subst := { vars := [("T", .union [.var "V", .nil]), ("V", .top)] }
    let t : Ty := .tuple [.var "T", .union [.var "W", .named .instanceOf .array [.var "T"]]]
    s.Built ∧ s'.Built ∧ (s.apply t == s'.apply t) = true ∧
      (s.applyOverload pairing == s'.applyOverload pairing) = true ∧
      Subst.applyOverload { vars := [("V", .top)] } pairing = pairing ∧
      Subst.empty.replace (.union [.nil]) ≠ Subst.empty.apply (.union [.nil]) := by
  intro s s' t
  have hbuilt : ∀ vars : List (String × Ty), (∀ e ∈ vars, e.2.WellFormed) →
      Subst.Built { vars } := fun vars h =>
    ⟨fun e he => Ty.built_iff_wellFormed.mpr (h e he), by rintro (_ | _ | _) t ⟨⟩⟩
  have hs : s.Built := hbuilt _ (by decide)
  have hs' : s'.Built := hbuilt _ (by decide)
  have hspared : Subst.Built { vars := [("V", .top)] } := hbuilt _ (by decide)
  have hempty : Subst.empty.Built := hbuilt [] (by decide)
  obtain ⟨htypes, hoverloads, -⟩ := depends_on_freeVars hs hs'
  obtain ⟨-, -, -, hfixed, -⟩ := depends_on_freeVars hspared hspared
  obtain ⟨-, -, -, -, hcarried⟩ := depends_on_freeVars hempty hempty
  refine ⟨hs, hs', htypes t (by decide) (by decide), hoverloads _ (by decide) (by decide),
    hfixed _ (by decide) (by decide), fun h => ?_⟩
  exact absurd ((hcarried (.union [.nil]) rfl).mp h) (by decide)

end Subst
end TypeShape
