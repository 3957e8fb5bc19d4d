import TypeShape.Proofs.Shape.Open
import TypeShape.Proofs.Types.Composition
import TypeShape.Proofs.Types.Interchange
import TypeShape.Proofs.Types.Merging

/-!
# Shapes that can stand for each other

Shapes are compared as types are, and without regard to where their overloads come from.  Renaming,
substituting and joining in an intersection make equal shapes of equal shapes.  The shape of a union
does not: overloads that members share are kept only if they also come from the same places, and
merged otherwise.  So shapes that are to stand for each other in a union must agree on the origins
of their overloads, too.

Main results:

- Theorem `Shape.matches_iff`: what it takes for shapes to stand for each other.
- Theorems `Shape.Matches.subst` and `Shape.Matches.ofInter`: substitutions and intersections
  respect the equality of shapes.
- Theorem `Shape.Matches.ofUnion`: unions respect it if the origins agree.
-/

namespace TypeShape

/-! ## Types -/

/-- Equal types that are well formed are the same one by one. -/
theorem Ty.AllEqual.same {ts us : List Ty} (h : Ty.AllEqual ts us) (ht : ∀ t ∈ ts, t.WellFormed)
    (hu : ∀ u ∈ us, u.WellFormed) : List.Forall₂ Ty.Same ts us := by
  induction h with
  | nil => exact .nil
  | cons hab _ ih =>
    obtain ⟨ha, has⟩ := List.forall_mem_cons.mp ht
    obtain ⟨hb, hbs⟩ := List.forall_mem_cons.mp hu
    exact .cons ⟨ha, hb, hab⟩ (ih has hbs)

/-- A substitution of well-formed types keeps types the same. -/
theorem Ty.Same.apply {t u : Ty} {s : Subst} (h : Ty.Same t u)
    (hs : ∀ x, (s.imageOf x).WellFormed) : Ty.Same (s.apply t) (s.apply u) :=
  ⟨Subst.wellFormed_apply h.left fun x _ => hs x, Subst.wellFormed_apply h.right fun x _ => hs x,
    Subst.beq_apply_of_beq h.left h.right (fun x _ => hs x) h.beq⟩

/-- So it does with types that are one or the same. -/
theorem Ty.Like.apply {t u : Ty} {s : Subst} (h : Ty.Like t u)
    (hs : ∀ x, (s.imageOf x).WellFormed) : Ty.Like (s.apply t) (s.apply u) := by
  rcases h with rfl | h
  · exact .refl _
  · exact Or.inr (h.apply hs)

/-- Merged parameters of the same types are the same. -/
theorem Ty.Same.mergeParam {t t' u u' : Ty} (h : Ty.Same t t') (h' : Ty.Same u u') :
    Ty.Same (Overload.mergeParam t u) (Overload.mergeParam t' u') := by
  unfold Overload.mergeParam
  rw [h.beq_eq h']
  split
  · exact h
  · exact (Ty.sameMembers_of_forall₂ (.cons h (.cons h' .nil))).interOf

/-! ## Overloads -/

/-- Both overloads are well formed, and they are equal.  If it matters, they have the same origins,
too. -/
structure Overload.Matches (traced : Prop) (a b : Overload) : Prop where
  left : a.WellFormed
  right : b.WellFormed
  beq : (a == b) = true
  origins : traced → a.origins = b.origins

namespace Overload.Matches

variable {traced : Prop} {a a' b b' c : Overload}

/-- A well-formed overload stands for itself. -/
theorem refl (h : a.WellFormed) : Matches traced a a :=
  ⟨h, h, beq_refl a, fun _ => rfl⟩

/-- Overloads stand for each other both ways. -/
theorem symm (h : Matches traced a b) : Matches traced b a :=
  ⟨h.right, h.left, beq_symm h.left h.right h.beq, fun ht => (h.origins ht).symm⟩

/-- Overloads that stand for one overload stand for each other. -/
theorem trans (h : Matches traced a b) (h' : Matches traced b c) : Matches traced a c :=
  ⟨h.left, h'.right, beq_trans h.left h.right h'.right h.beq h'.beq,
    fun ht => (h.origins ht).trans (h'.origins ht)⟩

/-- Origins can be left out of account. -/
theorem mono {traced' : Prop} (h : Matches traced a b) (ht : traced' → traced) :
    Matches traced' a b :=
  ⟨h.left, h.right, h.beq, fun ht' => h.origins (ht ht')⟩

/-- Overloads that stand for each other are equal to the same overloads. -/
theorem beq_eq (h : Matches traced a a') (h' : Matches traced b b') : (a == b) = (a' == b') := by
  have hforth : ∀ {a a' b b' : Overload}, Matches traced a a' → Matches traced b b' →
      (a == b) = true → (a' == b') = true := by
    intro a a' b b' h h' hab
    have hab' := beq_trans h.left h'.left h'.right hab h'.beq
    exact beq_trans h.right h.left h'.right h.symm.beq hab'
  rw [Bool.eq_iff_iff]
  exact ⟨hforth h h', hforth h.symm h'.symm⟩

/-- The types of overloads that stand for each other are the same one by one. -/
theorem types (h : Matches traced a b) : List.Forall₂ Ty.Same a.types b.types :=
  (beq_iff.mp h.beq).2.same h.left h.right

/-- Overloads that stand for each other have the same type parameters, so a substitution spares the
same variables. -/
theorem under_eq (h : Matches traced a b) (s : Subst) : s.under a = s.under b := by
  have hframe : a.frame = b.frame := (beq_iff.mp h.beq).1
  have hnames := congrArg (fun f => f.2.map Prod.fst) hframe
  simp only [frame, List.map_map] at hnames
  exact congrArg s.without hnames

/-- A substitution respects the equality of overloads. -/
theorem applyOverload {s : Subst} (h : Matches traced a b) (hs : ∀ x, (s.imageOf x).WellFormed) :
    Matches traced (s.applyOverload a) (s.applyOverload b) where
  left := Table.passes_applyOverload Ty.setTest_distinctHere hs h.left
  right := Table.passes_applyOverload Ty.setTest_distinctHere hs h.right
  beq := by
    have hunder : ∀ x, ((s.under a).imageOf x).WellFormed := by
      intro x
      rcases s.imageOf_under a x with hx | hx
      · rw [hx]
        exact hs x
      · rw [hx]
        exact Ty.setTest_distinctHere.toTy x
    refine beq_iff.mpr ⟨?_, ?_⟩
    · rw [Subst.frame_applyOverload, Subst.frame_applyOverload, (beq_iff.mp h.beq).1]
    · rw [Subst.types_applyOverload, Subst.types_applyOverload, ← h.under_eq s]
      unfold Ty.AllEqual
      rw [List.forall₂_map_left_iff, List.forall₂_map_right_iff]
      exact h.types.imp fun t u htu => (htu.apply hunder).beq
  origins := h.origins

/-- Overloads that stand for each other can be merged with the same overloads. -/
theorem alike_iff (h : Matches traced a a') (h' : Matches traced b b') :
    a.Alike b ↔ a'.Alike b' := by
  have hforth : ∀ {a a' b b' : Overload}, Matches traced a a' → Matches traced b b' →
      a.Alike b → a'.Alike b' := by
    intro a a' b b' h h' hab
    have hab' := hab.trans h.left h'.left h'.right (.of_beq h'.beq)
    exact Alike.trans h.right h.left h'.right (.of_beq h.symm.beq) hab'
  exact ⟨hforth h h', hforth h.symm h'.symm⟩

/-- The parameters of overloads that stand for each other are the same. -/
theorem params (h : Matches traced a b) : a.params.Rel Ty.Same b.params := by
  obtain ⟨hlayout, htypes⟩ := Params.rel_iff.mp (beq_iff_arrow.mp h.beq).2.1.1
  exact Params.rel_iff.mpr ⟨hlayout, Ty.AllEqual.same htypes
    (fun t ht => h.left t (mem_types_of_params ht)) fun t ht => h.right t (mem_types_of_params ht)⟩

/-- The results of overloads that stand for each other are the same. -/
theorem result (h : Matches traced a b) : Ty.Same a.result b.result :=
  ⟨h.left _ a.result_mem_types, h.right _ b.result_mem_types, (beq_iff_arrow.mp h.beq).2.1.2⟩

/-- Joining respects the equality of overloads. -/
theorem joined (h : Matches traced a a') (h' : Matches traced b b') (halike : a.Alike b)
    (hne : (a == b) = false) : Matches traced (a.joined b) (a'.joined b') := by
  have hmerge := merge?_of_alike halike hne
  have hmerge' := merge?_of_alike ((h.alike_iff h').mp halike) ((h.beq_eq h').symm.trans hne)
  have hcloses := Ty.setTest_distinctHere.closes
  have hparams := Params.Rel.zipWith (U := Ty.Same) (f := mergeParam)
    (fun _ _ _ _ ht hu => ht.mergeParam hu) h.params h'.params halike.layout
  have hresult := (Ty.sameMembers_of_forall₂ (.cons h.result (.cons h'.result .nil))).unionOf
  obtain ⟨htypeParams, -, hblock⟩ := beq_iff_arrow.mp h.beq
  obtain ⟨hlayout, htypes⟩ := Params.rel_iff.mp hparams
  refine ⟨Holds.merge? hcloses h.left h'.left hmerge, Holds.merge? hcloses h.right h'.right hmerge',
    beq_iff_arrow.mpr ⟨htypeParams, ⟨Params.rel_iff.mpr ⟨hlayout, ?_⟩, hresult.beq⟩, hblock⟩,
    fun ht => ?_⟩
  · exact htypes.imp fun t u htu => htu.beq
  · exact congrArg₂ Keyed.unionKeys (h.origins ht) (h'.origins ht)

/-- Merging respects the equality of overloads, and the origins of what is merged. -/
theorem merge? (h : Matches traced a a') (h' : Matches traced b b') :
    Option.Rel (Matches traced) (a.merge? b) (a'.merge? b') := by
  have horigins : traced → mergeOrigins a b = mergeOrigins a' b' := fun ht =>
    congrArg₂ Keyed.unionKeys (h.origins ht) (h'.origins ht)
  have hbeq := h.beq_eq h'
  by_cases halike : a.Alike b
  · have halike' := (h.alike_iff h').mp halike
    cases heq : a == b with
    | true =>
      rw [merge?_of_beq heq, merge?_of_beq (hbeq.symm.trans heq)]
      exact .some ⟨h.left, h.right, h.beq, horigins⟩
    | false =>
      rw [merge?_of_alike halike heq, merge?_of_alike halike' (hbeq.symm.trans heq)]
      exact .some (h.joined h' halike heq)
  · have halike' := fun hal => halike ((h.alike_iff h').mpr hal)
    rw [merge?_of_not_alike halike, merge?_of_not_alike halike']
    exact .none

end Overload.Matches

/-! ## Lists of overloads -/

namespace Shape

variable {traced : Prop} {left left' right right' : List Overload}

/-- Lists of overloads that stand for each other are equal to the same lists. -/
theorem beq_overloads_eq (hl : List.Forall₂ (Overload.Matches traced) left left')
    (hr : List.Forall₂ (Overload.Matches traced) right right') :
    (left == right) = (left' == right') := by
  induction hl generalizing right right' with
  | nil => cases hr <;> rfl
  | cons h _ ih =>
    cases hr with
    | nil => rfl
    | cons h' hr => rw [List.cons_beq_cons, List.cons_beq_cons, h.beq_eq h', ih hr]

/-- Overloads that stand for each other come from the same places. -/
theorem map_origins_eq (ht : traced) (h : List.Forall₂ (Overload.Matches traced) left left') :
    left.map (·.origins) = left'.map (·.origins) := by
  induction h with
  | nil => rfl
  | cons h _ ih => rw [List.map_cons, List.map_cons, h.origins ht, ih]

/-- Whether lists of overloads agree, origins included, depends only on what they stand for. -/
theorem sameOverloads_eq (ht : traced) (hl : List.Forall₂ (Overload.Matches traced) left left')
    (hr : List.Forall₂ (Overload.Matches traced) right right') :
    sameOverloads left right = sameOverloads left' right' := by
  unfold sameOverloads allOrigins
  rw [beq_overloads_eq hl hr, List.flatMap_def, List.flatMap_def, List.flatMap_def,
    List.flatMap_def, map_origins_eq ht hl, map_origins_eq ht hr]

/-- Pushing an overload respects what the others stand for. -/
theorem pushOverload_rel {a b : Overload} (hl : List.Forall₂ (Overload.Matches traced) left left')
    (h : Overload.Matches traced a b) :
    List.Forall₂ (Overload.Matches traced) (pushOverload left a) (pushOverload left' b) := by
  have hany : (left.any (· == a)) = left'.any (· == b) := by
    induction hl with
    | nil => rfl
    | cons h' _ ih => rw [List.any_cons, List.any_cons, h'.beq_eq h, ih]
  unfold pushOverload
  rw [hany]
  split
  · exact hl
  · exact List.rel_append hl (.cons h .nil)

/-- Merging every overload with every other respects what they stand for. -/
theorem crossOverloads_rel (hl : List.Forall₂ (Overload.Matches traced) left left')
    (hr : List.Forall₂ (Overload.Matches traced) right right') :
    List.Forall₂ (Overload.Matches traced) (crossOverloads left right)
      (crossOverloads left' right') := by
  have hmerged := List.rel_flatMap hl fun a a' ha =>
    List.rel_filterMap (fun b b' hb => ha.merge? hb) hr
  exact List.rel_foldl (P := List.Forall₂ (Overload.Matches traced)) (R := Overload.Matches traced)
    (fun _ _ hos _ _ ho => pushOverload_rel hos ho) .nil hmerged

/-- The overloads in common respect what is shared, if it comes from the same places. -/
theorem commonOverloads?_rel (ht : traced)
    (hl : List.Forall₂ (Overload.Matches traced) left left')
    (hr : List.Forall₂ (Overload.Matches traced) right right') :
    Option.Rel (List.Forall₂ (Overload.Matches traced)) (commonOverloads? left right)
      (commonOverloads? left' right') := by
  unfold commonOverloads?
  rw [sameOverloads_eq ht hl hr]
  split
  · exact .some hl
  · have hcross := crossOverloads_rel hl hr
    revert hcross
    generalize crossOverloads left right = merged
    generalize crossOverloads left' right' = merged'
    intro hcross
    cases hcross with
    | nil => exact .none
    | cons h hrest => exact .some (.cons h hrest)

end Shape

/-! ## Entries and shapes -/

instance : ReflBEq Overload :=
  ⟨Overload.beq_refl _⟩

instance : ReflBEq Entry where
  rfl {e} := by
    change (e.overloads == e.overloads && e.isPrivate == e.isPrivate) = true
    simp

instance : ReflBEq Shape where
  rfl {s} := by
    change (s.type == s.type && s.methods == s.methods) = true
    simp

/-- Entries whose overloads stand for each other, both public or both private. -/
structure Entry.Matches (traced : Prop) (e f : Entry) : Prop where
  overloads : List.Forall₂ (Overload.Matches traced) e.overloads f.overloads
  isPrivate : e.isPrivate = f.isPrivate

/-- Shapes of types that are the same, whose methods have the same names and entries that stand for
each other. -/
structure Shape.Matches (traced : Prop) (s s' : Shape) : Prop where
  type : Ty.Same s.type s'.type
  methods : EntriesRel (Entry.Matches traced) s.methods s'.methods

/-- Where the overloads of every method come from. -/
def Shape.origins (s : Shape) : List (List (List Origin)) :=
  s.methods.map fun m => m.2.overloads.map (·.origins)

namespace Shape

variable {traced : Prop} {s s' s'' : Shape}

/-- The overloads in common with several entries. -/
theorem foldlM_commonOverloads_rel (ht : traced) {es fs : List Entry} {left left' : List Overload}
    (hl : List.Forall₂ (Overload.Matches traced) left left')
    (h : List.Forall₂ (Entry.Matches traced) es fs) :
    Option.Rel (List.Forall₂ (Overload.Matches traced))
      (es.foldlM (fun merged e => commonOverloads? merged e.overloads) left)
      (fs.foldlM (fun merged e => commonOverloads? merged e.overloads) left') := by
  induction h generalizing left left' with
  | nil => exact .some hl
  | @cons e f es fs hef _ ih =>
    rw [List.foldlM_cons, List.foldlM_cons]
    exact optionRel_bind (commonOverloads?_rel ht hl hef.overloads) fun _ _ h => ih h

/-- The entry in common respects the entries of all members. -/
theorem commonEntry?_rel (ht : traced) {es fs : List Entry}
    (h : List.Forall₂ (Entry.Matches traced) es fs) :
    Option.Rel (Entry.Matches traced) ( commonEntry? es) ( commonEntry? fs) := by
  have hprivate : es.any (·.isPrivate) = fs.any (·.isPrivate) := by
    induction h with
    | nil => rfl
    | cons hef _ ih => rw [List.any_cons, List.any_cons, hef.isPrivate, ih]
  cases h with
  | nil => exact .none
  | @cons e f es fs hef hrest =>
    have hfold := foldlM_commonOverloads_rel ht hef.overloads hrest
    exact optionRel_bind hfold fun _ _ h => .some ⟨h, hprivate⟩

/-- The entries of one method correspond in shapes that stand for each other. -/
theorem entries?_rel {ss ss' : List Shape} (h : List.Forall₂ (Matches traced) ss ss')
    (name : String) :
    Option.Rel (List.Forall₂ (Entry.Matches traced)) (entries? name ss) (entries? name ss') := by
  unfold entries?
  induction h with
  | nil => exact .some .nil
  | @cons s s' ss ss' hs _ ih =>
    rw [List.mapM_cons, List.mapM_cons]
    refine optionRel_bind (Keyed.get?_rel hs.methods name) fun _ _ he => ?_
    exact optionRel_bind ih fun _ _ hes => .some (.cons he hes)

/-- Adding a method respects the methods that are there. -/
theorem addMethod_rel {ms ms' : List (String × Entry)} {m m' : String × Entry}
    (h : EntriesRel (Entry.Matches traced) ms ms')
    (hm : m.1 = m'.1 ∧ Entry.Matches traced m.2 m'.2) :
    EntriesRel (Entry.Matches traced) (addMethod ms m) (addMethod ms' m') := by
  obtain ⟨name, e⟩ := m
  obtain ⟨name', e'⟩ := m'
  obtain ⟨rfl, hentry⟩ := hm
  have hinsert := Keyed.entriesRel_insert (k := name) h hentry
  have hget := Keyed.get?_rel h name
  unfold addMethod
  revert hget
  generalize Keyed.get? name ms = existing
  generalize Keyed.get? name ms' = existing'
  intro hget
  cases hget with
  | none => exact hinsert
  | @some f f' hf =>
    have hkeep : (!f.isPrivate && e.isPrivate) = (!f'.isPrivate && e'.isPrivate) := by
      rw [hf.isPrivate, hentry.isPrivate]
    simp only [hkeep]
    split
    · exact h
    · exact hinsert

/-- So does adding several. -/
theorem foldl_addMethod_rel {ms ms' ns ns' : List (String × Entry)}
    (h : EntriesRel (Entry.Matches traced) ms ms')
    (hns : EntriesRel (Entry.Matches traced) ns ns') :
    EntriesRel (Entry.Matches traced) (ns.foldl addMethod ms) (ns'.foldl addMethod ms') := by
  induction hns generalizing ms ms' with
  | nil => exact h
  | cons hm _ ih => exact ih (addMethod_rel h hm)

namespace Matches

/-- A well-formed shape stands for itself. -/
theorem refl (h : s.WellFormed) : Matches traced s s where
  type := .refl h.type
  methods := List.forall₂_same.mpr fun m hm =>
    ⟨rfl, List.forall₂_same.mpr fun o ho => .refl (h.methods m hm o ho), rfl⟩

/-- Shapes stand for each other both ways. -/
theorem symm (h : Matches traced s s') : Matches traced s' s where
  type := h.type.symm
  methods := by
    refine List.Forall₂.flip (h.methods.imp fun _ _ hm => ⟨hm.1.symm, ?_, hm.2.isPrivate.symm⟩)
    exact (hm.2.overloads.imp fun _ _ ho => ho.symm).flip

/-- Shapes that stand for one shape stand for each other. -/
theorem trans (h : Matches traced s s') (h' : Matches traced s' s'') : Matches traced s s'' where
  type := h.type.trans h'.type
  methods := by
    refine forall₂_trans (fun _ _ _ hm hm' => ⟨hm.1.trans hm'.1, ?_, ?_⟩) h.methods h'.methods
    · exact forall₂_trans (fun _ _ _ ho ho' => ho.trans ho') hm.2.overloads hm'.2.overloads
    · exact hm.2.isPrivate.trans hm'.2.isPrivate

/-- Origins can be left out of account. -/
theorem mono {traced' : Prop} (h : Matches traced s s') (ht : traced' → traced) :
    Matches traced' s s' where
  type := h.type
  methods := h.methods.imp fun _ _ hm =>
    ⟨hm.1, hm.2.overloads.imp fun _ _ ho => ho.mono ht, hm.2.isPrivate⟩

/-- Renaming keeps the methods. -/
theorem relabel {t t' : Ty} (h : Matches traced s s') (ht : Ty.Same t t') :
    Matches traced (s.relabel t) (s'.relabel t') :=
  ⟨ht, h.methods⟩

/-- A substitution respects what shapes stand for. -/
theorem subst {σ : Subst} {label label' : Option Ty} (h : Matches traced s s')
    (hσ : ∀ x, (σ.imageOf x).WellFormed) (hlabel : Option.Rel Ty.Same label label') :
    Matches traced (s.subst σ label) (s'.subst σ label') where
  type := by
    cases hlabel with
    | none => exact h.type.apply hσ
    | some ht => exact ht
  methods := by
    refine List.rel_map (fun m m' hm => ⟨hm.1, ?_, hm.2.isPrivate⟩) h.methods
    exact List.rel_map (fun _ _ ho => ho.applyOverload hσ) hm.2.overloads

/-- An intersection respects what its members stand for. -/
theorem ofInter {t t' : Ty} {ss ss' : List Shape} (ht : Ty.Same t t')
    (h : List.Forall₂ (Matches traced) ss ss') :
    Matches traced (ofInter t ss) (ofInter t' ss') where
  type := ht
  methods := List.rel_foldl (P := EntriesRel (Entry.Matches traced)) (R := Matches traced)
    (fun _ _ hms _ _ hs => foldl_addMethod_rel hms hs.methods) .nil h

/-- A union respects what its members stand for, if their overloads come from the same places. -/
theorem ofUnion {t t' : Ty} {ss ss' : List Shape} (htraced : traced) (ht : Ty.Same t t')
    (h : List.Forall₂ (Matches traced) ss ss') :
    Matches traced (ofUnion t ss) (ofUnion t' ss') where
  type := by rw [type_ofUnion, type_ofUnion]; exact ht
  methods := by
    cases h with
    | nil => exact .nil
    | @cons s s' ss ss' hs hrest =>
      have hnames : s.methodNames = s'.methodNames := (entriesRel_iff.mp hs.methods).1
      have hall := entries?_rel (.cons hs hrest)
      change EntriesRel _ (s.methodNames.filterMap _) (s'.methodNames.filterMap _)
      rw [hnames]
      refine List.rel_filterMap (R := Eq) ?_ (List.forall₂_eq_eq_eq ▸ rfl)
      rintro name _ rfl
      have hentry := optionRel_bind (hall name) fun _ _ h => commonEntry?_rel htraced h
      simp only [Option.map_eq_bind]
      exact optionRel_bind hentry fun _ _ he => .some ⟨rfl, he⟩

end Matches

/-- Lists of overloads stand for each other if they are well formed and equal and come from the same
places where this matters. -/
theorem forall₂_overloads_iff {left right : List Overload} :
    List.Forall₂ (Overload.Matches traced) left right ↔
      (∀ o ∈ left, o.WellFormed) ∧ (∀ o ∈ right, o.WellFormed) ∧ (left == right) = true ∧
        (traced → left.map (·.origins) = right.map (·.origins)) := by
  induction left generalizing right with
  | nil => cases right <;> simp
  | cons a left ih =>
    cases right with
    | nil => simp
    | cons b right =>
      rw [List.forall₂_cons, ih, List.forall_mem_cons, List.forall_mem_cons, List.cons_beq_cons,
        Bool.and_eq_true, List.map_cons, List.map_cons]
      constructor
      · rintro ⟨⟨ha, hb, hab, ho⟩, hl, hr, hbeq, hos⟩
        exact ⟨⟨ha, hl⟩, ⟨hb, hr⟩, ⟨hab, hbeq⟩, fun ht => by rw [ho ht, hos ht]⟩
      · rintro ⟨⟨ha, hl⟩, ⟨hb, hr⟩, ⟨hab, hbeq⟩, hos⟩
        exact ⟨⟨ha, hb, hab, fun ht => (List.cons.inj (hos ht)).1⟩, hl, hr, hbeq,
          fun ht => (List.cons.inj (hos ht)).2⟩

/-- Entries stand for each other if their overloads do and they are equal. -/
theorem entry_matches_iff {e f : Entry} :
    Entry.Matches traced e f ↔ e.Holds Ty.WellFormed ∧ f.Holds Ty.WellFormed ∧ (e == f) = true ∧
      (traced → e.overloads.map (·.origins) = f.overloads.map (·.origins)) := by
  have hbeq : (e == f) = (e.overloads == f.overloads && e.isPrivate == f.isPrivate) := rfl
  rw [hbeq, Bool.and_eq_true, beq_iff_eq (a := e.isPrivate)]
  constructor
  · rintro ⟨hoverloads, hprivate⟩
    obtain ⟨he, hf, hbeq, horigins⟩ := forall₂_overloads_iff.mp hoverloads
    exact ⟨he, hf, ⟨hbeq, hprivate⟩, horigins⟩
  · rintro ⟨he, hf, ⟨hbeq, hprivate⟩, horigins⟩
    exact ⟨forall₂_overloads_iff.mpr ⟨he, hf, hbeq, horigins⟩, hprivate⟩

/-- So do methods with the same names. -/
theorem entriesRel_matches_iff {ms ns : List (String × Entry)} :
    EntriesRel (Entry.Matches traced) ms ns ↔
      (∀ m ∈ ms, m.2.Holds Ty.WellFormed) ∧ (∀ m ∈ ns, m.2.Holds Ty.WellFormed) ∧
        (ms == ns) = true ∧ (traced → ms.map (fun m => m.2.overloads.map (·.origins)) =
          ns.map fun m => m.2.overloads.map (·.origins)) := by
  induction ms generalizing ns with
  | nil => cases ns <;> simp [EntriesRel]
  | cons m ms ih =>
    cases ns with
    | nil => simp [EntriesRel]
    | cons n ns =>
      have hbeq : (m == n) = (m.1 == n.1 && m.2 == n.2) := rfl
      rw [entriesRel_cons, ih, entry_matches_iff, List.forall_mem_cons, List.forall_mem_cons,
        List.cons_beq_cons, hbeq, Bool.and_eq_true, Bool.and_eq_true, beq_iff_eq (a := m.1),
        List.map_cons, List.map_cons]
      constructor
      · rintro ⟨⟨hname, hm, hn, hmn, ho⟩, hms, hns, hbeq, hos⟩
        exact ⟨⟨hm, hms⟩, ⟨hn, hns⟩, ⟨⟨hname, hmn⟩, hbeq⟩, fun ht => by rw [ho ht, hos ht]⟩
      · rintro ⟨⟨hm, hms⟩, ⟨hn, hns⟩, ⟨⟨hname, hmn⟩, hbeq⟩, hos⟩
        exact ⟨⟨hname, hm, hn, hmn, fun ht => (List.cons.inj (hos ht)).1⟩, hms, hns, hbeq,
          fun ht => (List.cons.inj (hos ht)).2⟩

/-- What it takes for shapes to stand for each other: they are well formed and equal, and their
overloads come from the same places if this matters. -/
theorem matches_iff :
    Matches traced s s' ↔ s.WellFormed ∧ s'.WellFormed ∧ (s == s') = true ∧
      (traced → s.origins = s'.origins) := by
  have hbeq : (s == s') = (s.type == s'.type && s.methods == s'.methods) := rfl
  rw [hbeq, Bool.and_eq_true]
  constructor
  · rintro ⟨htype, hmethods⟩
    obtain ⟨hs, hs', hbeq, horigins⟩ := entriesRel_matches_iff.mp hmethods
    exact ⟨⟨htype.left, hs⟩, ⟨htype.right, hs'⟩, ⟨htype.beq, hbeq⟩, horigins⟩
  · rintro ⟨hs, hs', ⟨htype, hbeq⟩, horigins⟩
    exact ⟨⟨hs.type, hs'.type, htype⟩,
      entriesRel_matches_iff.mpr ⟨hs.methods, hs'.methods, hbeq, horigins⟩⟩

end Shape
end TypeShape
