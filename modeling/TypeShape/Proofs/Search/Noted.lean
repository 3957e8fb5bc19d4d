import TypeShape.Proofs.Search.Resolve
import TypeShape.Proofs.Types.Interchange

/-!
# Goals of equal types

Notes are compared with types up to the order of members.  So a search may stop at a goal because
an equal one is being looked through, and not the same.  That never hides a shape: goals of equal
types in equal contexts lead to such goals again and have shapes alike, and a goal that leads back
to an equal one has none.

Main results:

- Theorem `Search.Leads.like`: goals that are alike lead to goals that are alike.
- Theorem `Search.Resolves.congr`: goals that are alike have shapes alike.
- Theorem `Search.not_resolves_of_noted`: a goal has no shape if it is reached from a goal of an
  equal type that is noted.
-/

namespace TypeShape

namespace Search

variable {T : Table}

/-! ## Direct goals -/

/-- A settled search that makes something of its answer has an answer if it has. -/
theorem exists_returns_map_some_iff {m : Search Shape} {h : Shape → Shape} (hm : Settled T m) :
    (∃ s, Returns T ((fun a => some (h a)) <$> m) (.ok (some s))) ↔ ∃ a, Returns T m (.ok a) := by
  obtain ⟨e | a, hr⟩ := hm
  · refine iff_of_false ?_ ?_
    · rintro ⟨s, hs⟩
      cases (hr.map _).unique hs
    · rintro ⟨a, ha⟩
      cases hr.unique ha
  · exact iff_of_true ⟨_, hr.map _⟩ ⟨a, hr⟩

/-- Whether a direct goal has a shape does not depend on the order of members in its type. -/
theorem exists_returns_direct_congr {t t' : Ty} {c : Context} {v : View}
    {search : Goal → Search (Option Shape)} (hd : t.isDirect = true) (hbeq : (t == t') = true)
    (h : ∃ s, Returns T (Goal.step T search ⟨t, c, v⟩) (.ok (some s))) :
    t'.isDirect = true ∧ ∃ s, Returns T (Goal.step T search ⟨t', c, v⟩) (.ok (some s)) := by
  have hhead := Ty.head_eq_of_beq hbeq
  have happlied : ∀ {name : TypeName} {args args' : List Ty} {a a' : Subst} {l l' : Option Ty}
      (k k' : Shape → Shape),
      (∃ s, Returns T ((fun b => some (k b)) <$> applied T name args a l) (.ok (some s))) →
      args.length = args'.length → a.vars = [] → a'.vars = [] →
      ∃ s, Returns T ((fun b => some (k' b)) <$> applied T name args' a' l') (.ok (some s)) := by
    intro name args args' a a' l l' k k' hs hlen ha ha'
    rw [exists_returns_map_some_iff (settled_applied name args l ha),
      exists_returns_applied_iff ha, hlen] at hs
    rw [exists_returns_map_some_iff (settled_applied name args' l' ha'),
      exists_returns_applied_iff ha']
    exact hs
  by_cases hatom : t.isAtom = true
  · rw [Ty.eq_of_head_of_isAtom hatom hhead.symm]
    exact ⟨hd, h⟩
  · cases t with
    | named kind name args =>
      obtain ⟨args', rfl⟩ := Ty.eq_named_of_head hhead.symm
      have hlen : args.length = args'.length := ((Ty.beq_iff_of_not_isSet rfl).mp hbeq).2.length_eq
      cases kind with
      | aliasOf => simp [Ty.isDirect] at hd
      | instanceOf => exact ⟨rfl, happlied id id h hlen rfl rfl⟩
      | interfaceOf => exact ⟨rfl, happlied id id h hlen rfl rfl⟩
    | tuple items =>
      obtain ⟨items', rfl⟩ := Ty.eq_tuple_of_head hhead.symm
      refine ⟨rfl, ?_⟩
      simp only [Goal.step, searchWith, Goal.bind_pure_map] at h ⊢
      exact happlied _ _ h rfl rfl rfl
    | record fields =>
      obtain ⟨fields', rfl⟩ := Ty.eq_record_of_head hhead.symm
      refine ⟨rfl, ?_⟩
      simp only [Goal.step, searchWith, Goal.bind_pure_map] at h ⊢
      exact happlied _ _ h rfl rfl rfl
    | proc callable =>
      obtain ⟨callable', rfl⟩ := Ty.eq_proc_of_head hhead.symm
      refine ⟨rfl, ?_⟩
      simp only [Goal.step, searchWith, Goal.bind_pure_map] at h ⊢
      rw [exists_returns_map_some_iff (settled_classShape _ _ _),
        exists_returns_classShape_iff] at h ⊢
      exact h
    | union ms => simp [Ty.isDirect] at hd
    | inter ms => simp [Ty.isDirect] at hd
    | _ => simp [Ty.isAtom] at hatom

/-- With the shapes of all types known, those of a list are known. -/
theorem returns_shapesOf_known (σ : Ty → Shape) (ts : List Ty) :
    Returns T (shapesOf (known σ) ts) (.ok (some (ts.map σ))) := by
  induction ts with
  | nil => exact .pure _
  | cons t ts ih => exact (Returns.pure _).bind (ih.bind (.pure _))

/-- When the shapes of the members are known, the groups have shapes if the classes of all literals
have, and otherwise there is an error. -/
theorem groups_cases (σ : Ty → Shape) (groups : List (Option TypeName × List Ty)) :
    (∃ shapes, Returns T (allGroupShapes T (known σ) groups) (.ok (some shapes)) ∧
      ∀ g ∈ groups, ∀ name, g.1 = some name → ∃ methods, instanceTable T name = .ok methods) ∨
    ∃ e, Returns T (allGroupShapes T (known σ) groups) (.error e) ∧
      ¬ ∀ g ∈ groups, ∀ name, g.1 = some name → ∃ methods, instanceTable T name = .ok methods := by
  induction groups with
  | nil => exact Or.inl ⟨[], .pure _, by simp⟩
  | cons g gs ih =>
    obtain ⟨name, ts⟩ := g
    simp only [List.forall_mem_cons]
    have hgroup : (∃ shapes, Returns T (groupShapes T (known σ) (name, ts)) (.ok (some shapes)) ∧
          ∀ n, name = some n → ∃ methods, instanceTable T n = .ok methods) ∨
        ∃ e, Returns T (groupShapes T (known σ) (name, ts)) (.error e) ∧
          ¬ ∀ n, name = some n → ∃ methods, instanceTable T n = .ok methods := by
      cases name with
      | none => exact Or.inl ⟨_, returns_shapesOf_known σ ts, by simp⟩
      | some name =>
        rcases classShape_cases (T := T) name (some (Ty.unionOf ts)) (some (Ty.unionOf ts)) with
          ⟨e, hr, hno⟩ | ⟨methods, hm, hr⟩
        · refine Or.inr ⟨e, hr.bind_error, fun hall => ?_⟩
          obtain ⟨methods, hm⟩ := hall name rfl
          exact hno methods hm
        · refine Or.inl ⟨_, hr.bind (.pure _), ?_⟩
          rintro n ⟨rfl⟩
          exact ⟨methods, hm⟩
    rcases hgroup with ⟨shapes, hr, hok⟩ | ⟨e, hr, hno⟩
    · rcases ih with ⟨rest, hr', hok'⟩ | ⟨e, hr', hno'⟩
      · exact Or.inl ⟨shapes ++ rest, hr.bind (hr'.bind (.pure _)), hok, hok'⟩
      · exact Or.inr ⟨e, hr.bind hr'.bind_error, fun hall => hno' hall.2⟩
    · exact Or.inr ⟨e, hr.bind_error, fun hall => hno hall.1⟩

/-- Whether the members of a union have shapes together does not depend on their order. -/
theorem exists_returns_groups_iff {σ : Ty → Shape} {ms : List Ty} :
    (∃ shapes, Returns T (allGroupShapes T (known σ) (memberGroups ms)) (.ok (some shapes))) ↔
      ∀ m ∈ ms, ∀ name, literalClass? m = some name →
        ∃ methods, instanceTable T name = .ok methods := by
  have hgrouped := grouped_memberGroups ms
  have hclasses : (∀ g ∈ memberGroups ms, ∀ name, g.1 = some name →
        ∃ methods, instanceTable T name = .ok methods) ↔
      ∀ m ∈ ms, ∀ name, literalClass? m = some name →
        ∃ methods, instanceTable T name = .ok methods := by
    constructor
    · intro h m hm name hl
      obtain ⟨g, hg, hc, -⟩ := hgrouped.group m hm
      exact h g hg name (hc.trans hl)
    · intro h g hg name hc
      obtain ⟨m, hm⟩ := List.exists_mem_of_ne_nil g.2 (hgrouped.nonempty g hg)
      obtain ⟨hmem, hl⟩ := hgrouped.mem g hg m hm
      exact h m hmem name (hl.trans hc)
  rw [← hclasses]
  rcases groups_cases (T := T) σ (memberGroups ms) with ⟨shapes, hr, hok⟩ | ⟨e, hr, hno⟩
  · exact iff_of_true ⟨shapes, hr⟩ hok
  · refine iff_of_false ?_ hno
    rintro ⟨shapes, hs⟩
    cases hr.unique hs

/-- Equal types are literals of one class, or neither is a literal. -/
theorem literalClass?_of_beq {t u : Ty} (h : (t == u) = true) :
    literalClass? t = literalClass? u := by
  have hhead := Ty.head_eq_of_beq h
  cases t with
  | literal value => rw [Ty.eq_of_head_of_isAtom rfl hhead.symm]
  | _ => cases u <;> simp_all [Ty.head, literalClass?]

/-- Shapes that exist for members can be known together. -/
theorem exists_known {P : Ty → Shape → Prop} {Q : Ty → Prop} {ms : List Ty}
    (h : ∀ m ∈ ms, Q m → ∃ s, P m s) : ∃ σ : Ty → Shape, ∀ m ∈ ms, Q m → P m (σ m) := by
  classical
  refine ⟨fun m => if hm : m ∈ ms ∧ Q m then (h m hm.1 hm.2).choose else ⟨.bot, []⟩, ?_⟩
  intro m hm hq
  simp only [dif_pos (And.intro hm hq)]
  exact (h m hm hq).choose_spec

/-! ## Equal types -/

/-- Members are distinct throughout the type, the anchors and the bounds of a goal. -/
structure Goal.WellFormed (g : Goal) : Prop where
  type : g.type.WellFormed
  anchors : ∀ p t, g.context.anchors.get? p = some t → t.WellFormed
  bounds : ∀ e ∈ g.context.bounds, e.2.WellFormed

/-- A context is equal to itself. -/
theorem Context.beq_refl (c : Context) : (c == c) = true := by
  have hanchors : (c.anchors == c.anchors) = true := by
    change (c.anchors.selfType == c.anchors.selfType &&
      c.anchors.classType == c.anchors.classType &&
      c.anchors.instanceType == c.anchors.instanceType) = true
    simp
  change (c.anchors == c.anchors && c.bounds == c.bounds) = true
  simp [hanchors]

/-- A well-formed goal leads to well-formed goals. -/
theorem Leads.wellFormed {g g' : Goal} (hT : T.AliasesWellFormed) (h : Leads T g g')
    (hg : g.WellFormed) : g'.WellFormed := by
  cases h with
  | forward hf =>
    cases hf with
    | slot ha => exact ⟨hg.anchors _ _ ha, hg.anchors, hg.bounds⟩
    | receiver hb => exact ⟨hg.bounds _ (Keyed.mem_of_get? hb), hg.anchors, hg.bounds⟩
    | @bound x c bound hb hs =>
      have hbound := hg.bounds _ (Keyed.mem_of_get? hb)
      refine ⟨hbound, fun p t hp => ?_, hg.bounds⟩
      cases p <;> simp [Anchors.get?] at hp
      exact hp ▸ hbound
    | expansion he =>
      exact ⟨Table.wellFormed_expansion hT (fun a ha => hg.type.part ha) he, hg.anchors, hg.bounds⟩
  | union hm _ => exact ⟨hg.type.part hm, hg.anchors, hg.bounds⟩
  | inter hm => exact ⟨hg.type.part hm, hg.anchors, hg.bounds⟩

/-- It reaches well-formed goals only. -/
theorem Reaches.wellFormed {g g' : Goal} (hT : T.AliasesWellFormed) (h : Reaches T g g')
    (hg : g.WellFormed) : g'.WellFormed := by
  induction h with
  | refl => exact hg
  | tail _ hl ih => exact hl.wellFormed hT ih

/-! ## Goals that are alike -/

/-- Contexts that map the same placeholders and variables to types that are alike. -/
structure Context.Like (c c' : Context) : Prop where
  anchors : ∀ p, Option.Rel Ty.Like (c.anchors.get? p) (c'.anchors.get? p)
  bounds : EntriesRel Ty.Like c.bounds c'.bounds

namespace Context.Like

variable {c c' c'' : Context}

/-- A context is like itself. -/
theorem refl (c : Context) : Like c c where
  anchors p := by
    cases c.anchors.get? p with
    | none => exact .none
    | some t => exact .some (.refl t)
  bounds := List.forall₂_same.mpr fun e _ => ⟨rfl, .refl e.2⟩

/-- Being alike is symmetric. -/
theorem symm (h : Like c c') : Like c' c where
  anchors p := optionRel_symm (fun _ _ ht => ht.symm) (h.anchors p)
  bounds := List.Forall₂.flip (h.bounds.imp fun _ _ he => ⟨he.1.symm, he.2.symm⟩)

/-- It is transitive. -/
theorem trans (h : Like c c') (h' : Like c' c'') : Like c c'' where
  anchors p := optionRel_trans (fun _ _ _ ht ht' => ht.trans ht') (h.anchors p) (h'.anchors p)
  bounds := forall₂_trans (fun _ _ _ he he' => ⟨he.1.trans he'.1, he.2.trans he'.2⟩) h.bounds
    h'.bounds

/-- A variable has bounds that are alike. -/
theorem exists_bound (h : Like c c') {x : String} {t : Ty} (ht : c.bound? x = some t) :
    ∃ t', c'.bound? x = some t' ∧ Ty.Like t t' :=
  exists_of_optionRel (Keyed.get?_rel h.bounds x) ht

/-- Contexts that are alike are equal. -/
theorem beq (h : Like c c') : (c == c') = true := by
  have hslot : ∀ p, (c.anchors.get? p == c'.anchors.get? p) = true := by
    intro p
    have hp := h.anchors p
    revert hp
    generalize c.anchors.get? p = o
    generalize c'.anchors.get? p = o'
    intro hp
    cases hp with
    | none => rfl
    | some ht => exact ht.beq
  have hbounds : (c.bounds == c'.bounds) = true := by
    have hbounds := h.bounds
    revert hbounds
    generalize c.bounds = es
    generalize c'.bounds = es'
    intro hbounds
    induction hbounds with
    | nil => rfl
    | @cons e e' _ _ he _ ih =>
      have hentry : (e == e') = true := by
        change (e.1 == e'.1 && e.2 == e'.2) = true
        rw [he.1, he.2.beq, beq_self_eq_true, Bool.and_true]
      rw [List.cons_beq_cons, hentry, ih, Bool.and_true]
  refine Bool.and_eq_true_iff.mpr ⟨Bool.and_eq_true_iff.mpr ⟨Bool.and_eq_true_iff.mpr ⟨?_, ?_⟩, ?_⟩,
    hbounds⟩
  · exact hslot .selfType
  · exact hslot .classType
  · exact hslot .instanceType

end Context.Like

/-- Equal contexts of well-formed goals are alike. -/
theorem Goal.WellFormed.context_like {g g' : Goal} (h : g.WellFormed) (h' : g'.WellFormed)
    (hbeq : (g.context == g'.context) = true) : Context.Like g.context g'.context := by
  obtain ⟨hanchors, hbounds⟩ := Bool.and_eq_true_iff.mp hbeq
  obtain ⟨hanchors, hinstance⟩ := Bool.and_eq_true_iff.mp hanchors
  obtain ⟨hself, hclass⟩ := Bool.and_eq_true_iff.mp hanchors
  refine ⟨fun p => Ty.Like.of_beq_option (h.anchors p) (h'.anchors p) ?_,
    Ty.Like.of_beq_entries h.bounds h'.bounds hbounds⟩
  cases p with
  | selfType => exact hself
  | classType => exact hclass
  | instanceType => exact hinstance

/-- Goals of types that are alike in contexts that are alike.  The view of a union does not
matter. -/
structure Goal.Like (g g' : Goal) : Prop where
  type : Ty.Like g.type g'.type
  context : Context.Like g.context g'.context
  view : g.view = g'.view ∨ ∃ ms, g.type = .union ms

namespace Goal.Like

variable {g g' g'' : Goal}

/-- A goal is like itself. -/
theorem refl (g : Goal) : g.Like g :=
  ⟨.refl _, .refl _, Or.inl rfl⟩

/-- What is like a union is a union. -/
theorem isUnion (h : g.Like g') (hu : ∃ ms, g.type = .union ms) : ∃ ms, g'.type = .union ms := by
  obtain ⟨ms, hms⟩ := hu
  have hhead := h.type.head_eq
  rw [hms] at hhead
  exact Ty.eq_union_of_head hhead

/-- Being alike is symmetric for goals. -/
theorem symm (h : g.Like g') : g'.Like g :=
  ⟨h.type.symm, h.context.symm, h.view.imp Eq.symm h.isUnion⟩

/-- It is transitive. -/
theorem trans (h : g.Like g') (h' : g'.Like g'') : g.Like g'' := by
  refine ⟨h.type.trans h'.type, h.context.trans h'.context, ?_⟩
  rcases h.view with hv | hu
  · rcases h'.view with hv' | hu'
    · exact Or.inl (hv.trans hv')
    · exact Or.inr ((⟨h.type.symm, h.context.symm, Or.inl hv.symm⟩ : g'.Like g).isUnion hu')
  · exact Or.inr hu

/-- The view of a goal that is no union matters. -/
theorem view_eq (h : g.Like g') (hu : ∀ ms, g.type ≠ .union ms) : g'.view = g.view := by
  rcases h.view with hv | ⟨ms, hms⟩
  · exact hv.symm
  · exact absurd hms (hu ms)

/-- Well-formed goals of equal types in equal contexts are alike. -/
theorem of_beq (h : g.WellFormed) (h' : g'.WellFormed)
    (hbeq : (g.type == g'.type && g.context == g'.context) = true)
    (hv : g.view = g'.view ∨ ∃ ms, g.type = .union ms) : g.Like g' := by
  obtain ⟨htype, hcontext⟩ := Bool.and_eq_true_iff.mp hbeq
  exact ⟨Or.inr ⟨h.type, h'.type, htype⟩, h.context_like h' hcontext, hv⟩

end Goal.Like

section Alike

variable (hT : T.AliasesWellFormed) {g g₁ g' : Goal}

include hT

/-- Aliases applied to arguments that are alike have expansions that are alike. -/
theorem exists_expansion {name : TypeName} {args args' : List Ty} {t : Ty}
    (hargs : Ty.Like (.named .aliasOf name args) (.named .aliasOf name args'))
    (h : T.expansion name args = .ok t) :
    ∃ t', T.expansion name args' = .ok t' ∧ Ty.Like t t' := by
  rcases hargs with heq | hsame
  · obtain rfl : args = args' := by simpa using heq
    exact ⟨t, h, .refl t⟩
  · have hwf : ∀ a ∈ args, a.WellFormed := fun a ha => hsame.left.part ha
    have hwf' : ∀ a ∈ args', a.WellFormed := fun a ha => hsame.right.part ha
    have hbeq := ((Ty.beq_iff_of_not_isSet rfl).mp hsame.beq).2
    obtain ⟨t', ht', htt'⟩ := Table.beq_expansion hT hwf hwf' hbeq h
    exact ⟨t', ht', Or.inr ⟨Table.wellFormed_expansion hT hwf h,
      Table.wellFormed_expansion hT hwf' ht', htt'⟩⟩

/-- Goals that are alike are handed on to goals that are alike. -/
theorem Goal.Forwards.like {f : Shape → Shape} (hf : Goal.Forwards T g g₁ f) (h : g.Like g') :
    ∃ g₁' f', Goal.Forwards T g' g₁' f' ∧ g₁.Like g₁' := by
  obtain ⟨t', c', v'⟩ := g'
  have hhead := h.type.head_eq
  cases hf with
  | @slot p c anchor ha =>
    obtain rfl : t' = .slot p := Ty.eq_of_head_of_isAtom rfl hhead
    obtain rfl : v' = .outside := h.view_eq (by simp)
    obtain ⟨anchor', ha', hlike⟩ := exists_of_optionRel (h.context.anchors p) ha
    exact ⟨_, _, .slot ha', hlike, h.context, Or.inl rfl⟩
  | @receiver x c bound hb =>
    obtain rfl : t' = .var x := Ty.eq_of_head_of_isAtom rfl hhead
    obtain rfl : v' = .asReceiver := h.view_eq (by simp)
    obtain ⟨bound', hb', hlike⟩ := h.context.exists_bound hb
    exact ⟨_, _, .receiver hb', hlike, h.context, Or.inl rfl⟩
  | @bound x c bound hb hs =>
    obtain rfl : t' = .var x := Ty.eq_of_head_of_isAtom rfl hhead
    obtain rfl : v' = .outside := h.view_eq (by simp)
    obtain ⟨bound', hb', hlike⟩ := h.context.exists_bound hb
    refine ⟨_, _, .bound hb' (hlike.mentionsSlot_eq ▸ hs), hlike, ⟨fun p => ?_, h.context.bounds⟩,
      Or.inl rfl⟩
    cases p with
    | selfType => exact .some hlike
    | _ => exact .none
  | @expansion name args c v e he =>
    obtain ⟨args', rfl⟩ := Ty.eq_named_of_head hhead
    obtain ⟨e', he', hlike⟩ := exists_expansion hT h.type he
    exact ⟨_, _, .expansion he', hlike, h.context, Or.inl rfl⟩

/-- Goals that are alike lead to goals that are alike. -/
theorem Leads.like (hl : Leads T g g₁) (h : g.Like g') : ∃ g₁', Leads T g' g₁' ∧ g₁.Like g₁' := by
  cases hl with
  | forward hf =>
    obtain ⟨g₁', f', hf', hlike⟩ := hf.like hT h
    exact ⟨g₁', .forward hf', hlike⟩
  | @union ms c v m hm hlit =>
    obtain ⟨t', c', v'⟩ := g'
    obtain ⟨ms', rfl⟩ := Ty.eq_union_of_head h.type.head_eq
    obtain ⟨m', hm', hlike⟩ := h.type.exists_part (a := m) hm
    rw [literalClass?_of_beq hlike.beq] at hlit
    exact ⟨_, .union hm' hlit, hlike, h.context, Or.inl rfl⟩
  | @inter ms c v m hm =>
    obtain ⟨t', c', v'⟩ := g'
    obtain ⟨ms', rfl⟩ := Ty.eq_inter_of_head h.type.head_eq
    obtain ⟨m', hm', hlike⟩ := h.type.exists_part (a := m) hm
    exact ⟨_, .inter hm', hlike, h.context, Or.inl rfl⟩

/-- Inside of goals that are alike there are goals that are alike. -/
theorem Leads.transGen_like (hr : Relation.TransGen (Leads T) g g₁) (h : g.Like g') :
    ∃ g₁', Relation.TransGen (Leads T) g' g₁' ∧ g₁.Like g₁' := by
  induction hr with
  | single hl =>
    obtain ⟨g₁', hl', hlike⟩ := hl.like hT h
    exact ⟨g₁', .single hl', hlike⟩
  | tail _ hl ih =>
    obtain ⟨g₁', hr', hlike⟩ := ih
    obtain ⟨g₂', hl', hlike'⟩ := hl.like hT hlike
    exact ⟨g₂', hr'.tail hl', hlike'⟩

/-- Goals that are alike have shapes alike, through as many goals. -/
theorem Resolves.congr {n : Nat} {s : Shape} (hs : Resolves T n g s) (h : g.Like g') :
    ∃ s', Resolves T n g' s' := by
  induction hs generalizing g' with
  | @direct n g s hd hs =>
    obtain ⟨t', c', v'⟩ := g'
    have hbeq := h.type.beq
    obtain rfl : v' = g.view := h.view_eq fun ms hms => by simp [hms, Ty.isDirect] at hd
    obtain ⟨hd', s', hs'⟩ := exists_returns_direct_congr hd hbeq ⟨s, hs (findGoal T)⟩
    refine ⟨s', .direct hd' fun search => ?_⟩
    rw [Goal.step_direct search hd' (findGoal T) g.context]
    exact hs'
  | @forward n g g₁ f s hf hs ih =>
    obtain ⟨g₁', f', hf', hlike⟩ := hf.like hT h
    obtain ⟨s', hs'⟩ := ih hlike
    exact ⟨_, .forward hf' hs'⟩
  | @union n ms c v shapes σ hm hs ih =>
    obtain ⟨t', c', v'⟩ := g'
    obtain ⟨ms', rfl⟩ := Ty.eq_union_of_head h.type.head_eq
    -- Every member of the other union is alike to one of this, and has a shape with it.
    have hmember : ∀ m' ∈ ms', literalClass? m' = none →
        ∃ s', Resolves T n ⟨m', c', .outside⟩ s' := by
      intro m' hm' hl
      obtain ⟨m, hmem, hlike⟩ := h.symm.type.exists_part (a := m') hm'
      rw [literalClass?_of_beq hlike.beq] at hl
      exact ih m hmem hl ⟨hlike.symm, h.context, Or.inl rfl⟩
    obtain ⟨τ, hτ⟩ := exists_known hmember
    have hlits : ∀ m' ∈ ms', ∀ name, literalClass? m' = some name →
        ∃ methods, instanceTable T name = .ok methods := by
      intro m' hm' name hl
      obtain ⟨m, hmem, hlike⟩ := h.symm.type.exists_part (a := m') hm'
      rw [literalClass?_of_beq hlike.beq] at hl
      exact exists_returns_groups_iff.mp ⟨shapes, hs⟩ m hmem name hl
    obtain ⟨shapes', hs'⟩ := exists_returns_groups_iff (σ := τ).mpr hlits
    exact ⟨_, .union τ hτ hs'⟩
  | @inter n ms c v σ hm ih =>
    obtain ⟨t', c', v'⟩ := g'
    obtain ⟨ms', rfl⟩ := Ty.eq_inter_of_head h.type.head_eq
    have hmember : ∀ m' ∈ ms', ∃ s', Resolves T n ⟨m', c', .outside⟩ s' := by
      intro m' hm'
      obtain ⟨m, hmem, hlike⟩ := h.symm.type.exists_part (a := m') hm'
      exact ih m hmem ⟨hlike.symm, h.context, Or.inl rfl⟩
    obtain ⟨τ, hτ⟩ := exists_known fun m' hm' (_ : True) => hmember m' hm'
    exact ⟨_, .inter τ fun m' hm' => hτ m' hm' trivial⟩

end Alike

/-! ## Notes -/

/-- Variables and aliases of equal types are handed on to goals of equal types. -/
theorem Goal.Forwards.beq (hT : T.AliasesWellFormed) {g₁ g₂ g₁' g₂' : Goal}
    {h₁ h₂ : Shape → Shape} (hf₁ : Goal.Forwards T g₁ g₁' h₁) (hf₂ : Goal.Forwards T g₂ g₂' h₂)
    (hslot : ∀ p, g₁.type ≠ .slot p) (hbounds : g₂.context.bounds = g₁.context.bounds)
    (hwf₁ : g₁.type.WellFormed) (hwf₂ : g₂.type.WellFormed) (hbeq : (g₁.type == g₂.type) = true) :
    (g₁'.type == g₂'.type) = true ∧ g₁'.view = g₂'.view := by
  have hhead := Ty.head_eq_of_beq hbeq
  obtain ⟨t₂, c₂, v₂⟩ := g₂
  cases hf₁ with
  | @slot p => exact absurd rfl (hslot p)
  | @receiver x c bound hb =>
    obtain rfl : t₂ = .var x := Ty.eq_of_head_of_isAtom rfl hhead.symm
    have hbound : c₂.bound? x = some bound := by rw [Context.bound?, hbounds]; exact hb
    cases hf₂ with
    | receiver hb' =>
      obtain rfl := Option.some.inj (hbound.symm.trans hb')
      exact ⟨Ty.beq_refl _, rfl⟩
    | bound hb' _ =>
      obtain rfl := Option.some.inj (hbound.symm.trans hb')
      exact ⟨Ty.beq_refl _, rfl⟩
  | @bound x c bound hb _ =>
    obtain rfl : t₂ = .var x := Ty.eq_of_head_of_isAtom rfl hhead.symm
    have hbound : c₂.bound? x = some bound := by rw [Context.bound?, hbounds]; exact hb
    cases hf₂ with
    | receiver hb' =>
      obtain rfl := Option.some.inj (hbound.symm.trans hb')
      exact ⟨Ty.beq_refl _, rfl⟩
    | bound hb' _ =>
      obtain rfl := Option.some.inj (hbound.symm.trans hb')
      exact ⟨Ty.beq_refl _, rfl⟩
  | @expansion name args c v e he =>
    obtain ⟨args', rfl⟩ := Ty.eq_named_of_head hhead.symm
    cases hf₂ with
    | expansion he' =>
      have hargs := ((Ty.beq_iff_of_not_isSet rfl).mp hbeq).2
      obtain ⟨e', he'', hee'⟩ := Table.beq_expansion hT (fun a ha => hwf₁.part ha)
        (fun a ha => hwf₂.part ha) hargs he
      obtain rfl := Except.ok.inj (he'.symm.trans he'')
      exact ⟨hee', rfl⟩

/-- A goal has no shape if it is reached from a goal of an equal type that is noted. -/
theorem not_resolves_of_noted (hT : T.AliasesWellFormed) {g g₁ g' : Goal} {h : Shape → Shape}
    (hf : Goal.Forwards T g g₁ h) (hslot : ∀ p, g.type ≠ .slot p)
    (hwf : ∀ g', Reaches T g g' → g'.type.WellFormed) (hr : Reaches T g₁ g')
    (hbeq : (g.type == g'.type) = true) (n : Nat) (s : Shape) :
    ¬ Resolves T n g' s := by
  intro hs
  have hwf₁ : ∀ {g'}, Reaches T g₁ g' → g'.type.WellFormed :=
    fun hr => hwf _ (.head (.forward hf) hr)
  -- The second goal is handed on like the first, to a goal of an equal type.
  obtain ⟨g₂, h₂, hf₂⟩ : ∃ g₂ h₂, Goal.Forwards T g' g₂ h₂ := by
    have hhead := Ty.head_eq_of_beq hbeq
    cases hs with
    | direct hd =>
      have hnot : g'.type.isDirect = false := by
        cases hf with
        | slot => rw [Ty.eq_of_head_of_isAtom rfl hhead.symm]; rfl
        | receiver => rw [Ty.eq_of_head_of_isAtom rfl hhead.symm]; rfl
        | bound => rw [Ty.eq_of_head_of_isAtom rfl hhead.symm]; rfl
        | expansion =>
          obtain ⟨args', heq⟩ := Ty.eq_named_of_head hhead.symm
          rw [heq]
          rfl
      simp [hnot] at hd
    | forward hf' => exact ⟨_, _, hf'⟩
    | union => cases hf <;> simp_all [Ty.head]
    | inter => cases hf <;> simp_all [Ty.head]
  have hbounds : g'.context.bounds = g.context.bounds :=
    (Reaches.bounds hr).trans (Leads.bounds (.forward hf))
  obtain ⟨hbeq₂, hview⟩ := hf.beq hT hf₂ hslot hbounds (hwf g .refl) (hwf₁ hr) hbeq
  have hpath : Relation.TransGen (Leads T) g₁ g₂ := .tail' hr (.forward hf₂)
  have hwf₂ := hwf₁ hpath.to_reflTransGen
  obtain ⟨k, s₂, -, hs₂⟩ := hs.leads (.forward hf₂)
  refine not_resolves_of_cycle hpath ?_ k s₂ hs₂
  intro i s' hs'
  have hmoved : Resolves T i ⟨g₂.type, g₁.context, g₂.view⟩ s' := by
    rcases Reaches.inside hpath.to_reflTransGen with hc | hin
    · rw [← hc]
      exact hs'
    · exact hs'.of_bounds (hin.noSlot hs') (Reaches.bounds hpath.to_reflTransGen).symm
  rw [← hview] at hmoved
  have hsame : Ty.Same g₂.type g₁.type :=
    ⟨hwf₂, hwf₁ .refl, Ty.beq_symm (hwf₁ .refl) hwf₂ hbeq₂⟩
  exact hmoved.congr hT ⟨Or.inr hsame, .refl _, Or.inl rfl⟩

end Search
end TypeShape
