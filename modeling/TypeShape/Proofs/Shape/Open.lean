import TypeShape.Proofs.Declaration.Members
import TypeShape.Shape.Search

/-!
# The types of shapes

What the overloads of a shape mention, and which tests their types pass.  Merging shapes and
refining access open no placeholder and keep what joining keeps; substituting closes the
placeholders that are replaced.

Main results:

- Theorem `Shape.MethodsHold.subst`: what holds of the types after a substitution.
- Theorems `Shape.MethodsHold.ofUnion` and `Shape.MethodsHold.ofInter`: the types of a merged shape
  are made of those of its parts.
- Theorems `Shape.MethodsHold.ofTuple`, `Shape.MethodsHold.ofRecord` and
  `Shape.MethodsHold.ofProc`: those of refined shapes also of what they are refined with.
- Theorem `Shape.OnlyOpen.subst_eq_self`: anchors do not change a closed shape.
- Theorems `Shape.Passes.subst`, `Shape.Passes.ofUnion` and `Shape.Passes.ofInter`: tests of unions
  and intersections still pass.
-/

namespace TypeShape

variable {allowed allowed' : Slot → Prop}

/-- All types of the overloads of an entry have a property. -/
def Entry.Holds (P : Ty → Prop) (e : Entry) : Prop :=
  ∀ o ∈ e.overloads, o.Holds P

/-- All types of the overloads of a shape have a property. -/
def Shape.MethodsHold (P : Ty → Prop) (s : Shape) : Prop :=
  ∀ m ∈ s.methods, m.2.Holds P

/-- The overloads of a shape mention allowed placeholders only, and the type that it describes
mentions none. -/
structure Shape.OnlyOpen (allowed : Slot → Prop) (s : Shape) : Prop where
  type : s.type.Closed
  methods : s.MethodsHold (Ty.OnlyOpen allowed)

/-- The overload for a key alone has no type parameters; the others have one for the default. -/
theorem Shape.types_of_mem_lookupOverloads {key value missing : Ty} {o : Overload}
    (ho : o ∈ Shape.lookupOverloads key value missing) :
    let default := Ty.var Shape.defaultParam
    let result := Ty.unionOf [value, default]
    o.typeParams = [] ∧ o.types = [key, value] ∨
      o.typeParams = [{ name := Shape.defaultParam }] ∧
        (o.types = [key, default, result] ∨ o.types = [key, result, missing, default]) := by
  simp only [Shape.lookupOverloads, List.mem_cons, List.not_mem_nil, or_false] at ho
  rcases ho with rfl | rfl | rfl
  · exact Or.inl ⟨rfl, rfl⟩
  · exact Or.inr ⟨rfl, Or.inl rfl⟩
  · exact Or.inr ⟨rfl, Or.inr rfl⟩

namespace Shape

/-- The shape of a union describes the union. -/
@[simp] theorem type_ofUnion (t : Ty) (shapes : List Shape) : (ofUnion t shapes).type = t := by
  cases shapes <;> rfl

/-- What is left of a list without repetitions was in it. -/
theorem mem_foldl_pushOverload {merged os : List Overload} {o : Overload}
    (h : o ∈ os.foldl pushOverload merged) : o ∈ merged ∨ o ∈ os := by
  induction os generalizing merged with
  | nil => exact Or.inl h
  | cons a os ih =>
    rcases ih h with h | h
    · unfold pushOverload at h
      split at h
      · exact Or.inl h
      · rcases List.mem_append.mp h with h | h
        · exact Or.inl h
        · obtain rfl := List.mem_singleton.mp h
          exact Or.inr List.mem_cons_self
    · exact Or.inr (List.mem_cons_of_mem a h)

/-- What is in the product of two lists is merged from both. -/
theorem exists_of_mem_crossOverloads {left right : List Overload} {o : Overload}
    (h : o ∈ crossOverloads left right) : ∃ a ∈ left, ∃ b ∈ right, a.merge? b = some o := by
  rcases mem_foldl_pushOverload h with h | h
  · cases h
  · obtain ⟨a, ha, h⟩ := List.mem_flatMap.mp h
    obtain ⟨b, hb, h⟩ := List.mem_filterMap.mp h
    exact ⟨a, ha, b, hb, h⟩

/-- The entries of a method in some shapes are those that the shapes have for it. -/
theorem exists_of_entries {name : String} {shapes : List Shape} {es : List Entry}
    (h : entries? name shapes = some es) {e : Entry} (he : e ∈ es) :
    ∃ s ∈ shapes, s.get? name = some e := by
  unfold entries? at h
  induction shapes generalizing es with
  | nil =>
    obtain rfl := Option.some.inj h
    cases he
  | cons s shapes ih =>
    rw [List.mapM_cons] at h
    obtain ⟨e₀, he₀, h⟩ := Option.bind_eq_some_iff.mp h
    obtain ⟨es', hes', h⟩ := Option.bind_eq_some_iff.mp h
    obtain rfl := Option.some.inj h
    rcases List.mem_cons.mp he with rfl | he
    · exact ⟨s, List.mem_cons_self, he₀⟩
    · obtain ⟨s', hs', hget⟩ := ih hes' he
      exact ⟨s', List.mem_cons_of_mem s hs', hget⟩

end Shape

namespace Shape.MethodsHold

variable {P Q : Ty → Prop}

/-- The types of an entry are among those of the shape. -/
theorem get? {s : Shape} {name : String} {e : Entry} (h : s.MethodsHold P)
    (he : s.get? name = some e) : e.Holds P :=
  h _ (Keyed.mem_of_get? he)

/-- An entry that has the property can be set. -/
theorem insert {s : Shape} {name : String} {e : Entry} (h : s.MethodsHold P) (he : e.Holds P) :
    (s.insert name e).MethodsHold P := by
  intro m hm
  rcases Keyed.mem_insert hm with rfl | hm
  · exact he
  · exact h m hm

/-- A substitution maps the types of every overload. -/
theorem subst {s : Shape} {σ : Subst} {label : Option Ty} (h : s.MethodsHold P)
    (happly : ∀ o : Overload, ∀ t, P t → Q ((σ.under o).apply t)) :
    (s.subst σ label).MethodsHold Q := by
  intro m hm o ho
  obtain ⟨m₀, hm₀, rfl⟩ := List.mem_map.mp hm
  obtain ⟨o₀, ho₀, rfl⟩ := List.mem_map.mp ho
  exact (h m₀ hm₀ o₀ ho₀).applyOverload (happly o₀)

/-! ## Declared methods -/

/-- The shape of declared methods has their types; a predicate also answers with a type of its
own. -/
theorem shapeOfMethods (hP : Ty.Closes P) {label : Ty} {methods : MethodTable}
    (h : ∀ e ∈ methods, ∀ d ∈ e.2.defs, d.overload.Holds P) :
    (Search.shapeOfMethods label methods).MethodsHold P := by
  intro m hm o ho
  obtain ⟨e, he, rfl⟩ := List.mem_map.mp hm
  obtain ⟨d, hd, rfl⟩ := List.mem_map.mp ho
  have hd := h e he d hd
  unfold DeclaredOverload.signature
  split
  · exact hd.withResult (hP.rigid rfl (by simp [Ty.parts]))
  · exact hd

/-! ## Unions and intersections -/

/-- The types of overloads in common are made of those on both sides. -/
theorem commonOverloads (hP : Ty.Closes P) {left right os : List Overload}
    (hl : ∀ o ∈ left, o.Holds P) (hr : ∀ o ∈ right, o.Holds P)
    (h : Shape.commonOverloads? left right = some os) : ∀ o ∈ os, o.Holds P := by
  have hcross : ∀ o ∈ Shape.crossOverloads left right, o.Holds P := by
    intro o ho
    obtain ⟨a, ha, b, hb, hmerge⟩ := exists_of_mem_crossOverloads ho
    exact (hl a ha).merge? hP (hr b hb) hmerge
  unfold Shape.commonOverloads? at h
  split at h
  · obtain rfl := Option.some.inj h
    exact hl
  · split at h
    · cases h
    · obtain rfl := Option.some.inj h
      exact hcross

/-- So are those of overloads that several methods have in common. -/
theorem foldlM_commonOverloads (hP : Ty.Closes P) {os os' : List Overload} {es : List Entry}
    (hos : ∀ o ∈ os, o.Holds P) (hes : ∀ e ∈ es, e.Holds P)
    (h : es.foldlM (fun merged e => Shape.commonOverloads? merged e.overloads) os = some os') :
    ∀ o ∈ os', o.Holds P := by
  induction es generalizing os with
  | nil =>
    obtain rfl := Option.some.inj h
    exact hos
  | cons e es ih =>
    obtain ⟨he, hes⟩ := List.forall_mem_cons.mp hes
    rw [List.foldlM_cons] at h
    obtain ⟨merged, hmerged, h⟩ := Option.bind_eq_some_iff.mp h
    exact ih (commonOverloads hP hos he hmerged) hes h

/-- An entry in common has types made of those of all entries. -/
theorem commonEntry (hP : Ty.Closes P) {es : List Entry} {e : Entry} (h : ∀ e ∈ es, e.Holds P)
    (he : Shape.commonEntry? es = some e) : e.Holds P := by
  cases es with
  | nil => cases he
  | cons e₀ es =>
    obtain ⟨overloads, hfold, heq⟩ := Option.bind_eq_some_iff.mp he
    obtain rfl := Option.some.inj heq
    obtain ⟨h₀, hes⟩ := List.forall_mem_cons.mp h
    exact foldlM_commonOverloads hP h₀ hes hfold

/-- The shape of a union has types made of those of its members. -/
theorem ofUnion (hP : Ty.Closes P) {t : Ty} {shapes : List Shape}
    (h : ∀ s ∈ shapes, s.MethodsHold P) : (Shape.ofUnion t shapes).MethodsHold P := by
  cases shapes with
  | nil => simp [Shape.ofUnion, Shape.MethodsHold]
  | cons s ss =>
    intro m hm
    obtain ⟨name, -, hm⟩ := List.mem_filterMap.mp hm
    obtain ⟨e, he, rfl⟩ := Option.map_eq_some_iff.mp hm
    obtain ⟨es, hes, he⟩ := Option.bind_eq_some_iff.mp he
    refine commonEntry hP (fun e' he' => ?_) he
    obtain ⟨s', hs', hget⟩ := exists_of_entries hes he'
    exact (h s' hs').get? hget

/-- A method that has the property can be added. -/
theorem addMethod {methods : List (String × Entry)} {m : String × Entry}
    (h : ∀ m ∈ methods, m.2.Holds P) (hm : m.2.Holds P) :
    ∀ m' ∈ Shape.addMethod methods m, m'.2.Holds P := by
  have hinsert : ∀ m' ∈ Keyed.insert m.1 m.2 methods, m'.2.Holds P := by
    intro m' hm'
    rcases Keyed.mem_insert hm' with rfl | hm'
    · exact hm
    · exact h m' hm'
  unfold Shape.addMethod
  split
  · split
    · exact h
    · exact hinsert
  · exact hinsert

/-- The shape of an intersection has the types of its members. -/
theorem ofInter {t : Ty} {shapes : List Shape} (h : ∀ s ∈ shapes, s.MethodsHold P) :
    (Shape.ofInter t shapes).MethodsHold P := by
  let Kept (methods : List (String × Entry)) : Prop := ∀ m ∈ methods, m.2.Holds P
  refine List.foldlRecOn (motive := Kept) _ _ (by simp [Kept]) fun methods hmethods s hs => ?_
  exact List.foldlRecOn (motive := Kept) _ _ hmethods fun methods hmethods m hm =>
    addMethod hmethods (h s hs m hm)

/-! ## Tuples, records and procs -/

/-- A public entry has the types of its overloads. -/
theorem ofPublic {os : List Overload} (h : ∀ o ∈ os, o.Holds P) :
    (Entry.ofPublic os).Holds P :=
  h

/-- An overload of positions alone has the types of these and of the result. -/
theorem plainOverload {params : List Ty} {result : Ty} (hp : ∀ t ∈ params, P t)
    (hr : P result) : (Shape.plainOverload params result).Holds P := by
  intro t ht
  have hcases : t ∈ params ∨ t = result := by
    simpa [Shape.plainOverload, Overload.types, Callable.toList, Arrow.toList, Params.toList]
      using ht
  rcases hcases with ht | rfl
  · exact hp t ht
  · exact hr

/-- Overloads that look a key up have its type, that of the value and that of what is missing. -/
theorem lookupOverloads (hP : Ty.Closes P) {key value missing : Ty} (hk : P key) (hv : P value)
    (hm : P missing) :
    ∀ o ∈ Shape.lookupOverloads key value missing, o.Holds P := by
  have hdefault : P (.var Shape.defaultParam) := hP.var _
  have hresult : P (Ty.unionOf [value, .var Shape.defaultParam]) :=
    hP.unionOf (by simp [hv, hdefault])
  intro o ho
  unfold Overload.Holds
  rcases Shape.types_of_mem_lookupOverloads ho with ⟨-, htypes⟩ | ⟨-, htypes | htypes⟩
  · simp [htypes, hk, hv]
  · simp [htypes, hk, hdefault, hresult]
  · simp [htypes, hk, hdefault, hresult, hm]

/-- A refined entry has the types of what is put first and of what was there. -/
theorem refine {base : Shape} {name : String} {os : List Overload} (hb : base.MethodsHold P)
    (hos : ∀ o ∈ os, o.Holds P) : (base.refine name os).Holds P := by
  refine ofPublic fun o ho => ?_
  rcases List.mem_append.mp ho with ho | ho
  · exact hos o ho
  · cases hget : base.get? name with
    | none => simp [hget] at ho
    | some e => exact hb.get? hget o (by simpa [hget] using ho)

/-- Refined access has the types of the keys and of the values. -/
theorem refineAccess (hP : Ty.Closes P) {base : Shape} {cells : List (Ty × Ty)} {missing : Ty}
    (hb : base.MethodsHold P) (hcells : ∀ c ∈ cells, P c.1 ∧ P c.2) (hm : P missing) :
    (Shape.refineAccess base cells missing).MethodsHold P := by
  refine ((hb.insert (hb.refine ?_)).insert (hb.refine ?_)).insert (hb.refine ?_)
  · intro o ho
    obtain ⟨c, hc, rfl⟩ := List.mem_map.mp ho
    obtain ⟨hkey, hvalue⟩ := hcells c hc
    exact plainOverload (by simpa using hkey) hvalue
  · intro o ho
    obtain ⟨c, hc, rfl⟩ := List.mem_map.mp ho
    obtain ⟨hkey, hvalue⟩ := hcells c hc
    exact plainOverload (by simp [hkey, hvalue]) hvalue
  · intro o ho
    obtain ⟨c, hc, ho⟩ := List.mem_flatMap.mp ho
    obtain ⟨hkey, hvalue⟩ := hcells c hc
    exact lookupOverloads hP hkey hvalue hm o ho

/-- The shape of a tuple has the types of its items. -/
theorem ofTuple (hP : Ty.Closes P) {t : Ty} {items : List Ty} {base : Shape}
    (hitem : ∀ t ∈ items, P t) (hb : base.MethodsHold P) :
    (Shape.ofTuple t items base).MethodsHold P := by
  have hoption : ∀ o : Option Ty, (∀ t, o = some t → t ∈ items) → P (o.getD .nil) := by
    intro o ho
    cases o with
    | none => exact hP.rigid rfl (by simp [Ty.parts])
    | some t => exact hitem t (ho t rfl)
  refine insert (insert (refineAccess hP hb ?_ ?_) ?_) ?_
  · intro c hc
    obtain ⟨i, hi, rfl⟩ := List.mem_mapIdx.mp hc
    exact ⟨hP.literal _, hitem _ (List.getElem_mem hi)⟩
  · exact hP.rigid rfl (by simp [Ty.ofClass, Ty.parts])
  · refine ofPublic (List.forall_mem_singleton.mpr
      (plainOverload (by simp) (hoption _ fun t ht => ?_)))
    exact List.mem_of_mem_head? ht
  · refine ofPublic (List.forall_mem_singleton.mpr
      (plainOverload (by simp) (hoption _ fun t ht => ?_)))
    exact List.mem_of_mem_getLast? ht

/-- The shape of a record has the types of its fields. -/
theorem ofRecord (hP : Ty.Closes P) {t : Ty} {fields : List (Literal × Ty)} {base : Shape}
    (hfield : ∀ f ∈ fields, P f.2) (hb : base.MethodsHold P) :
    (Shape.ofRecord t fields base).MethodsHold P := by
  refine refineAccess hP hb ?_ ?_
  · intro c hc
    obtain ⟨f, hf, rfl⟩ := List.mem_map.mp hc
    exact ⟨hP.literal _, hfield f hf⟩
  · refine hP.unionOf fun t ht => ?_
    obtain ⟨f, -, rfl⟩ := List.mem_map.mp ht
    exact hP.literal _

/-- The shape of a proc has the types of its signature. -/
theorem ofProc {t : Ty} {c : Callable Ty} {base : Shape} (hc : ∀ t ∈ c.toList, P t)
    (hb : base.MethodsHold P) : (Shape.ofProc t c base).MethodsHold P := by
  have hcall : (Entry.ofPublic [{ typeParams := [], callable := c }]).Holds P := by
    refine ofPublic (List.forall_mem_singleton.mpr fun t ht => ?_)
    exact hc t (by simpa [Overload.types] using ht)
  exact (hb.insert hcall).insert hcall

end Shape.MethodsHold

/-! ## Closed shapes -/

namespace Shape.OnlyOpen

/-- What may be mentioned can be widened. -/
theorem mono {s : Shape} (h : s.OnlyOpen allowed) (hall : ∀ p, allowed p → allowed' p) :
    s.OnlyOpen allowed' :=
  ⟨h.type, fun m hm o ho t ht => (h.methods m hm o ho t ht).mono hall⟩

/-- Describing another closed type opens nothing. -/
theorem relabel {s : Shape} {t : Ty} (h : s.OnlyOpen allowed) (ht : t.Closed) :
    (s.relabel t).OnlyOpen allowed :=
  ⟨ht, h.methods⟩

/-- After a substitution only those placeholders are open that it leaves. -/
theorem subst {s : Shape} {σ : Subst} {label : Option Ty} (h : s.OnlyOpen allowed)
    (hslot : ∀ p, allowed p → (σ.imageOf (.slot p)).OnlyOpen allowed')
    (hvar : ∀ x, (σ.imageOf (.var x)).Closed) (hlabel : ∀ t, label = some t → t.Closed) :
    (s.subst σ label).OnlyOpen allowed' := by
  refine ⟨?_, h.methods.subst fun o t ht => ht.apply_under hslot (fun x => ?_) o⟩
  · cases label with
    | none => exact h.type.apply (fun p hp => hp.elim) hvar
    | some t => exact hlabel t rfl
  · exact (hvar x).mono fun p hp => hp.elim

/-- Anchors do not change a closed shape. -/
theorem subst_eq_self {s : Shape} {σ : Subst} (h : s.OnlyOpen fun _ => False)
    (hσ : ∀ x, σ.get? x = none) : s.subst σ none = s := by
  have hmethods : s.methods.map (fun m => (m.1, m.2.subst σ)) = s.methods := by
    refine (List.map_congr_left fun m hm => ?_).trans (List.map_id' _)
    have hoverloads : m.2.overloads.map σ.applyOverload = m.2.overloads :=
      (List.map_congr_left fun o ho =>
        Overload.applyOverload_eq_self (h.methods m hm o ho) hσ).trans (List.map_id' _)
    rw [Entry.subst, hoverloads]
  have htype : σ.apply s.type = s.type := Ty.Closed.apply_eq_self h.type hσ
  rw [Shape.subst, hmethods, Option.getD_none, htype]

/-- The shape of declared methods mentions what they mention. -/
theorem shapeOfMethods {label : Ty} {methods : MethodTable} (hlabel : label.Closed)
    (h : ∀ e ∈ methods, ∀ d ∈ e.2.defs, d.overload.OnlyOpen allowed) :
    (Search.shapeOfMethods label methods).OnlyOpen allowed :=
  ⟨hlabel, .shapeOfMethods Ty.closes_onlyOpen h⟩

/-- The shape of a union mentions what those of its members mention. -/
theorem ofUnion {t : Ty} {shapes : List Shape} (ht : t.Closed)
    (h : ∀ s ∈ shapes, s.OnlyOpen allowed) : (Shape.ofUnion t shapes).OnlyOpen allowed where
  type := by rw [type_ofUnion]; exact ht
  methods := .ofUnion Ty.closes_onlyOpen fun s hs => (h s hs).methods

/-- The shape of an intersection mentions what those of its members mention. -/
theorem ofInter {t : Ty} {shapes : List Shape} (ht : t.Closed)
    (h : ∀ s ∈ shapes, s.OnlyOpen allowed) : (Shape.ofInter t shapes).OnlyOpen allowed :=
  ⟨ht, .ofInter fun s hs => (h s hs).methods⟩

/-- The shape of a closed tuple opens nothing. -/
theorem ofTuple {items : List Ty} {base : Shape} (h : (Ty.tuple items).Closed)
    (hb : base.OnlyOpen allowed) : (Shape.ofTuple (.tuple items) items base).OnlyOpen allowed :=
  ⟨h, .ofTuple Ty.closes_onlyOpen (fun _ ht => (h.part ht).mono fun _ hp => hp.elim) hb.methods⟩

/-- The shape of a closed record opens nothing. -/
theorem ofRecord {fields : List (Literal × Ty)} {base : Shape} (h : (Ty.record fields).Closed)
    (hb : base.OnlyOpen allowed) :
    (Shape.ofRecord (.record fields) fields base).OnlyOpen allowed :=
  ⟨h, .ofRecord Ty.closes_onlyOpen
    (fun _ hf => (h.part (List.mem_map_of_mem hf)).mono fun _ hp => hp.elim) hb.methods⟩

/-- The shape of a closed proc opens nothing. -/
theorem ofProc {c : Callable Ty} {base : Shape} (h : (Ty.proc c).Closed)
    (hb : base.OnlyOpen allowed) : (Shape.ofProc (.proc c) c base).OnlyOpen allowed :=
  ⟨h, .ofProc (fun _ ht => (h.part ht).mono fun _ hp => hp.elim) hb.methods⟩

end Shape.OnlyOpen

/-! ## Tests -/

/-- A test passes everywhere in the type that a shape describes and in the types of its
overloads. -/
structure Shape.Passes (test : Ty → Bool) (s : Shape) : Prop where
  type : s.type.all test = true
  methods : s.MethodsHold fun t => t.all test = true

/-- The members of all unions and intersections in a shape are distinct. -/
abbrev Shape.WellFormed (s : Shape) : Prop :=
  s.Passes Ty.distinctHere

/-- The type that a shape describes and the types of its overloads are in normal form. -/
structure Shape.Normal (s : Shape) : Prop where
  type : s.type.Normal
  methods : ∀ m ∈ s.methods, ∀ o ∈ m.2.overloads, o.Normal

/-- A shape is in normal form if the test for it passes. -/
theorem Shape.normal_iff_passes {s : Shape} : s.Normal ↔ s.Passes Ty.normalHere :=
  ⟨fun h => ⟨h.type, h.methods⟩, fun h => ⟨h.type, h.methods⟩⟩

namespace Shape.Passes

variable {test : Ty → Bool}

/-- Another type that passes can be described. -/
theorem relabel {s : Shape} {t : Ty} (h : s.Passes test) (ht : t.all test = true) :
    (s.relabel t).Passes test :=
  ⟨ht, h.methods⟩

section Joins

variable (htest : Ty.SetTest test)

include htest

/-- Substituting types that pass keeps what passes. -/
theorem subst {s : Shape} {σ : Subst} {label : Option Ty} (h : s.Passes test)
    (hσ : ∀ x, (σ.imageOf x).all test = true) (hlabel : ∀ t, label = some t → t.all test = true) :
    (s.subst σ label).Passes test := by
  refine ⟨?_, h.methods.subst fun o t ht => Table.passes_apply_under htest hσ o ht⟩
  cases label with
  | none => exact htest.apply hσ h.type
  | some t => exact hlabel t rfl

/-- The shape of a union passes if those of its members do. -/
theorem ofUnion {t : Ty} {shapes : List Shape} (ht : t.all test = true)
    (h : ∀ s ∈ shapes, s.Passes test) : (Shape.ofUnion t shapes).Passes test where
  type := by rw [type_ofUnion]; exact ht
  methods := .ofUnion htest.closes fun s hs => (h s hs).methods

end Joins

/-- The shape of an intersection passes if those of its members do. -/
theorem ofInter {t : Ty} {shapes : List Shape} (ht : t.all test = true)
    (h : ∀ s ∈ shapes, s.Passes test) : (Shape.ofInter t shapes).Passes test :=
  ⟨ht, .ofInter fun s hs => (h s hs).methods⟩

end Shape.Passes

/-- Substituting types in normal form keeps a shape in normal form. -/
theorem Shape.Normal.subst {s : Shape} {σ : Subst} {label : Option Ty} (h : s.Normal)
    (hσ : ∀ x, (σ.imageOf x).Normal) (hlabel : ∀ t, label = some t → t.Normal) :
    (s.subst σ label).Normal :=
  Shape.normal_iff_passes.mpr
    ((Shape.normal_iff_passes.mp h).subst Ty.setTest_normalHere hσ hlabel)

end TypeShape
