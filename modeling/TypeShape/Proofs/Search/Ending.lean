import TypeShape.Proofs.Search.Memory

/-!
# Searches that end

A search ends when it has an answer, which may be an error.  What ends in parts ends as a whole,
keeps a property of the memory that its parts keep, and fails with the errors of its parts.  A goal
that is answered from the declarations alone always ends, and never with the report of a cycle.

Main results:

- Theorems `Search.Ends.searchUnion` and `Search.Ends.searchInter`: the search for a union or an
  intersection ends when those for its members do.
- Theorem `Search.ends_direct`: the search for a direct goal ends.
-/

namespace TypeShape
namespace Search

variable {α β : Type} {T : Table}

/-- From every memory with a property the search ends, in memory with this property, and it fails
only with errors of a given kind. -/
def Ends (I : Cache → Prop) (m : Search α) (E : ShapeError → Prop) : Prop :=
  ∀ ⦃b⦄, I b → ∃ r b', m b = some (r, b') ∧ I b' ∧ ∀ e, r = .error e → E e

namespace Ends

variable {I : Cache → Prop} {E : ShapeError → Prop}

/-- An answer ends a search. -/
theorem ret {r : Except ShapeError α} (h : ∀ e, r = .error e → E e) : Ends I (Goal.ret r) E :=
  fun b hb => ⟨r, b, rfl, hb, h⟩

/-- So does a result. -/
theorem pure (a : α) : Ends I (pure a) E :=
  ret (r := .ok a) (by simp)

/-- So does an error of the given kind. -/
theorem fail {e : ShapeError} (he : E e) : Ends I (Goal.ret (α := α) (.error e)) E := by
  refine ret ?_
  rintro _ ⟨⟩
  exact he

/-- More errors may be of the kind. -/
theorem mono {E' : ShapeError → Prop} {m : Search α} (hm : Ends I m E) (h : ∀ e, E e → E' e) :
    Ends I m E' := by
  intro b hb
  obtain ⟨r, b', hr, hb', hE⟩ := hm hb
  exact ⟨r, b', hr, hb', fun e he => h e (hE e he)⟩

/-- A search and one that uses its answer end if both do. -/
theorem bind {m : Search α} {k : α → Search β} (hm : Ends I m E) (hk : ∀ a, Ends I (k a) E) :
    Ends I (m >>= k) E := by
  intro b hb
  obtain ⟨e | a, b₁, hr, hb₁, hE⟩ := hm hb
  · refine ⟨.error e, b₁, by rw [bind_apply, hr], hb₁, ?_⟩
    rintro _ ⟨⟩
    exact hE e rfl
  · obtain ⟨r, b', hr', hb', hE'⟩ := hk a hb₁
    exact ⟨r, b', by rw [bind_apply, hr]; exact hr', hb', hE'⟩

/-- What is made of an answer ends if the search does. -/
theorem map {m : Search α} (h : α → β) (hm : Ends I m E) : Ends I (h <$> m) E := by
  rw [← Goal.bind_pure_map]
  exact hm.bind fun a => .pure (h a)

/-- What is kept by a search that ends is kept. -/
theorem keeps {m : Search α} (hm : Ends I m E) : Keeps I m fun _ => True := by
  intro b r b' hb hr
  obtain ⟨r', b₁, hr', hb₁, -⟩ := hm hb
  obtain ⟨-, rfl⟩ := Prod.mk.inj (Option.some.inj (hr.symm.trans hr'))
  exact ⟨hb₁, fun _ _ => trivial⟩

/-! ## Many types -/

/-- The search for several shapes ends if each search does. -/
theorem shapesOf {search : Ty → Search (Option Shape)} {ts : List Ty}
    (h : ∀ t ∈ ts, Ends I (search t) E) : Ends I (shapesOf search ts) E := by
  induction ts with
  | nil => exact .pure _
  | cons t ts ih =>
    obtain ⟨ht, hts⟩ := List.forall_mem_cons.mp h
    refine ht.bind fun first => ?_
    cases first with
    | none => exact .pure _
    | some s =>
      refine (ih hts).bind fun rest => ?_
      cases rest <;> exact .pure _

/-- So does the search for the shapes of groups. -/
theorem allGroupShapes {search : Ty → Search (Option Shape)}
    {groups : List (Option TypeName × List Ty)}
    (hclass : ∀ name receiver label, Ends I (classShape T name receiver label) E)
    (h : ∀ g ∈ groups, g.1 = none → ∀ t ∈ g.2, Ends I (search t) E) :
    Ends I (allGroupShapes T search groups) E := by
  induction groups with
  | nil => exact .pure _
  | cons g gs ih =>
    obtain ⟨hg, hgs⟩ := List.forall_mem_cons.mp h
    have hgroup : Ends I (groupShapes T search g) E := by
      obtain ⟨name, ts⟩ := g
      cases name with
      | none => exact .shapesOf (hg rfl)
      | some name => exact (hclass _ _ _).bind fun s => .pure _
    refine hgroup.bind fun first => ?_
    cases first with
    | none => exact .pure _
    | some shapes =>
      refine (ih hgs).bind fun rest => ?_
      cases rest <;> exact .pure _

/-- The search for a union ends when those for its members that are no literals do. -/
theorem searchUnion {search : Ty → Search (Option Shape)} {t : Ty} {ms : List Ty} {c : Context}
    (hclass : ∀ name receiver label, Ends I (classShape T name receiver label) E)
    (hstore : ∀ b s, I b → I { b with unions := ((t, c), s) :: b.unions })
    (h : ∀ m ∈ ms, literalClass? m = none → Ends I (search m) E) :
    Ends I (searchUnion T search t ms c) E := by
  have hgroups : Ends I (Search.allGroupShapes T search (memberGroups ms)) E := by
    refine .allGroupShapes hclass fun g hg hn m hm => ?_
    obtain ⟨hmem, hl⟩ := mem_of_mem_memberGroups hg hn hm
    exact h m hmem hl
  intro b hb
  rw [searchUnion_apply]
  cases rememberedUnion? b t c with
  | some s => exact ⟨_, b, rfl, hb, by simp⟩
  | none =>
    obtain ⟨e | _ | shapes, b', hr, hb', hE⟩ := hgroups hb <;> rw [hr]
    · refine ⟨_, b', rfl, hb', ?_⟩
      rintro _ ⟨⟩
      exact hE e rfl
    · exact ⟨_, b', rfl, hb', by simp⟩
    · exact ⟨_, _, rfl, hstore b' _ hb', by simp⟩

/-- The search for an intersection ends when those for its members do. -/
theorem searchInter {search : Ty → Search (Option Shape)} {t : Ty} {ms : List Ty}
    (h : ∀ m ∈ ms, Ends I (search m) E) : Ends I (searchInter search t ms) E := by
  refine (Ends.shapesOf h).bind fun shapes => ?_
  cases shapes <;> exact .pure _

end Ends

/-! ## Direct goals -/

/-- The property is kept when what the declarations give is remembered. -/
structure Admits (T : Table) (I : Cache → Prop) : Prop where
  instances : ∀ {b name methods}, I b → instanceTable T name = .ok methods →
    I { b with instances := Keyed.insert name (shapeOfMethods .bot methods) b.instances }
  classObjects : ∀ {b name methods}, I b → T.singletonMethods name = .ok methods →
    I { b with
      classObjects := Keyed.insert name (shapeOfMethods (.singleton name) methods) b.classObjects }

/-- The error does not report a cycle. -/
def NoCycle (e : ShapeError) : Prop :=
  ∀ t, e ≠ .cycle t

section Direct

variable {I : Cache → Prop}

/-- What the declarations say ends a search without a cycle. -/
theorem ends_ofDecl (r : Except DeclError α) : Ends I (ofDecl r) NoCycle := by
  cases r with
  | ok a => exact .pure a
  | error e => exact .fail (e := .declaration e) (by simp [NoCycle])

/-- So does a substitution. -/
theorem ends_ofSubst (r : Except SubstError α) : Ends I (ofSubst r) NoCycle := by
  cases r with
  | ok a => exact .pure a
  | error e => exact .fail (e := .substitution e) (by simp [NoCycle])

/-- So do the arguments of an application. -/
theorem ends_argumentSubst (name : TypeName) (args : List Ty) :
    Ends I (argumentSubst T name args) NoCycle := by
  unfold argumentSubst
  split
  · exact .pure _
  · exact (ends_ofDecl _).bind fun _ => ends_ofSubst _

variable (hI : Admits T I)

include hI

/-- The search for the shape of instances ends without a cycle. -/
theorem ends_instanceShape (name : TypeName) : Ends I (instanceShape T name) NoCycle := by
  intro b hb
  cases hg : Keyed.get? name b.instances with
  | some s => exact ⟨_, b, by simp only [instanceShape, get_bind_apply, hg]; rfl, hb, by simp⟩
  | none =>
    cases hm : instanceTable T name with
    | error e =>
      refine ⟨.error (.declaration e), b, ?_, hb, ?_⟩
      · simp only [instanceShape, get_bind_apply, hg, hm]
        rfl
      · rintro _ ⟨⟩ t
        simp
    | ok methods =>
      exact ⟨_, _, by simp only [instanceShape, get_bind_apply, hg, hm]; rfl,
        hI.instances hb hm, by simp⟩

/-- So does that of a class object. -/
theorem ends_classObjectBase (name : TypeName) : Ends I (classObjectBase T name) NoCycle := by
  intro b hb
  cases hg : Keyed.get? name b.classObjects with
  | some s => exact ⟨_, b, by simp only [classObjectBase, get_bind_apply, hg]; rfl, hb, by simp⟩
  | none =>
    cases hm : T.singletonMethods name with
    | error e =>
      refine ⟨.error (.declaration e), b, ?_, hb, ?_⟩
      · simp only [classObjectBase, get_bind_apply, hg, hm]
        rfl
      · rintro _ ⟨⟩ t
        simp
    | ok methods =>
      exact ⟨_, _, by simp only [classObjectBase, get_bind_apply, hg, hm]; rfl,
        hI.classObjects hb hm, by simp⟩

/-- So does the search for the shape of a class. -/
theorem ends_classShape (name : TypeName) (receiver label : Option Ty) :
    Ends I (classShape T name receiver label) NoCycle :=
  (ends_instanceShape hI name).bind fun _ => .pure _

/-- So does that of an application. -/
theorem ends_applied (name : TypeName) (args : List Ty) (anchors : Subst) (label : Option Ty) :
    Ends I (applied T name args anchors label) NoCycle :=
  (ends_argumentSubst name args).bind fun _ => (ends_ofSubst _).bind fun _ =>
    (ends_instanceShape hI name).bind fun _ => .pure _

/-- So does that of a class object for a receiver. -/
theorem ends_classObjectShape (name : TypeName) (receiver : Option Ty) :
    Ends I (classObjectShape T name receiver) NoCycle :=
  (ends_classObjectBase hI name).bind fun _ => .pure _

/-- So does that of a boolean. -/
theorem ends_boolShape (t : Ty) (receiver : Option Ty) :
    Ends I (boolShape T t receiver) NoCycle :=
  (ends_classShape hI _ _ _).bind fun _ => (ends_classShape hI _ _ _).bind fun _ => .pure _

/-- The search for a direct goal ends, and not with the report of a cycle. -/
theorem ends_direct {g : Goal} (hd : g.type.isDirect = true)
    (search : Goal → Search (Option Shape)) : Ends I (g.step T search) NoCycle := by
  obtain ⟨t, c, v⟩ := g
  cases t with
  | named kind name args =>
    cases kind with
    | aliasOf => simp [Ty.isDirect] at hd
    | instanceOf => exact (ends_applied hI name args _ _).map some
    | interfaceOf => exact (ends_applied hI name args _ _).map some
  | singleton name => exact (ends_classObjectShape hI name _).map some
  | literal value => exact (ends_classShape hI _ _ _).map some
  | bool => exact (ends_boolShape hI _ _).map some
  | logic question => exact (ends_boolShape hI _ _).map some
  | nil => exact (ends_classShape hI _ _ _).map some
  | proc callable => exact (ends_classShape hI _ _ _).bind fun _ => .pure _
  | tuple items => exact (ends_applied hI _ _ _ _).bind fun _ => .pure _
  | record fields => exact (ends_applied hI _ _ _ _).bind fun _ => .pure _
  | slot s => simp [Ty.isDirect] at hd
  | var x => simp [Ty.isDirect] at hd
  | union ms => simp [Ty.isDirect] at hd
  | inter ms => simp [Ty.isDirect] at hd
  | untyped => exact .pure _
  | top => exact .pure _
  | bot => exact .pure _
  | void => exact .pure _

end Direct

end Search
end TypeShape
