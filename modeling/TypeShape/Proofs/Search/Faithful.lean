import TypeShape.Proofs.Search.Ending
import TypeShape.Proofs.Search.Queries

/-!
# Memory after any queries

A search may fail at any depth: between two members of a union, behind an alias, or in the bound of
a variable.  However it ends, it leaves no note behind, and everything that it remembers is what the
declarations give or the shape of a union under the label of this union.  So queries can be made one
after another on the same memory whatever became of the earlier ones.

Main results:

- Theorem `Search.keeps_faithful_step`: one step keeps the memory faithful if further searches do.
- Theorem `Search.Query.faithful_run`: a query keeps the memory faithful, whether it fails or not.
- Theorem `Search.Query.faithful_after`: the memory is faithful after any queries.
-/

namespace TypeShape

/-- The notes are the given ones, every declaration is remembered with the shape of its methods, and
every shape that is remembered for a union has it as its label. -/
structure Cache.Faithful (T : Table) (notes : List Ty) (b : Cache) : Prop where
  pending : b.pending = notes
  instances : ∀ e ∈ b.instances, ∃ methods,
    Search.instanceTable T e.1 = .ok methods ∧ e.2 = Search.shapeOfMethods .bot methods
  classObjects : ∀ e ∈ b.classObjects, ∃ methods,
    T.singletonMethods e.1 = .ok methods ∧ e.2 = Search.shapeOfMethods (.singleton e.1) methods
  unions : ∀ e ∈ b.unions, (∃ ms, e.1.1 = .union ms) ∧ e.2.type = e.1.1

namespace Cache.Faithful

variable {T : Table} {p : List Ty} {b : Cache}

/-- An empty memory is faithful. -/
theorem empty (T : Table) : Cache.empty.Faithful T [] where
  pending := rfl
  instances e he := by simp [Cache.empty] at he
  classObjects e he := by simp [Cache.empty] at he
  unions e he := by simp [Cache.empty] at he

/-- A faithful memory is right. -/
theorem right (h : b.Faithful T p) : b.Right T where
  instances name s hget := h.instances (name, s) (Keyed.mem_of_get? hget)
  classObjects name s hget := h.classObjects (name, s) (Keyed.mem_of_get? hget)

/-- It is faithful with one note more. -/
theorem note (h : b.Faithful T p) (t : Ty) : (Search.note b t).Faithful T (t :: p) :=
  ⟨congrArg (t :: ·) h.pending, h.instances, h.classObjects, h.unions⟩

/-- And when the note is taken back. -/
theorem unnote {t : Ty} (h : b.Faithful T (t :: p)) : (Search.unnote b).Faithful T p :=
  ⟨congrArg List.tail h.pending, h.instances, h.classObjects, h.unions⟩

/-- It stays faithful when the shape of a union is remembered. -/
theorem remember (h : b.Faithful T p) (ms : List Ty) (c : Context) (shapes : List Shape) :
    { b with unions := ((.union ms, c), Shape.ofUnion (.union ms) shapes) :: b.unions }.Faithful
      T p := by
  have hlabel : (Shape.ofUnion (.union ms) shapes).type = .union ms := by
    cases shapes <;> rfl
  exact ⟨h.pending, h.instances, h.classObjects,
    List.forall_mem_cons.mpr ⟨⟨⟨ms, rfl⟩, hlabel⟩, h.unions⟩⟩

end Cache.Faithful

namespace Search

variable {T : Table} {p : List Ty}

/-! ## Steps -/

/-- What the declarations give is remembered faithfully. -/
theorem admits_faithful (T : Table) (p : List Ty) : Admits T (Cache.Faithful T p) where
  instances := by
    intro b name methods hb hm
    refine ⟨hb.pending, fun e he => ?_, hb.classObjects, hb.unions⟩
    rcases Keyed.mem_insert he with rfl | he
    · exact ⟨methods, hm, rfl⟩
    · exact hb.instances e he
  classObjects := by
    intro b name methods hb hm
    refine ⟨hb.pending, hb.instances, fun e he => ?_, hb.unions⟩
    rcases Keyed.mem_insert he with rfl | he
    · exact ⟨methods, hm, rfl⟩
    · exact hb.classObjects e he

/-- The note of a type that is looked through is taken away again, also after an error. -/
theorem Keeps.lookingThrough_faithful {α : Type} {m : Search α} {P : α → Prop} {t : Ty}
    (h : Keeps (Cache.Faithful T (t :: p)) m P) :
    Keeps (Cache.Faithful T p) (Search.lookingThrough t m) P := by
  intro b r b' hb hr
  rcases lookingThrough_eq_some.mp hr with ⟨-, rfl, rfl⟩ | ⟨-, b₁, hm, rfl⟩
  · exact ⟨hb, by simp⟩
  · obtain ⟨hb₁, hP⟩ := h (hb.note t) hm
    exact ⟨hb₁.unnote, hP⟩

/-- The search for a union keeps memory faithful if those for its members do. -/
theorem keeps_faithful_searchUnion {search : Ty → Search (Option Shape)} {ms : List Ty}
    {c : Context}
    (h : ∀ m ∈ ms, literalClass? m = none →
      Keeps (Cache.Faithful T p) (search m) fun _ => True) :
    Keeps (Cache.Faithful T p) (searchUnion T search (.union ms) ms c) fun _ => True := by
  refine Keeps.searchUnion (R := fun _ => True) trivial (fun _ _ _ _ => trivial)
    ((Keeps.allGroupShapes (K := fun _ _ _ => True) (Q := fun _ _ => True) ?_ ?_).mono
      fun _ _ _ _ => trivial) fun b shapes hb _ => ⟨hb.remember ms c shapes, trivial⟩
  · intro name ts _
    exact (ends_classShape (admits_faithful T p) name _ _).keeps
  · intro g hg hn m hm
    obtain ⟨hmem, hl⟩ := mem_of_mem_memberGroups hg hn hm
    exact (h m hmem hl).mono fun _ _ _ _ => trivial

/-- One step keeps the memory faithful if further searches do, under whatever notes. -/
theorem keeps_faithful_step {g : Goal} {search : Goal → Search (Option Shape)}
    (h : ∀ p g', Leads T g g' → Keeps (Cache.Faithful T p) (search g') fun _ => True) :
    Keeps (Cache.Faithful T p) (g.step T search) fun _ => True := by
  cases g.form T with
  | direct hd => exact (ends_direct (admits_faithful T p) hd search).keeps
  | stops r _ _ hr =>
    rw [hr g.context (.refl g)]
    exact Keeps.ret fun _ _ => trivial
  | stopsNoted r _ _ hr =>
    rw [hr g.context (.refl g)]
    exact (Keeps.ret fun _ _ => trivial).lookingThrough_faithful
  | forwards g' f hf =>
    have hnext : ∀ p, Keeps (Cache.Faithful T p) (Option.map f <$> search g') fun _ => True :=
      fun p => Keeps.map (h p g' (.forward hf))
    rw [Goal.step_forwards search hf]
    unfold Goal.noted
    split
    · exact hnext p
    · exact (hnext _).lookingThrough_faithful
  | union ms hu =>
    obtain ⟨t, c, v⟩ := g
    obtain rfl : t = .union ms := hu
    exact keeps_faithful_searchUnion fun m hm hl => h p _ (.union hm hl)
  | inter ms hi =>
    obtain ⟨t, c, v⟩ := g
    obtain rfl : t = .inter ms := hi
    refine Keeps.bind (Keeps.shapesOf (Q := fun _ _ => True) fun m hm =>
      (h p _ (.inter hm)).mono fun _ _ _ _ => trivial) fun shapes _ => ?_
    cases shapes <;> exact Keeps.pure trivial

/-- A search to any depth keeps the memory faithful. -/
theorem keeps_faithful_withinGoal (n : Nat) (g : Goal) (p : List Ty) :
    Keeps (Cache.Faithful T p) (withinGoal T n g) fun _ => True := by
  induction n generalizing g p with
  | zero =>
    intro b r b' _ h
    simp [withinGoal_zero] at h
  | succ n ih =>
    rw [withinGoal_succ]
    exact keeps_faithful_step fun p g' _ => ih g' p

/-! ## Queries -/

namespace Query

/-- A query keeps the memory faithful, whether it fails or not. -/
theorem faithful_run {q : Query} {b b' : Cache} {r : Except ShapeError (Option Shape)}
    (hb : b.Faithful T []) (h : q.run T b = some (r, b')) : b'.Faithful T [] := by
  obtain ⟨r', hfind⟩ := exists_of_run h
  obtain ⟨n, hn⟩ := findGoal_eq_some_iff.mp hfind
  exact (keeps_faithful_withinGoal n q.goal [] hb hn).1

/-- Queries keep the memory faithful one after another. -/
theorem faithful_after_of_faithful {qs : List Query} {b b' : Cache} (hb : b.Faithful T [])
    (h : after T qs b = some b') : b'.Faithful T [] :=
  after_of_kept (fun _ _ _ _ _ hb hrun => faithful_run hb hrun) hb h

/-- After any queries, whether they failed or not, nothing is noted, and everything remembered is
what the declarations give or a shape under the label of its union. -/
theorem faithful_after {qs : List Query} {b : Cache} (h : after T qs Cache.empty = some b) :
    b.Faithful T [] :=
  faithful_after_of_faithful (.empty T) h

/-- The memory after queries that are made to a bounded depth. -/
def afterWithin (T : Table) (n : Nat) : List Query → Cache → Option Cache
  | [], b => some b
  | q :: qs, b => do
    let (_, b') ← withinGoal T n q.goal b
    afterWithin T n qs b'

/-- Queries that end within a depth end. -/
theorem after_of_afterWithin {n : Nat} {qs : List Query} {b b' : Cache}
    (h : afterWithin T n qs b = some b') : after T qs b = some b' := by
  induction qs generalizing b with
  | nil => exact h
  | cons q qs ih =>
    obtain ⟨⟨r, b₁⟩, hn, hrest⟩ := Option.bind_eq_some_iff.mp h
    rw [after, run_apply, findGoal_eq_some_iff.mpr ⟨n, hn⟩]
    exact ih hrest

/-- Queries that are answered, and queries that fail for an unknown class, a wrong number of
arguments, a missing anchor, an open bound, an open receiver and, inside a union, a cycle. -/
def mixedQueries : List Query :=
  let looped : Context :=
    ⟨{}, [("X", .union [.ofClass ⟨"::A"⟩, .var "Y"]), ("Y", .var "X"), ("Z", .slot .selfType)]⟩
  [.shape leftFirst .empty, .shape (.singleton ⟨"::A"⟩) .empty, .shape (.ofClass ⟨"::C"⟩) .empty,
    .shape (.named .instanceOf ⟨"::A"⟩ [.nil]) .empty, .shape (.slot .selfType) .empty,
    .shape (.var "Z") looped, .shapeAsSelf (.slot .selfType) .empty,
    .shape (.union [.ofClass ⟨"::B"⟩, .var "X"]) looped,
    .shapeAsSelf (.named .aliasOf ⟨"::either"⟩ []) .empty]

/-- Queries that succeed and fail leave a faithful memory of two classes, a class object and a
union. -/
theorem faithful_after_mixedQueries :
    ∃ b, after oppositeOrders mixedQueries Cache.empty = some b ∧ b.Faithful oppositeOrders [] ∧
      b.instances.map (·.1) = [⟨"::A"⟩, ⟨"::B"⟩] ∧ b.classObjects.map (·.1) = [⟨"::A"⟩] ∧
      b.unions.length = 1 := by
  have hview : (afterWithin oppositeOrders 8 mixedQueries Cache.empty).map (fun b =>
      (b.instances.map (·.1), b.classObjects.map (·.1), b.unions.length)) =
        some ([⟨"::A"⟩, ⟨"::B"⟩], [⟨"::A"⟩], 1) := rfl
  obtain ⟨b, hb, heq⟩ := Option.map_eq_some_iff.mp hview
  have hafter := after_of_afterWithin hb
  obtain ⟨hi, hrest⟩ := Prod.mk.inj heq
  obtain ⟨hc, hu⟩ := Prod.mk.inj hrest
  exact ⟨b, hafter, faithful_after hafter, hi, hc, hu⟩

end Query
end Search
end TypeShape
