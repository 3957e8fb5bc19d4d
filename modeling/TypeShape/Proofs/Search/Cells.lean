import TypeShape.Proofs.Search.Faithful
import TypeShape.Proofs.Shape.Open
import TypeShape.Proofs.Types.Flattening

/-!
# Fetching the cells of tuples and records

For every item of a tuple and every field of a record, `fetch` has three overloads: for the index or
key alone, with a default, and with a block that makes one.  The latter two have a type parameter
for the default, always by the same name.  It captures a type variable of this name in what the cell
holds: the variable is no longer free in these overloads, and stands for the default there.

Main results:

- Theorem `Shape.mem_freeVars_lookupOverloads`: what is free in the overloads for a cell.
- Theorem `Shape.forall_mem_freeVars_lookupOverloads_iff`: nothing is captured in them unless it has
  the name of the type parameter.
- Theorem `Search.Query.fetch_captures_default_only`: the overloads for every cell, after any
  queries.
-/

namespace TypeShape
namespace Shape

/-! ## The overloads for one cell -/

/-- A value or the default mentions what the value mentions, besides the default. -/
theorem mem_occurrences_orDefault {value : Ty} (hv : value.Normal) {x : FreeVar}
    (hx : x ≠ .var defaultParam) :
    x ∈ (Ty.unionOf [value, .var defaultParam]).occurrences ↔ x ∈ value.occurrences := by
  by_cases hun : value = .untyped
  · rw [hun, Ty.unionOf_of_mem_untyped List.mem_cons_self]
  · have hdefault : (Ty.var defaultParam).Normal := rfl
    have hmember : Ty.untyped ∉ value.unionParts := by
      intro hmem
      cases hv.isUnionMember hun hmem
    have hother : Ty.untyped ∉ (Ty.var defaultParam).unionParts := by
      simp [Ty.unionParts]
    rw [Ty.mem_occurrences_unionOf (by simp [hv.wellFormed, hdefault.wellFormed])
      (by simp only [List.forall_mem_cons]; exact ⟨hmember, hother, by simp⟩)]
    simp [Ty.occurrences, hx]

section

variable {key value missing : Ty} {o : Overload}

/-- The overloads of a cell have one type parameter, of a fixed name. -/
theorem name_of_mem_typeParams {p : TypeParam} (ho : o ∈ lookupOverloads key value missing)
    (hp : p ∈ o.typeParams) : p.name = defaultParam := by
  rcases types_of_mem_lookupOverloads ho with ⟨hnone, -⟩ | ⟨hone, -⟩
  · rw [hnone] at hp
    cases hp
  · rw [hone] at hp
    rw [List.mem_singleton.mp hp]

variable (hkey : key.occurrences = []) (hmissing : missing.occurrences = []) (hv : value.Normal)

include hkey hmissing hv

/-- Free in an overload for a cell is what is free in the value, less its own type parameter. -/
theorem mem_freeVars_lookupOverloads (ho : o ∈ lookupOverloads key value missing) (x : FreeVar) :
    x ∈ o.freeVars ↔ x ∈ value.freeVars ∧ ∀ p ∈ o.typeParams, x ≠ .var p.name := by
  have hparams : (∀ name ∈ o.paramNames, x ≠ .var name) ↔ ∀ p ∈ o.typeParams, x ≠ .var p.name := by
    simp [Overload.paramNames]
  rw [Overload.mem_freeVars, hparams, Ty.mem_freeVars]
  refine and_congr_left fun hx => ?_
  rw [Overload.mem_occurrences]
  rcases types_of_mem_lookupOverloads ho with ⟨-, htypes⟩ | ⟨hone, htypes⟩
  · simp [htypes, hkey]
  · have hne : x ≠ .var defaultParam := hx _ (hone ▸ List.mem_singleton_self _)
    have hresult := mem_occurrences_orDefault hv hne
    rcases htypes with htypes | htypes
    · simp [htypes, Ty.occurrences, hkey, hne, hresult]
    · simp [htypes, Ty.occurrences, hkey, hmissing, hne, hresult]

/-- All that is free in the value is free in its overloads, unless it has the name of their type
parameter. -/
theorem forall_mem_freeVars_lookupOverloads_iff :
    (∀ o ∈ lookupOverloads key value missing, ∀ x ∈ value.freeVars, x ∈ o.freeVars) ↔
      .var defaultParam ∉ value.freeVars := by
  constructor
  · intro h hcaptured
    -- The overload with a default has the parameter.
    have hdefault : ∃ o ∈ lookupOverloads key value missing, ∃ p ∈ o.typeParams,
        p.name = defaultParam :=
      ⟨_, List.mem_cons_of_mem _ List.mem_cons_self, _, List.mem_cons_self, rfl⟩
    obtain ⟨o, ho, p, hp, hname⟩ := hdefault
    have hfree := (mem_freeVars_lookupOverloads hkey hmissing hv ho _).mp (h o ho _ hcaptured)
    exact hfree.2 p hp (by rw [hname])
  · intro h o ho x hx
    refine (mem_freeVars_lookupOverloads hkey hmissing hv ho x).mpr ⟨hx, ?_⟩
    rintro p hp rfl
    exact h (name_of_mem_typeParams ho hp ▸ hx)

end

/-! ## The overloads in a shape -/

/-- The three overloads of `fetch` for the cell at a position. -/
def fetchOverloads (s : Shape) (k : Nat) : List Overload :=
  ((((s.get? "fetch").map (·.overloads)).getD []).drop (3 * k)).take 3

/-- Every third overload starts those of a cell. -/
theorem take_drop_lookupOverloads {cells : List (Ty × Ty)} {k : Nat} {c : Ty × Ty}
    (hc : cells[k]? = some c) (missing : Ty) (inherited : List Overload) :
    (((cells.flatMap fun c => lookupOverloads c.1 c.2 missing) ++ inherited).drop (3 * k)).take 3 =
      lookupOverloads c.1 c.2 missing := by
  induction cells generalizing k with
  | nil => simp at hc
  | cons a cells ih =>
    cases k with
    | zero =>
      obtain rfl : a = c := by simpa using hc
      rfl
    | succ k =>
      rw [List.flatMap_cons, List.append_assoc, Nat.mul_succ]
      exact ih hc

/-- In refined access the overloads for the cells come first, in order. -/
theorem fetchOverloads_refineAccess {base : Shape} {cells : List (Ty × Ty)} {missing : Ty} {k : Nat}
    {c : Ty × Ty} (hc : cells[k]? = some c) :
    (refineAccess base cells missing).fetchOverloads k = lookupOverloads c.1 c.2 missing := by
  have hget : (refineAccess base cells missing).get? "fetch" =
      some (base.refine "fetch" (cells.flatMap fun c => lookupOverloads c.1 c.2 missing)) :=
    Keyed.get?_insert.trans (if_pos rfl)
  rw [fetchOverloads, hget]
  exact take_drop_lookupOverloads hc missing _

/-- A method of another name changes no overload of `fetch`. -/
theorem fetchOverloads_insert {s : Shape} {name : String} {e : Entry} {k : Nat}
    (hne : name ≠ "fetch") : (s.insert name e).fetchOverloads k = s.fetchOverloads k := by
  have hget : (s.insert name e).get? "fetch" = s.get? "fetch" :=
    Keyed.get?_insert.trans (if_neg hne)
  rw [fetchOverloads, hget, fetchOverloads]

/-- The overloads of `fetch` for an item of a tuple. -/
theorem fetchOverloads_ofTuple {t : Ty} {items : List Ty} {base : Shape} {k : Nat} {v : Ty}
    (hv : items[k]? = some v) :
    (ofTuple t items base).fetchOverloads k =
      lookupOverloads (.literal (.integer k)) v (.ofClass .integer) := by
  have hcell : (tupleCells items)[k]? = some (.literal (.integer k), v) := by
    simp [tupleCells, hv]
  calc (ofTuple t items base).fetchOverloads k
      = (refineAccess base (tupleCells items) (.ofClass .integer)).fetchOverloads k :=
        (fetchOverloads_insert (by decide)).trans (fetchOverloads_insert (by decide))
    _ = _ := fetchOverloads_refineAccess hcell

/-- The overloads of `fetch` for a field of a record. -/
theorem fetchOverloads_ofRecord {t : Ty} {fields : List (Literal × Ty)} {base : Shape} {k : Nat}
    {key : Literal} {v : Ty} (hv : fields[k]? = some (key, v)) :
    (ofRecord t fields base).fetchOverloads k =
      lookupOverloads (.literal key) v (Ty.unionOf (fields.map fun f => .literal f.1)) := by
  have hcell : (recordCells fields)[k]? = some (.literal key, v) := by
    simp [recordCells, hv]
  exact fetchOverloads_refineAccess hcell

/-- The overloads of `fetch` at a position are those for the value that the cell holds; free in them
is what is free in it, less their own type parameter; and only this name is captured. -/
structure FetchesAt (s : Shape) (k : Nat) (key value missing : Ty) : Prop where
  overloads : s.fetchOverloads k = lookupOverloads key value missing
  free : ∀ o ∈ s.fetchOverloads k, ∀ x,
    x ∈ o.freeVars ↔ x ∈ value.freeVars ∧ ∀ p ∈ o.typeParams, x ≠ .var p.name
  captured : (∀ o ∈ s.fetchOverloads k, ∀ x ∈ value.freeVars, x ∈ o.freeVars) ↔
    .var defaultParam ∉ value.freeVars

/-- Overloads that are made for a cell fetch from it. -/
theorem FetchesAt.of_eq {s : Shape} {k : Nat} {key value missing : Ty}
    (h : s.fetchOverloads k = lookupOverloads key value missing) (hkey : key.occurrences = [])
    (hmissing : missing.occurrences = []) (hv : value.Normal) :
    s.FetchesAt k key value missing where
  overloads := h
  free _ ho := mem_freeVars_lookupOverloads hkey hmissing hv (h ▸ ho)
  captured := h ▸ forall_mem_freeVars_lookupOverloads_iff hkey hmissing hv

/-- A tuple fetches from each of its items. -/
theorem FetchesAt.ofTuple {t : Ty} {items : List Ty} (base : Shape)
    (hn : (Ty.tuple items).Normal) {k : Nat} {v : Ty} (hv : items[k]? = some v) :
    (Shape.ofTuple t items base).FetchesAt k (.literal (.integer k)) v (.ofClass .integer) :=
  .of_eq (fetchOverloads_ofTuple hv) rfl rfl (hn.part (List.mem_of_getElem? hv))

/-- A record fetches from each of its fields. -/
theorem FetchesAt.ofRecord {t : Ty} {fields : List (Literal × Ty)} (base : Shape)
    (hn : (Ty.record fields).Normal) {k : Nat} {key : Literal} {v : Ty}
    (hv : fields[k]? = some (key, v)) :
    (Shape.ofRecord t fields base).FetchesAt k (.literal key) v
      (Ty.unionOf (fields.map fun f => .literal f.1)) := by
  have hkeys : (Ty.unionOf (fields.map fun f => Ty.literal f.1)).occurrences = [] := by
    refine List.eq_nil_iff_forall_not_mem.mpr fun x hx => ?_
    obtain ⟨t, ht, hx⟩ := Ty.mem_occurrences_of_unionOf hx
    obtain ⟨f, -, rfl⟩ := List.mem_map.mp ht
    cases hx
  have hpart : v ∈ (Ty.record fields).parts :=
    List.mem_map_of_mem (List.mem_of_getElem? hv)
  exact .of_eq (fetchOverloads_ofRecord hv) rfl hkeys (hn.part hpart)

end Shape

/-! ## Queries -/

namespace Search

variable {T : Table}

/-- A class that takes that many arguments and whose methods are known. -/
def Provides (T : Table) (name : TypeName) (count : Nat) : Prop :=
  Takes T name count ∧ ∃ methods, instanceTable T name = .ok methods

namespace Query

/-- A goal that refines the shape of a class is answered if the class is provided. -/
theorem run_of_provides {q : Query} {name : TypeName} {args : List Ty} {anchors : Subst}
    {refined : Shape → Shape} (hq : q.goal.context = .empty) (ha : anchors.vars = [])
    (hstep : q.goal.step T (findGoal T) =
      applied T name args anchors none >>= fun base => pure (some (refined base)))
    (h : Provides T name args.length) {b : Cache} (hb : b.Right T) :
    ∃ base b', q.run T b = some (.ok (some (refined base)), b') := by
  have hshape : ∃ base, Returns T (applied T name args anchors none) (.ok base) :=
    (exists_returns_applied_iff ha).mpr h
  obtain ⟨base, hbase⟩ := hshape
  have hreturns : Returns T (q.goal.step T (findGoal T)) (.ok (some (refined base))) := by
    rw [hstep]
    exact hbase.bind (.pure _)
  obtain ⟨b', hrun⟩ := run_of_returns hreturns hb
  rw [finish_of_empty hq, Option.map_id] at hrun
  exact ⟨base, b', hrun⟩

/-- After any queries, tuples and records are answered; the overloads that fetch a cell keep free
what is free in its value, exactly if the name of their own type parameter is not free in it. -/
theorem fetch_captures_default_only {qs : List Query} {b : Cache}
    (hb : after T qs Cache.empty = some b) (harray : Provides T .array 1)
    (hhash : Provides T .hash 2) :
    (∀ items, (Ty.tuple items).Normal →
      ∃ s b', (Query.shape (.tuple items) .empty).run T b = some (.ok (some s), b') ∧
        ∀ k v, items[k]? = some v →
          s.FetchesAt k (.literal (.integer k)) v (.ofClass .integer)) ∧
    ∀ fields, (Ty.record fields).Normal →
      ∃ s b', (Query.shape (.record fields) .empty).run T b = some (.ok (some s), b') ∧
        ∀ k key v, fields[k]? = some (key, v) →
          s.FetchesAt k (.literal key) v (Ty.unionOf (fields.map fun f => .literal f.1)) := by
  have hright : b.Right T := (faithful_after_of_faithful (.empty T) hb).right
  constructor
  · intro items hn
    obtain ⟨base, b', hrun⟩ := run_of_provides (q := .shape (.tuple items) .empty)
      rfl rfl rfl harray hright
    exact ⟨_, b', hrun, fun k v hv => .ofTuple base hn hv⟩
  · intro fields hn
    obtain ⟨base, b', hrun⟩ := run_of_provides (q := .shape (.record fields) .empty)
      rfl rfl rfl hhash hright
    exact ⟨_, b', hrun, fun k key v hv => .ofRecord base hn hv⟩

/-- The classes of tuples and records, without methods. -/
def containers : Table where
  modules := [
    (.array, { name := .array, kind := .classDecl, typeParams := [{ name := "Elem" }] }),
    (.hash, { name := .hash, kind := .classDecl,
              typeParams := [{ name := "K" }, { name := "V" }] })]

/-- A tuple and a record whose cells mention the fixed name. -/
theorem fetch_from_containers :
    let items : List Ty := [.var Shape.defaultParam, .union [.var "U", .nil]]
    let fields : List (Literal × Ty) := [(.symbol "id", .tuple [.var Shape.defaultParam])]
    Provides containers .array 1 ∧ Provides containers .hash 2 ∧
    ∃ b s s' b₁ b₂, after containers [.shape (.tuple items) .empty] Cache.empty = some b ∧
      (Query.shape (.tuple items) .empty).run containers b = some (.ok (some s), b₁) ∧
      (Query.shape (.record fields) .empty).run containers b = some (.ok (some s'), b₂) ∧
      (¬ ∀ o ∈ s.fetchOverloads 0, ∀ x ∈ (Ty.var Shape.defaultParam).freeVars, x ∈ o.freeVars) ∧
      (∀ o ∈ s.fetchOverloads 1, FreeVar.var "U" ∈ o.freeVars) ∧
      (s'.fetchOverloads 0).map Overload.freeVars = [[.var Shape.defaultParam], [], []] := by
  intro items fields
  have harray : Provides containers .array 1 := ⟨.inr ⟨_, rfl, rfl⟩, _, rfl⟩
  have hhash : Provides containers .hash 2 := ⟨.inr ⟨_, rfl, rfl⟩, _, rfl⟩
  obtain ⟨b, hafter⟩ : ∃ b, after containers [.shape (.tuple items) .empty] Cache.empty = some b :=
    ⟨_, after_of_afterWithin (n := 1) rfl⟩
  obtain ⟨htuples, hrecords⟩ := fetch_captures_default_only hafter harray hhash
  obtain ⟨s, b₁, hs, hcells⟩ := htuples items (by decide)
  obtain ⟨s', b₂, hs', hcells'⟩ := hrecords fields (by decide)
  refine ⟨harray, hhash, b, s, s', b₁, b₂, hafter, hs, hs', ?_, ?_, ?_⟩
  · exact fun h => (hcells 0 _ rfl).captured.mp h (by decide)
  · exact fun o ho => (hcells 1 _ rfl).captured.mpr (by decide) o ho _ (by decide)
  · rw [(hcells' 0 _ _ rfl).overloads]
    decide

end Query
end Search
end TypeShape
