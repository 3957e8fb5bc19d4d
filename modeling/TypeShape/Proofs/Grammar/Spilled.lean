import TypeShape.Proofs.Grammar.Printed
import TypeShape.Proofs.Types.Signatures

/-!
# What is read of a written type

A proc is written without parentheses around its result, and one factor is read there.  So where the
result is a union or an intersection, only its first member is read as the result: the others spill
over and are joined with the proc, or with the outermost of several procs.  Markers of type
parameters are not written at all.

Main results:

- Definition `Ty.asRead`: the type that is read for the tokens of a type.
- Theorem `Ty.asRead_of_plain`: nothing changes where no proc has a union or an intersection as its
  result.
- Theorem `Overload.asRead_of_plain`: the same of overloads without markers.
-/

namespace TypeShape
namespace Ty

/-! ## Replacing the parts -/

/-- The type with its parts replaced. -/
def mapParts (f : Ty → Ty) : Ty → Ty
  | named kind name args => named kind name (args.map f)
  | union ms => union (ms.map f)
  | inter ms => inter (ms.map f)
  | tuple items => tuple (items.map f)
  | record fields => record (fields.map fun e => (e.1, f e.2))
  | proc c => proc (c.map f)
  | t => t

/-- Mapping the parts of a type maps them one by one. -/
theorem parts_mapParts (f : Ty → Ty) (t : Ty) : (t.mapParts f).parts = t.parts.map f := by
  cases t <;> simp [mapParts, parts, Callable.toList_map, Function.comp_def]

/-- Mapping a callable depends on the images of its types only. -/
theorem callableMap_congr {f g : Ty → Ty} {c : Callable Ty} (h : ∀ t ∈ c.toList, f t = g t) :
    c.map f = c.map g := by
  rw [Callable.eq_iff, Callable.frame_map, Callable.frame_map, Callable.toList_map,
    Callable.toList_map]
  exact ⟨rfl, List.map_congr_left h⟩

/-- Mapping the parts of a type depends on their images only. -/
theorem mapParts_congr {f g : Ty → Ty} {t : Ty} (h : ∀ u ∈ t.parts, f u = g u) :
    t.mapParts f = t.mapParts g := by
  have hlist : ∀ ts : List Ty, (∀ u ∈ ts, f u = g u) → ts.map f = ts.map g :=
    fun _ => List.map_congr_left
  cases t with
  | named kind name args => rw [mapParts, mapParts, hlist args h]
  | union ms => rw [mapParts, mapParts, hlist ms h]
  | inter ms => rw [mapParts, mapParts, hlist ms h]
  | tuple items => rw [mapParts, mapParts, hlist items h]
  | record fields =>
    have hfields : (fields.map fun e => (e.1, f e.2)) = fields.map fun e => (e.1, g e.2) :=
      List.map_congr_left fun e he => by rw [h e.2 (List.mem_map_of_mem he)]
    rw [mapParts, mapParts, hfields]
  | proc c => rw [mapParts, mapParts, callableMap_congr h]
  | _ => rfl

/-- A type whose parts stay as they are stays as it is. -/
theorem mapParts_eq_self {f : Ty → Ty} {t : Ty} (h : ∀ u ∈ t.parts, f u = u) :
    t.mapParts f = t := by
  rw [mapParts_congr (g := id) h]
  cases t with
  | proc c => exact congrArg proc (Callable.map_eq_self fun _ _ => rfl)
  | _ => simp [mapParts]

/-! ## Members that spill over -/

/-- What is read where one factor is asked for: the factor, and the members that stand after it with
bars or ampersands before them. -/
structure Spill where
  head : Ty
  isUnion : Bool := true
  tail : List Ty := []

namespace Spill

/-- The mark before each member after the factor. -/
def mark (s : Spill) : TokenKind :=
  if s.isUnion then .pipe else .amp

/-- The factor and the members after it, joined. -/
def whole (s : Spill) : Ty :=
  Parser.joinMembers (if s.isUnion then unionOf else interOf) (s.head :: s.tail)

/-- The first of some members is the factor. -/
def ofMembers (isUnion : Bool) (ms : List Ty) : Spill :=
  ⟨ms.headD bot, isUnion, ms.tail⟩

end Spill

/-- What is read for the tokens of a type, from what is read for those of its parts. -/
def spillWith (spill : Ty → Spill) : Ty → Spill
  | union ms => .ofMembers true (ms.map fun m => (spill m).whole)
  | inter ms => .ofMembers false (ms.map fun m => (spill m).whole)
  | proc c =>
    let result := spill c.arrow.result
    { result with head := proc ((c.map fun t => (spill t).whole).withResult result.head) }
  | t => { head := t.mapParts fun u => (spill u).whole }

/-- The result of a procedure is a part of it. -/
theorem result_mem_parts (c : Callable Ty) : c.arrow.result ∈ (proc c).parts :=
  Callable.mem_toList.mpr (Or.inr (Or.inl rfl))

/-- What is spilled depends on what the parts spill only. -/
theorem spillWith_congr {f g : Ty → Spill} {t : Ty} (h : ∀ u ∈ t.parts, f u = g u) :
    spillWith f t = spillWith g t := by
  have hwhole : ∀ u ∈ t.parts, (f u).whole = (g u).whole := fun u hu => by rw [h u hu]
  have hlist : ∀ ts : List Ty, (∀ u ∈ ts, (f u).whole = (g u).whole) →
      (ts.map fun u => (f u).whole) = ts.map fun u => (g u).whole := fun _ => List.map_congr_left
  cases t with
  | union ms => rw [spillWith, spillWith, hlist ms hwhole]
  | inter ms => rw [spillWith, spillWith, hlist ms hwhole]
  | proc c => rw [spillWith, spillWith, h _ (result_mem_parts c), callableMap_congr hwhole]
  | _ => exact congrArg (fun t => ({ head := t } : Spill)) (mapParts_congr hwhole)

/-- What is read for the tokens of a type where one factor is asked for. -/
def spill (t : Ty) : Spill :=
  spillWith (fun u => if u.weight < t.weight then spill u else { head := u }) t
termination_by t.weight

/-- What is read for the tokens of a type. -/
def asRead (t : Ty) : Ty :=
  t.spill.whole

/-- What is spilled by a type is made of what its parts spill. -/
theorem spill_eq (t : Ty) : t.spill = spillWith spill t := by
  rw [spill]
  exact spillWith_congr fun u hu => if_pos (weight_lt_of_mem_parts hu)

/-- Members spill over only from procs and sets of members. -/
theorem spill_eq_mapParts {t : Ty} (hset : t.isSet = false) (hproc : ∀ c, t ≠ proc c) :
    t.spill = { head := t.mapParts asRead } := by
  rw [spill_eq]
  cases t with
  | union ms => cases hset
  | inter ms => cases hset
  | proc c => exact absurd rfl (hproc c)
  | _ => rfl

/-- Types other than procedures, unions and intersections are read with their parts in place. -/
theorem asRead_eq_mapParts {t : Ty} (hset : t.isSet = false) (hproc : ∀ c, t ≠ proc c) :
    t.asRead = t.mapParts asRead := by
  rw [asRead, spill_eq_mapParts hset hproc]
  rfl

/-- A procedure spills what its result does, and keeps the head of it. -/
theorem spill_proc (c : Callable Ty) : (proc c).spill =
    { c.arrow.result.spill with
      head := proc ((c.map asRead).withResult c.arrow.result.spill.head) } := by
  rw [spill_eq]
  rfl

/-- A union spills all members but the first. -/
theorem spill_union (ms : List Ty) : (union ms).spill = .ofMembers true (ms.map asRead) := by
  rw [spill_eq]
  rfl

/-- So does an intersection. -/
theorem spill_inter (ms : List Ty) : (inter ms).spill = .ofMembers false (ms.map asRead) := by
  rw [spill_eq]
  rfl

/-- What the members of a set make together is the set. -/
theorem Spill.whole_ofMembers {isUnion : Bool} {ms : List Ty} (h : 2 ≤ ms.length) :
    (ofMembers isUnion ms).whole = if isUnion then unionOf ms else interOf ms := by
  cases ms with
  | nil => cases h
  | cons m ms =>
    cases ms with
    | nil => simp at h
    | cons n ms => cases isUnion <;> rfl

/-! ## Nothing spills over -/

/-- Where no proc has a union or an intersection as its result, a type is read as it is. -/
theorem spill_of_plain {t : Ty} (h : t.Normal) (hplain : t.Plain) :
    (t.isSet = false → t.spill = { head := t }) ∧ t.asRead = t := by
  induction t using inductionOnParts with
  | step t ih =>
    have hparts : ∀ u ∈ t.parts, u.asRead = u :=
      fun u hu => (ih u hu (all_part h hu) (all_part hplain hu)).2
    have hmembers : ∀ ms : List Ty, (∀ u ∈ ms, u.asRead = u) → ms.map asRead = ms :=
      fun ms hms => (List.map_congr_left hms).trans (List.map_id ms)
    have hof : t.spill = { head := t } → (t.isSet = false → t.spill = { head := t }) ∧
        t.asRead = t := fun hspill => ⟨fun _ => hspill, by rw [asRead, hspill]; rfl⟩
    have hhere := all_here h
    cases t with
    | union ms =>
      refine ⟨by rintro ⟨⟩, ?_⟩
      rw [asRead, spill_union, hmembers ms hparts,
        Spill.whole_ofMembers (normalHere_union.mp hhere).1]
      exact unionOf_eq_self hhere
    | inter ms =>
      refine ⟨by rintro ⟨⟩, ?_⟩
      rw [asRead, spill_inter, hmembers ms hparts,
        Spill.whole_ofMembers (normalHere_inter.mp hhere).1]
      exact interOf_eq_self hhere
    | proc c =>
      refine hof ?_
      have hset : c.arrow.result.isSet = false := by simpa [plainHere] using all_here hplain
      have hmem := result_mem_parts c
      rw [spill_proc, (ih _ hmem (all_part h hmem) (all_part hplain hmem)).1 hset,
        Callable.map_eq_self hparts]
      rfl
    | _ =>
      refine hof ?_
      rw [spill_eq_mapParts rfl (by rintro c ⟨⟩), mapParts_eq_self hparts]

/-- A plain type in normal form is read as itself. -/
theorem asRead_of_plain {t : Ty} (h : t.Normal) (hplain : t.Plain) : t.asRead = t :=
  (spill_of_plain h hplain).2

end Ty

/-! ## Overloads -/

/-- What is read for the tokens of a type parameter. -/
def TypeParam.asRead (p : TypeParam) : TypeParam where
  name := p.name
  bound := p.bound.map Ty.asRead

namespace Overload

/-- What is read for the tokens of an overload. -/
def asRead (o : Overload) : Overload where
  typeParams := o.typeParams.map TypeParam.asRead
  callable := o.callable.map Ty.asRead
  origins := []

/-- An overload is read type by type. -/
theorem types_asRead (o : Overload) : o.asRead.types = o.types.map Ty.asRead := by
  have hbound : ∀ p : TypeParam, (p.asRead).bound.toList = p.bound.toList.map Ty.asRead := by
    intro p
    cases h : p.bound <;> simp [TypeParam.asRead, h]
  simp only [types, asRead, Callable.toList_map, List.map_append, List.flatMap_map, hbound,
    List.map_flatMap]

/-- An overload that is plain is read as it is. -/
theorem asRead_of_plain {o : Overload} (h : o.Normal) (hplain : o.Plain) :
    o.asRead = { o with origins := [] } := by
  have htypes : ∀ t ∈ o.types, t.asRead = t :=
    fun t ht => Ty.asRead_of_plain (h t ht) (hplain.types t ht)
  have hparams : o.typeParams.map TypeParam.asRead = o.typeParams := by
    refine (List.map_congr_left fun p hp => ?_).trans (List.map_id _)
    obtain ⟨hvariance, hchecked⟩ := hplain.typeParams p hp
    have hbound : p.bound.map Ty.asRead = p.bound := by
      cases hb : p.bound with
      | none => rfl
      | some t =>
        have hmem : t ∈ o.types :=
          List.mem_append_right _ (List.mem_flatMap.mpr ⟨p, hp, by simp [hb]⟩)
        rw [Option.map_some, htypes t hmem]
    rw [TypeParam.asRead, hbound, ← hvariance, ← hchecked]
    rfl
  rw [asRead, hparams, Callable.map_eq_self fun t ht => htypes t (List.mem_append_left _ ht)]

end Overload
end TypeShape
