import TypeShape.Proofs.Declaration.Unfolding
import TypeShape.Proofs.Failure
import TypeShape.Proofs.Search.Ending
import TypeShape.Proofs.Search.Queries

/-!
# Searches that note what they look through end

Aliases, bounds and anchors replace a type by a larger one, so a search does not get smaller.  But
it never looks through one type inside itself, and when aliases have no parameters it only meets
types that stand in the query or in the declarations.  So the types not yet noted bound the search,
together with the size of the type at hand, and a cycle is reported only for a type that leads back
to itself.

Main results:

- Theorem `Search.ends_step`: a step ends if the searches that it makes do, under their notes.
- Theorem `Search.need_lt`: what remains to be searched gets less.
- Theorem `Search.ends_withinGoal`: a search ends, and reports only types that lead back to
  themselves.
- Theorem `Search.Query.finishes`: all queries end, to a depth that is known in advance.
-/

namespace TypeShape

/-! ## The types inside a type -/

namespace Ty

/-- A type and all types inside it. -/
def subterms (t : Ty) : List Ty :=
  t :: t.parts.attach.flatMap fun u => subterms u.1
termination_by t.weight
decreasing_by exact weight_lt_of_mem_parts u.2

/-- What stands inside a type is the type or stands inside one of its parts. -/
theorem mem_subterms {t u : Ty} : u ∈ t.subterms ↔ u = t ∨ ∃ v ∈ t.parts, u ∈ v.subterms := by
  rw [subterms]
  simp

/-- A type stands inside itself. -/
theorem mem_subterms_self (t : Ty) : t ∈ t.subterms :=
  mem_subterms.mpr (Or.inl rfl)

/-- The parts of what stands inside a type stand inside it. -/
theorem mem_subterms_of_mem_parts {t u v : Ty} (hu : u ∈ t.subterms) (hv : v ∈ u.parts) :
    v ∈ t.subterms := by
  induction t using inductionOnParts with
  | step t ih =>
    rcases mem_subterms.mp hu with rfl | ⟨w, hw, hu⟩
    · exact mem_subterms.mpr (Or.inr ⟨v, hv, mem_subterms_self v⟩)
    · exact mem_subterms.mpr (Or.inr ⟨w, hw, ih w hw hu⟩)

/-- What stands inside a type weighs no more than it. -/
theorem weight_le_of_mem_subterms {t u : Ty} (hu : u ∈ t.subterms) : u.weight ≤ t.weight := by
  induction t using inductionOnParts with
  | step t ih =>
    rcases mem_subterms.mp hu with rfl | ⟨v, hv, hu⟩
    · exact Nat.le_refl _
    · exact Nat.le_trans (ih v hv hu) (Nat.le_of_lt (weight_lt_of_mem_parts hv))

/-- A list has as many types inside as it weighs if each of its types has. -/
theorem length_flatMap_subterms_of {ts : List Ty} (h : ∀ u ∈ ts, u.subterms.length = u.weight) :
    (ts.flatMap subterms).length = weightList ts := by
  induction ts with
  | nil => rfl
  | cons u ts ih =>
    obtain ⟨hu, hts⟩ := List.forall_mem_cons.mp h
    rw [List.flatMap_cons, List.length_append, hu, ih hts, weightList]

/-- There are as many types in a type as it has nodes. -/
theorem length_subterms (t : Ty) : t.subterms.length = t.weight := by
  induction t using inductionOnParts with
  | step t ih =>
    rw [subterms, List.flatMap_subtype, List.unattach_attach, List.length_cons,
      length_flatMap_subterms_of ih, weight_eq]
    · exact fun _ _ => rfl

/-- The parts of a type without placeholders have none. -/
theorem mentionsSlot_eq_false_of_mem_parts {t u : Ty} (hu : u ∈ t.parts)
    (h : t.mentionsSlot = false) : u.mentionsSlot = false := by
  rw [mentionsSlot_eq_false_iff] at h ⊢
  exact fun s hs => h s (mem_occurrences.mpr (Or.inr (Or.inr ⟨u, hu, hs⟩)))

end Ty

/-! ## Aliases without parameters -/

/-- No alias has type parameters. -/
def Table.PlainAliases (T : Table) : Prop :=
  ∀ e ∈ T.aliases, e.2.typeParams = []

/-- Without parameters nothing is bound. -/
theorem Table.bindParams_nil (args : List Ty) (t : Ty) : (bindParams [] args).apply t = t := by
  cases args <;> rfl

/-- An alias without parameters stands for its body, whatever its arguments are. -/
theorem Table.PlainAliases.exists_alias {T : Table} (hT : T.PlainAliases) {name : TypeName}
    {args : List Ty} {t : Ty} (h : T.expansion name args = .ok t) :
    (∃ e ∈ T.aliases, e.2.body = t) ∧ ∀ args', T.expansion name args' = .ok t := by
  unfold expansion at h ⊢
  cases hdecl : T.alias? name with
  | none => simp [hdecl] at h
  | some decl =>
    have hmem : (name, decl) ∈ T.aliases := Keyed.mem_of_get? hdecl
    have hparams : decl.typeParams = [] := hT _ hmem
    simp only [hdecl, hparams, bindParams_nil] at h ⊢
    exact ⟨⟨_, hmem, Except.ok.inj h⟩, fun _ => h⟩

namespace Search

variable {T : Table}

/-! ## Steps under notes -/

/-- The types that are being looked through. -/
def Pending (p : List Ty) (b : Cache) : Prop :=
  b.pending = p

/-- One search asks for another, made under the same notes or under one more. -/
inductive Advances (T : Table) : Goal → List Ty → Goal → List Ty → Prop where
  | slot {g g' : Goal} {h : Shape → Shape} {s : Slot} {p : List Ty} (hf : Goal.Forwards T g g' h)
      (hs : g.type = .slot s) : Advances T g p g' p
  | noted {g g' : Goal} {h : Shape → Shape} {p : List Ty} (hf : Goal.Forwards T g g' h)
      (hs : ∀ s, g.type ≠ .slot s) (hp : p.any (· == g.type) = false) :
      Advances T g p g' (g.type :: p)
  | member {g : Goal} {m : Ty} {p : List Ty} (hl : Leads T g ⟨m, g.context, .outside⟩)
      (hm : m ∈ g.type.parts) : Advances T g p ⟨m, g.context, .outside⟩ p

/-- A search that is asked for under notes is one that the goal leads to. -/
theorem Advances.leads {g g' : Goal} {p p' : List Ty} (h : Advances T g p g' p') :
    Leads T g g' := by
  cases h with
  | slot hf => exact .forward hf
  | noted hf => exact .forward hf
  | member hl => exact hl

/-- What is remembered of declarations leaves the notes alone. -/
theorem admits_pending (T : Table) (p : List Ty) : Admits T (Pending p) :=
  ⟨fun h _ => h, fun h _ => h⟩

/-- Looking through a type ends if the search under one more note does, and reports a cycle if the
type is noted. -/
theorem Ends.lookingThrough {α : Type} {m : Search α} {E : ShapeError → Prop} {t : Ty}
    {p : List Ty} (hcycle : p.any (· == t) = true → E (.cycle t))
    (hm : p.any (· == t) = false → Ends (Pending (t :: p)) m E) :
    Ends (Pending p) (lookingThrough t m) E := by
  rintro b rfl
  cases hp : b.pending.any (· == t) with
  | true =>
    refine ⟨_, b, lookingThrough_eq_some.mpr (Or.inl ⟨hp, rfl, rfl⟩), rfl, ?_⟩
    rintro _ ⟨⟩
    exact hcycle hp
  | false =>
    obtain ⟨r, b₁, hr, hb₁, hE⟩ := hm hp (b := note b t) rfl
    exact ⟨r, unnote b₁, lookingThrough_eq_some.mpr (Or.inr ⟨hp, b₁, hr, rfl⟩),
      congrArg List.tail hb₁, hE⟩

/-- A step ends if the searches that it makes do, under their notes. -/
theorem ends_step {g : Goal} {p : List Ty} {E : ShapeError → Prop}
    {search : Goal → Search (Option Shape)} (hE : ∀ e, NoCycle e → E e)
    (hcycle : p.any (· == g.type) = true → E (.cycle g.type))
    (h : ∀ g' p', Advances T g p g' p' → Ends (Pending p') (search g') E) :
    Ends (Pending p) (g.step T search) E := by
  have hclass : ∀ name receiver label,
      Ends (Pending p) (classShape T name receiver label) E :=
    fun name receiver label => (ends_classShape (admits_pending T p) name receiver label).mono hE
  cases g.form T with
  | direct hd => exact (ends_direct (admits_pending T p) hd search).mono hE
  | stops r _ hr hstep =>
    rw [hstep g.context (.refl g)]
    exact .ret fun e he => hE e fun t ht => hr t (ht ▸ he)
  | stopsNoted r _ hr hstep =>
    rw [hstep g.context (.refl g)]
    exact .lookingThrough hcycle fun _ => .ret fun e he => hE e fun t ht => hr t (ht ▸ he)
  | forwards g' f hf =>
    rw [Goal.step_forwards search hf]
    by_cases hs : ∃ s, g.type = .slot s
    · obtain ⟨s, hs⟩ := hs
      rw [Goal.noted_of_slot hs]
      exact (h g' p (.slot hf hs)).map _
    · have hs : ∀ s, g.type ≠ .slot s := fun s h => hs ⟨s, h⟩
      rw [Goal.noted_of_not_slot hs]
      exact .lookingThrough hcycle fun hp => (h g' _ (.noted hf hs hp)).map _
  | union ms hu =>
    obtain ⟨t, c, v⟩ := g
    obtain rfl : t = .union ms := hu
    exact .searchUnion hclass (fun b s hb => hb) fun m hm hl => h _ p (.member (.union hm hl) hm)
  | inter ms hi =>
    obtain ⟨t, c, v⟩ := g
    obtain rfl : t = .inter ms := hi
    exact .searchInter fun m hm => h _ p (.member (.inter hm) hm)

/-! ## What remains to be searched -/

/-- The types that stand in a query or in the body of an alias. -/
def sources (T : Table) (g : Goal) : List Ty :=
  g.type :: (g.context.anchors.selfType.toList ++ g.context.anchors.classType.toList ++
    g.context.anchors.instanceType.toList ++ g.context.bounds.map (·.2) ++
    T.aliases.map (·.2.body))

/-- These types and all types inside them. -/
def terms (T : Table) (g : Goal) : List Ty :=
  (sources T g).flatMap Ty.subterms

/-- The weight of a query and of the bodies of all aliases. -/
def extent (T : Table) (g : Goal) : Nat :=
  g.type.weight + contextWeight g.context + T.aliasWeight

/-- The weight of the aliases is that of their bodies. -/
theorem aliasWeight_eq (T : Table) :
    T.aliasWeight = Ty.weightList (T.aliases.map (·.2.body)) := by
  have hfold : ∀ (es : List (TypeName × AliasDecl)) (n : Nat),
      es.foldl (fun n e => n + e.2.body.weight) n = n + Ty.weightList (es.map (·.2.body)) := by
    intro es
    induction es with
    | nil => intro n; rfl
    | cons e es ih =>
      intro n
      rw [List.foldl_cons, ih, List.map_cons, Ty.weightList, Nat.add_assoc]
  rw [Table.aliasWeight, hfold, Nat.zero_add]

/-- The types that stand in a query or an alias weigh as much as the query and the aliases. -/
theorem weightList_sources (T : Table) (g : Goal) :
    Ty.weightList (sources T g) = extent T g := by
  simp only [sources, extent, contextWeight, Ty.weightList, Ty.weightList_append, aliasWeight_eq,
    Ty.weightOption_eq, Ty.weightKeywords_eq]
  omega

/-- There are as many types inside them. -/
theorem length_terms (T : Table) (g : Goal) : (terms T g).length = extent T g := by
  rw [terms, Ty.length_flatMap_subterms_of fun u _ => Ty.length_subterms u, weightList_sources]

/-- The types of a query are among the terms. -/
theorem mem_terms_of_mem_sources {g : Goal} {t : Ty} (h : t ∈ sources T g) : t ∈ terms T g :=
  List.mem_flatMap.mpr ⟨t, h, Ty.mem_subterms_self t⟩

/-- The parts of a term are terms. -/
theorem mem_terms_of_mem_parts {g : Goal} {t u : Ty} (h : t ∈ terms T g) (hu : u ∈ t.parts) :
    u ∈ terms T g := by
  obtain ⟨s, hs, ht⟩ := List.mem_flatMap.mp h
  exact List.mem_flatMap.mpr ⟨s, hs, Ty.mem_subterms_of_mem_parts ht hu⟩

/-- A term weighs no more than the query and the aliases. -/
theorem weight_le_extent {g : Goal} {t : Ty} (h : t ∈ terms T g) : t.weight ≤ extent T g := by
  obtain ⟨s, hs, ht⟩ := List.mem_flatMap.mp h
  exact Nat.le_trans (Ty.weight_le_of_mem_subterms ht)
    (weightList_sources T g ▸ Ty.weight_le_weightList hs)

/-- The anchors of a context mention no placeholder. -/
def ClosedAnchors (c : Context) : Prop :=
  ∀ s t, c.anchors.get? s = some t → t.mentionsSlot = false

/-- A context that was made has no anchor with a placeholder. -/
theorem closedAnchors_of_make {anchors : Anchors} {bounds : List (String × Ty)} {c : Context}
    (h : Context.make anchors bounds = .ok c) : ClosedAnchors c := by
  have hcheck : ∀ {s : Slot} {o : Option Ty}, Context.checkAnchor s o = .ok () →
      ∀ t, o = some t → t.mentionsSlot = false := by
    rintro s _ ho t rfl
    by_contra hslot
    simp [Context.checkAnchor, hslot] at ho
  unfold Context.make at h
  obtain ⟨_, hself, h⟩ := exists_of_bind_ok h
  obtain ⟨_, hclass, h⟩ := exists_of_bind_ok h
  obtain ⟨_, hinstance, h⟩ := exists_of_bind_ok h
  obtain rfl := Except.ok.inj h
  intro s t ht
  cases s with
  | selfType => exact hcheck hself t ht
  | classType => exact hcheck hclass t ht
  | instanceType => exact hcheck hinstance t ht

/-- A goal that a search for the first one can meet: its types are among those of the query and of
the declarations. -/
structure Meets (T : Table) (g₀ g : Goal) : Prop where
  type : g.type ∈ terms T g₀
  anchors : ∀ s t, g.context.anchors.get? s = some t → t ∈ terms T g₀
  closed : ClosedAnchors g.context
  bounds : g.context.bounds = g₀.context.bounds

/-- A search for a goal meets the goal. -/
theorem Meets.self {g : Goal} (h : ClosedAnchors g.context) : Meets T g g where
  type := mem_terms_of_mem_sources List.mem_cons_self
  anchors s t ht := by
    refine mem_terms_of_mem_sources (List.mem_cons_of_mem _ ?_)
    cases s <;> simp_all [Anchors.get?]
  closed := h
  bounds := rfl

/-- The bound of a variable is a term. -/
theorem Meets.bound {g₀ g : Goal} (h : Meets T g₀ g) {x : String} {t : Ty}
    (hx : g.context.bound? x = some t) : t ∈ terms T g₀ := by
  rw [Context.bound?, h.bounds] at hx
  refine mem_terms_of_mem_sources (List.mem_cons_of_mem _ ?_)
  have hmem : t ∈ g₀.context.bounds.map (·.2) := List.mem_map_of_mem (Keyed.mem_of_get? hx)
  exact List.mem_append_left _ (List.mem_append_right _ hmem)

/-- What one step asks for is met too. -/
theorem Meets.advances (hT : T.PlainAliases) {g₀ g g' : Goal} {p p' : List Ty} (hg : Meets T g₀ g)
    (h : Advances T g p g' p') : Meets T g₀ g' := by
  have hforward : ∀ f, Goal.Forwards T g g' f → Meets T g₀ g' := by
    intro f hf
    cases hf with
    | slot ha => exact ⟨hg.anchors _ _ ha, hg.anchors, hg.closed, hg.bounds⟩
    | receiver hb => exact ⟨hg.bound hb, hg.anchors, hg.closed, hg.bounds⟩
    | @bound x c bound hb hs =>
      have hself : ∀ s t, (Anchors.get? { selfType := some bound } s) = some t → t = bound := by
        intro s t ht
        cases s <;> simp_all [Anchors.get?]
      refine ⟨hg.bound hb, fun s t ht => ?_, fun s t ht => ?_, hg.bounds⟩
      · exact hself s t ht ▸ hg.bound hb
      · exact hself s t ht ▸ hs
    | expansion he =>
      obtain ⟨⟨e, hmem, rfl⟩, -⟩ := hT.exists_alias he
      refine ⟨mem_terms_of_mem_sources (List.mem_cons_of_mem _ ?_), hg.anchors, hg.closed,
        hg.bounds⟩
      exact List.mem_append_right _ (List.mem_map_of_mem hmem)
  cases h with
  | slot hf => exact hforward _ hf
  | noted hf => exact hforward _ hf
  | member _ hm => exact ⟨mem_terms_of_mem_parts hg.type hm, hg.anchors, hg.closed, hg.bounds⟩

/-- The types that are not noted. -/
def unnoted (T : Table) (g₀ : Goal) (p : List Ty) : List Ty :=
  (terms T g₀).filter fun u => !p.any (· == u)

/-- There are no more types to note than terms. -/
theorem length_unnoted_le (T : Table) (g₀ : Goal) (p : List Ty) :
    (unnoted T g₀ p).length ≤ extent T g₀ :=
  Nat.le_trans (List.length_filter_le _ _) (Nat.le_of_eq (length_terms T g₀))

/-- Noting a term leaves fewer to note. -/
theorem length_unnoted_cons_lt {g₀ : Goal} {p : List Ty} {t : Ty} (ht : t ∈ terms T g₀)
    (hp : p.any (· == t) = false) :
    (unnoted T g₀ (t :: p)).length < (unnoted T g₀ p).length := by
  have hsplit : unnoted T g₀ (t :: p) = (unnoted T g₀ p).filter fun u => !(t == u) := by
    rw [unnoted, unnoted, List.filter_filter]
    exact List.filter_congr fun u _ => by simp
  rw [hsplit]
  refine List.length_filter_lt_length_iff_exists.mpr ⟨t, ?_, by simp⟩
  exact List.mem_filter.mpr ⟨ht, by rw [hp]; rfl⟩

/-- The size of a type.  A placeholder counts more than any anchor. -/
def rank (w : Nat) (t : Ty) : Nat :=
  t.weight + if t.mentionsSlot then w + 1 else 0

/-- The parts of a type are smaller than the type. -/
theorem rank_lt_of_mem_parts {w : Nat} {t u : Ty} (h : u ∈ t.parts) : rank w u < rank w t := by
  have hlt := Ty.weight_lt_of_mem_parts h
  have hslot := Ty.mentionsSlot_eq_false_of_mem_parts h
  unfold rank
  split <;> split <;> simp_all
  omega

/-- A bound on the depth that a search still needs. -/
def need (T : Table) (g₀ : Goal) (p : List Ty) (g : Goal) : Nat :=
  (unnoted T g₀ p).length * (2 * extent T g₀ + 2) + rank (extent T g₀) g.type

/-- No term is larger than twice the extent and one. -/
theorem rank_le {g₀ : Goal} {t : Ty} (h : t ∈ terms T g₀) :
    rank (extent T g₀) t ≤ 2 * extent T g₀ + 1 := by
  have hle := weight_le_extent h
  unfold rank
  split <;> omega

/-- What remains to be searched gets less. -/
theorem need_lt {g₀ g g' : Goal} {p p' : List Ty} (hg : Meets T g₀ g) (hg' : Meets T g₀ g')
    (h : Advances T g p g' p') : need T g₀ p' g' < need T g₀ p g := by
  cases h with
  | slot hf hs =>
    have hrank : rank (extent T g₀) g'.type < rank (extent T g₀) g.type := by
      obtain ⟨t, c, v⟩ := g
      obtain ⟨s, rfl⟩ : ∃ s, t = .slot s := ⟨_, hs⟩
      cases hf with
      | slot ha =>
        have hle := weight_le_extent (hg.anchors _ _ ha)
        have hslot : (Ty.slot s).mentionsSlot = true := by cases s <;> rfl
        simp only [rank, hg.closed _ _ ha, hslot, Ty.weight, if_true, Bool.false_eq_true, if_false]
        omega
    exact Nat.add_lt_add_left hrank _
  | noted hf hs hp =>
    -- One type less is not noted, which outweighs any type that is met next.
    have hcount := length_unnoted_cons_lt hg.type hp
    have hrank := rank_le hg'.type
    have hpos : 0 < rank (extent T g₀) g.type := Nat.lt_of_lt_of_le g.type.weight_pos
      (Nat.le_add_right _ _)
    have hmul := Nat.mul_le_mul_right (2 * extent T g₀ + 2) (Nat.succ_le_of_lt hcount)
    rw [Nat.succ_mul] at hmul
    unfold need
    omega
  | member _ hm => exact Nat.add_lt_add_left (rank_lt_of_mem_parts hm) _

/-- The depth of a search is more than it needs. -/
theorem need_lt_searchDepth {g : Goal} (p : List Ty) :
    need T g p g < searchDepth T g.type g.context := by
  have hrank := rank_le (T := T) (mem_terms_of_mem_sources (T := T) (g := g) List.mem_cons_self)
  have hcount := Nat.mul_le_mul_right (2 * extent T g + 2) (length_unnoted_le T g p)
  calc need T g p g
      ≤ extent T g * (2 * extent T g + 2) + (2 * extent T g + 1) := Nat.add_le_add hcount hrank
    _ < (extent T g + 2) * (2 * extent T g + 4) := by
        rw [Nat.add_mul, Nat.mul_add, Nat.mul_add]
        omega
    _ ≤ (extent T g + 2) * (2 * extent T g + 4) * T.unfoldFactor :=
        Nat.le_mul_of_pos_right _ T.unfoldFactor_pos

/-! ## What is noted -/

/-- The type was noted on the way from one goal to another. -/
def Passed (T : Table) (g₀ : Goal) (u : Ty) (g : Goal) : Prop :=
  ∃ c v g₁ f, Reaches T g₀ ⟨u, c, v⟩ ∧ Goal.Forwards T ⟨u, c, v⟩ g₁ f ∧ (∀ s, u ≠ .slot s) ∧
    Reaches T g₁ g

/-- All notes that were not there at the start were made on the way to the goal. -/
def Trail (T : Table) (g₀ : Goal) (p₀ p : List Ty) (g : Goal) : Prop :=
  Reaches T g₀ g ∧ ∀ u ∈ p, u ∈ p₀ ∨ Passed T g₀ u g

/-- A step keeps the trail. -/
theorem Trail.advances {g₀ g g' : Goal} {p₀ p p' : List Ty} (ht : Trail T g₀ p₀ p g)
    (h : Advances T g p g' p') : Trail T g₀ p₀ p' g' := by
  have hkeep : ∀ u ∈ p, u ∈ p₀ ∨ Passed T g₀ u g' := by
    intro u hu
    refine (ht.2 u hu).imp_right ?_
    rintro ⟨c, v, g₁, f, hr, hf, hs, hr₁⟩
    exact ⟨c, v, g₁, f, hr, hf, hs, hr₁.tail h.leads⟩
  refine ⟨ht.1.tail h.leads, ?_⟩
  cases h with
  | slot => exact hkeep
  | noted hf hs _ =>
    exact List.forall_mem_cons.mpr
      ⟨Or.inr ⟨g.context, g.view, g', _, ht.1, hf, hs, .refl⟩, hkeep⟩
  | member => exact hkeep

/-- A variable or an alias leads back to itself in contexts that the goal reaches.  The notes tell
types apart up to the order of members only. -/
def LeadsBack (T : Table) (g₀ : Goal) (t : Ty) : Prop :=
  ((∃ x, t = .var x) ∨ ∃ name args, t = .named .aliasOf name args) ∧
    ∃ u c v c' v', (u == t) = true ∧ Reaches T g₀ ⟨u, c, v⟩ ∧ Reaches T g₀ ⟨t, c', v'⟩ ∧
      Relation.TransGen (Leads T) ⟨t, c, v⟩ ⟨t, c', v'⟩

/-- Equal types are handed on to the same goal. -/
theorem exists_forwards_of_beq (hT : T.PlainAliases) {t u : Ty} {c : Context} {v : View}
    {g : Goal} {f : Shape → Shape} (hf : Goal.Forwards T ⟨u, c, v⟩ g f) (hs : ∀ s, u ≠ .slot s)
    (hbeq : (u == t) = true) :
    ((∃ x, t = .var x) ∨ ∃ name args, t = .named .aliasOf name args) ∧
      ∃ f', Goal.Forwards T ⟨t, c, v⟩ g f' := by
  have hhead := Ty.head_eq_of_beq hbeq
  cases hf with
  | slot => exact absurd rfl (hs _)
  | @receiver x _ _ hb =>
    obtain rfl := Ty.eq_of_head_of_isAtom rfl hhead.symm
    exact ⟨Or.inl ⟨x, rfl⟩, _, .receiver hb⟩
  | @bound x _ _ hb hclosed =>
    obtain rfl := Ty.eq_of_head_of_isAtom rfl hhead.symm
    exact ⟨Or.inl ⟨x, rfl⟩, _, .bound hb hclosed⟩
  | @expansion name args _ _ _ he =>
    obtain ⟨args', rfl⟩ := Ty.eq_named_of_head hhead.symm
    exact ⟨Or.inr ⟨name, args', rfl⟩, _, .expansion ((hT.exists_alias he).2 args')⟩

/-- A type that is noted already was noted at the start, or leads back to itself. -/
theorem Trail.leadsBack (hT : T.PlainAliases) {g₀ g : Goal} {p₀ p : List Ty}
    (h : Trail T g₀ p₀ p g) (hp : p.any (· == g.type) = true) :
    p₀.any (· == g.type) = true ∨ LeadsBack T g₀ g.type := by
  obtain ⟨u, hu, hbeq⟩ := List.any_eq_true.mp hp
  rcases h.2 u hu with hu | ⟨c, v, g₁, f, hr, hf, hs, hr₁⟩
  · exact Or.inl (List.any_eq_true.mpr ⟨u, hu, hbeq⟩)
  · obtain ⟨hform, f', hf'⟩ := exists_forwards_of_beq hT hf hs hbeq
    exact Or.inr ⟨hform, u, c, v, g.context, g.view, hbeq, hr, h.1, .head' (.forward hf') hr₁⟩

/-! ## Whole searches -/

/-- A search ends to any depth that is more than it needs, and reports a cycle only for a type that
was noted at the start or leads back to itself. -/
theorem ends_withinGoal (hT : T.PlainAliases) {g₀ : Goal} {p₀ : List Ty} (n : Nat) {g : Goal}
    {p : List Ty} (hg : Meets T g₀ g) (ht : Trail T g₀ p₀ p g) (hn : need T g₀ p g < n) :
    Ends (Pending p) (withinGoal T n g) fun e =>
      ∀ t, e = .cycle t → p₀.any (· == t) = true ∨ LeadsBack T g₀ t := by
  induction n generalizing g p with
  | zero => exact absurd hn (Nat.not_lt_zero _)
  | succ n ih =>
    rw [withinGoal_succ]
    refine ends_step (fun e he t heq => absurd heq (he t)) ?_ fun g' p' h => ?_
    · rintro hp _ ⟨⟩
      exact ht.leadsBack hT hp
    · have hg' := hg.advances hT h
      exact ih hg' (ht.advances h) (by have := need_lt hg hg' h; omega)

namespace Query

/-- When aliases have no parameters, every query ends to a depth that is known from the declarations
and the query, whatever is remembered.  It reports a cycle only for a variable or an alias that
leads back to itself. -/
theorem finishes (hT : T.PlainAliases) (q : Query) (hq : ClosedAnchors q.goal.context) :
    (∀ b, ∃ r b', withinGoal T (searchDepth T q.goal.type q.goal.context) q.goal b = some (r, b') ∧
      q.run T b = some (r.map (Option.map q.finish), b')) ∧
    ∀ b b' t, b.pending = [] → q.run T b = some (.error (.cycle t), b') →
      LeadsBack T q.goal t := by
  have hends : ∀ p, Ends (Pending p)
      (withinGoal T (searchDepth T q.goal.type q.goal.context) q.goal) fun e =>
        ∀ t, e = .cycle t → p.any (· == t) = true ∨ LeadsBack T q.goal t :=
    fun p => ends_withinGoal hT _ (Meets.self hq) ⟨.refl, fun u hu => Or.inl hu⟩
      (need_lt_searchDepth p)
  have hrun : ∀ b, ∃ r b',
      withinGoal T (searchDepth T q.goal.type q.goal.context) q.goal b = some (r, b') ∧
      q.run T b = some (r.map (Option.map q.finish), b') := by
    intro b
    obtain ⟨r, b', hr, -⟩ := hends b.pending (b := b) rfl
    refine ⟨r, b', hr, ?_⟩
    rw [run_apply, findGoal_eq_some_iff.mpr ⟨_, hr⟩]
    rfl
  refine ⟨hrun, fun b b' t hb hcycle => ?_⟩
  obtain ⟨r, b₁, hr, -, hE⟩ := hends [] hb
  obtain ⟨r', b₁', hr', hrun'⟩ := hrun b
  obtain ⟨rfl, rfl⟩ := Prod.mk.inj (Option.some.inj (hr.symm.trans hr'))
  rw [hcycle] at hrun'
  obtain ⟨hanswer, -⟩ := Prod.mk.inj (Option.some.inj hrun')
  cases r with
  | ok o => cases hanswer
  | error e =>
    obtain rfl := Except.error.inj hanswer
    exact (hE _ rfl t rfl).resolve_left (by simp)

/-- An alias that leads to another one, which leads to itself and to a variable. -/
def circular : Table where
  modules := oppositeOrders.modules
  aliases := [
    (⟨"::one"⟩, { name := ⟨"::one"⟩,
                  body := .union [.ofClass ⟨"::A"⟩, .named .aliasOf ⟨"::two"⟩ []] }),
    (⟨"::two"⟩, { name := ⟨"::two"⟩,
                  body := .inter [.ofClass ⟨"::B"⟩, .var "X", .named .aliasOf ⟨"::two"⟩ []] })]

/-- The receiver is this variable, and the variable is bound to the first alias. -/
def circularQuery : Query :=
  .shape (.slot .selfType)
    ⟨{ selfType := some (.var "X") }, [("X", .named .aliasOf ⟨"::one"⟩ [])]⟩

/-- A search through a circular bound finishes with a report of the cycle. -/
theorem finishes_circularQuery :
    circular.PlainAliases ∧ ClosedAnchors circularQuery.goal.context ∧
      ∃ b, circularQuery.run circular Cache.empty = some (.error (.cycle (.var "X")), b) ∧
        LeadsBack circular circularQuery.goal (.var "X") := by
  have hplain : circular.PlainAliases := by simp [Table.PlainAliases, circular]
  have hmake : Context.make circularQuery.goal.context.anchors circularQuery.goal.context.bounds =
      .ok circularQuery.goal.context := rfl
  have hclosed := closedAnchors_of_make hmake
  have hfresh : fresh circular circularQuery = some (.error (.cycle (.var "X"))) :=
    fresh_of_within (n := 8) (r := .error (.cycle (.var "X"))) rfl
  obtain ⟨⟨_, b⟩, hrun, rfl⟩ := Option.map_eq_some_iff.mp hfresh
  exact ⟨hplain, hclosed, b, hrun, (finishes hplain circularQuery hclosed).2 _ _ _ rfl hrun⟩

end Query

end Search
end TypeShape
