import TypeShape.Proofs.Grammar.Spilled
import TypeShape.Proofs.Types.Nesting

/-!
# What spills over is lost

The load of a type counts its parts, and the result of a proc twice.  Joining types never adds to
it, and equal types carry the same load.  When members of a result spill over, they are counted once
less: so a type that is read as an equal one has nothing that spills over.

Main results:

- Theorem `Ty.load_eq_of_beq`: equal types carry the same load.
- Theorem `Ty.within_spill`: what is read carries at most the load of what was written, and as much
  only if that is plain.
- Theorem `Ty.plain_of_asRead_beq`: a type that is read as an equal one is plain.
-/

namespace TypeShape

/-- The types of a callable besides its result. -/
def Callable.others {α : Type} (c : Callable α) : List α :=
  c.arrow.params.toList ++ (c.block.map Block.toList).getD []

/-- The types of a callable are its result and the others. -/
theorem Callable.mem_toList_iff {c : Callable Ty} {t : Ty} :
    t ∈ c.toList ↔ t = c.arrow.result ∨ t ∈ c.others := by
  simp only [toList, Arrow.toList, others, List.mem_append, List.mem_singleton]
  tauto

/-- Mapping a callable maps the types beside its result. -/
theorem Callable.others_map (f : Ty → Ty) (c : Callable Ty) :
    (c.map f).others = c.others.map f := by
  cases hb : c.block <;>
    simp [others, map, hb, Arrow.map, Params.toList_map, Block.map, Block.toList, Arrow.toList,
      Option.toList_map]

namespace Ty

/-! ## The load of a type -/

/-- The parts of a type, with the result of a proc once more. -/
def burden : Ty → List Ty
  | proc c => c.arrow.result :: c.toList
  | t => t.parts

/-- What a type is burdened with are parts of it. -/
theorem mem_parts_of_mem_burden {t u : Ty} (h : u ∈ t.burden) : u ∈ t.parts := by
  cases t with
  | proc c =>
    rcases List.mem_cons.mp h with rfl | h
    · exact result_mem_parts c
    · exact h
  | _ => exact h

/-- How many types a type holds, where what stands in the result of a proc counts twice. -/
def load (t : Ty) : Nat :=
  t.burden.attach.foldr (fun u n => load u.1 + n) 1
termination_by t.weight
decreasing_by exact weight_lt_of_mem_parts (mem_parts_of_mem_burden u.2)

/-- The load of some types together. -/
def loads (ts : List Ty) : Nat :=
  ts.foldr (fun t n => t.load + n) 0

/-- No types have no load. -/
@[simp]
theorem loads_nil : loads [] = 0 :=
  rfl

/-- The load of a list is that of its head and its tail. -/
@[simp]
theorem loads_cons (t : Ty) (ts : List Ty) : loads (t :: ts) = t.load + loads ts :=
  rfl

/-- The load of two lists is the sum. -/
@[simp]
theorem loads_append (ts us : List Ty) : loads (ts ++ us) = loads ts + loads us := by
  induction ts with
  | nil => simp
  | cons t ts ih =>
    rw [List.cons_append, loads_cons, loads_cons, ih]
    omega

/-- The load of a type is one more than that of its burden. -/
theorem load_eq (t : Ty) : t.load = 1 + loads t.burden := by
  have hfoldr : ∀ ts : List Ty, ts.foldr (fun u n => u.load + n) 1 = 1 + loads ts := by
    intro ts
    induction ts with
    | nil => rfl
    | cons u ts ih =>
      rw [List.foldr_cons, ih, loads_cons]
      omega
  rw [load, List.foldr_attach (f := fun (u : Ty) n => u.load + n)]
  exact hfoldr t.burden

/-- The load of the types of a callable is that of its result and the others. -/
theorem loads_toList (c : Callable Ty) : loads c.toList = c.arrow.result.load + loads c.others := by
  simp only [Callable.toList, Arrow.toList, Callable.others, loads_append, loads_cons, loads_nil]
  omega

/-- The result of a procedure counts twice. -/
theorem load_proc (c : Callable Ty) :
    (proc c).load = 1 + 2 * c.arrow.result.load + loads c.others := by
  rw [load_eq, burden, loads_cons, loads_toList]
  omega

/-- Other types are burdened with their parts. -/
theorem burden_of_ne_proc {t : Ty} (h : ∀ c, t ≠ proc c) : t.burden = t.parts := by
  cases t with
  | proc c => exact absurd rfl (h c)
  | _ => rfl

/-! ## Lists of types -/

/-- Fewer types have less load. -/
theorem loads_le_of_subperm {ts us : List Ty} (h : ts.Subperm us) : loads ts ≤ loads us := by
  obtain ⟨vs, hperm, hsub⟩ := h
  have hsame : loads vs = loads ts := by
    clear hsub
    induction hperm with
    | nil => rfl
    | cons t _ ih => rw [loads_cons, loads_cons, ih]
    | swap t u ts =>
      simp only [loads_cons]
      omega
    | trans _ _ ih ih' => exact ih.trans ih'
  rw [← hsame]
  clear hsame hperm
  induction hsub with
  | slnil => exact Nat.le_refl _
  | cons t _ ih =>
    rw [loads_cons]
    omega
  | cons_cons t _ ih =>
    rw [loads_cons, loads_cons]
    omega

/-- Types with less load one by one have less load together. -/
theorem loads_le_of_forall₂ {R : Ty → Ty → Prop} {ts us : List Ty} (h : List.Forall₂ R ts us)
    (hle : ∀ t ∈ ts, ∀ u ∈ us, R t u → t.load ≤ u.load) : loads ts ≤ loads us := by
  induction h with
  | nil => exact Nat.le_refl _
  | cons hR _ ih =>
    have hhead := hle _ List.mem_cons_self _ List.mem_cons_self hR
    have htail := ih fun t ht u hu =>
      hle t (List.mem_cons_of_mem _ ht) u (List.mem_cons_of_mem _ hu)
    rw [loads_cons, loads_cons]
    omega

/-- Types that are replaced by lighter ones. -/
theorem loads_map_le {f : Ty → Ty} {ts : List Ty} (h : ∀ t ∈ ts, (f t).load ≤ t.load) :
    loads (ts.map f) ≤ loads ts := by
  induction ts with
  | nil => exact Nat.le_refl _
  | cons t ts ih =>
    obtain ⟨ht, hts⟩ := List.forall_mem_cons.mp h
    have hle := ih hts
    rw [List.map_cons, loads_cons, loads_cons]
    omega

/-- If the load stays, it stays of each. -/
theorem load_le_of_loads_map {f : Ty → Ty} {ts : List Ty} (h : ∀ t ∈ ts, (f t).load ≤ t.load)
    (hle : loads ts ≤ loads (ts.map f)) : ∀ t ∈ ts, t.load ≤ (f t).load := by
  induction ts with
  | nil => simp
  | cons t ts ih =>
    obtain ⟨ht, hts⟩ := List.forall_mem_cons.mp h
    have hmap := loads_map_le hts
    rw [List.map_cons, loads_cons, loads_cons] at hle
    exact List.forall_mem_cons.mpr ⟨by omega, ih hts (by omega)⟩

/-! ## Joins -/

/-- Adding types to those not there yet adds no more than their load. -/
theorem loads_foldl_pushNew_le (ms ts : List Ty) :
    loads (ts.foldl pushNew ms) ≤ loads ms + loads ts := by
  induction ts generalizing ms with
  | nil => exact Nat.le_refl _
  | cons t ts ih =>
    have hpush : loads (pushNew ms t) ≤ loads ms + t.load := by
      unfold pushNew
      split <;> simp
    have hle := ih (pushNew ms t)
    rw [List.foldl_cons, loads_cons]
    omega

/-- The distinct parts of types have no more load than the types. -/
theorem loads_distinct_flatMap_le {f : Ty → List Ty} (hf : ∀ t, loads (f t) ≤ t.load)
    (ts : List Ty) : loads (distinct (ts.flatMap f)) ≤ loads ts := by
  have hflat : loads (ts.flatMap f) ≤ loads ts := by
    induction ts with
    | nil => exact Nat.le_refl _
    | cons t ts ih =>
      have ht := hf t
      rw [List.flatMap_cons, loads_append, loads_cons]
      omega
  have hdistinct := loads_foldl_pushNew_le [] (ts.flatMap f)
  rw [loads_nil, Nat.zero_add] at hdistinct
  exact Nat.le_trans hdistinct hflat

/-- What members collapse to: the only one, or a type that holds them. -/
theorem load_le_of_members {t : Ty} {ms : List Ty} (h : ms = [t] ∨ t.burden = ms) :
    t.load ≤ 1 + loads ms := by
  rcases h with rfl | rfl
  · simp
  · exact Nat.le_of_eq t.load_eq

/-- A union has no more load than its members and one. -/
theorem load_unionOf_le (ts : List Ty) : (unionOf ts).load ≤ 1 + loads ts := by
  have hparts : ∀ t : Ty, loads t.unionParts ≤ t.load := by
    intro t
    cases t with
    | union ms =>
      rw [load_eq]
      exact Nat.le_add_left _ _
    | bot => exact Nat.zero_le _
    | _ => simp [unionParts]
  have hcollapse : ∀ ms : List Ty, (collapseUnion ms).load ≤ 1 + loads ms := by
    intro ms
    refine load_le_of_members ?_
    unfold collapseUnion
    split
    · exact .inr rfl
    · exact .inl rfl
    · exact .inr rfl
  have hle := loads_distinct_flatMap_le hparts ts
  by_cases hun : untyped ∈ ts.flatMap unionParts
  · rw [unionOf_eq_untyped hun, load_eq]
    exact Nat.le_add_right 1 _
  · have hmembers := hcollapse (distinct (ts.flatMap unionParts))
    rw [unionOf_eq_collapse hun]
    omega

/-- An intersection has no more load than its members and one. -/
theorem load_interOf_le (ts : List Ty) : (interOf ts).load ≤ 1 + loads ts := by
  have hparts : ∀ t : Ty, loads t.interParts ≤ t.load := by
    intro t
    cases t with
    | inter ms =>
      rw [load_eq]
      exact Nat.le_add_left _ _
    | top => exact Nat.zero_le _
    | _ => simp [interParts]
  have hcollapse : ∀ ms : List Ty, (collapseInter ms).load ≤ 1 + loads ms := by
    intro ms
    refine load_le_of_members ?_
    unfold collapseInter
    split
    · exact .inr rfl
    · exact .inl rfl
    · exact .inr rfl
  have hle := loads_distinct_flatMap_le hparts ts
  have hmembers := hcollapse (distinct (ts.flatMap interParts))
  rw [interOf_eq]
  omega

/-! ## Equal types -/

/-- What makes up the load of a type stands in every equal type, one by one. -/
theorem exists_subperm_burden {t u : Ty} (ht : t.WellFormed) (hu : u.WellFormed)
    (h : (t == u) = true) :
    ∃ cs, cs.Subperm u.burden ∧ List.Forall₂ (fun a b => (a == b) = true) t.burden cs := by
  have hhead := head_eq_of_beq h
  have hburden : (∀ c, t ≠ proc c) → t.burden = t.parts ∧ u.burden = u.parts := by
    refine fun hproc => ⟨burden_of_ne_proc hproc, burden_of_ne_proc ?_⟩
    rintro d rfl
    obtain ⟨c, rfl⟩ := eq_proc_of_head hhead
    exact hproc c rfl
  by_cases hset : t.isSet = true
  · obtain ⟨-, -, htotal⟩ := (beq_iff_of_isSet hset).mp h
    -- Two members that are equal to one would be equal to each other.
    have hinj : t.parts.Pairwise fun a a' =>
        ∀ b ∈ u.parts, (a == b) = true → ¬ (a' == b) = true := by
      refine (ht.pairwise hset).imp_of_mem fun {a a'} ha ha' hne b hb hab hab' => ?_
      have haa' := beq_of_beq_of_beq hab (beq_symm (ht.part ha') (hu.part hb) hab')
      exact Bool.false_ne_true (hne.symm.trans haa')
    obtain ⟨htparts, huparts⟩ := hburden (by rintro c rfl; cases hset)
    rw [htparts, huparts]
    exact exists_subperm_of_rel htotal hinj
  · refine ⟨u.burden, List.Subperm.refl _, ?_⟩
    obtain ⟨-, hparts⟩ := (beq_iff_of_not_isSet (Bool.eq_false_iff.mpr hset)).mp h
    cases t with
    | proc c =>
      obtain ⟨d, rfl⟩ := eq_proc_of_head hhead.symm
      have hrel : c.Rel (fun a b => (a == b) = true) d :=
        Callable.rel_iff.mpr (beqCallable_iff.mp h)
      exact .cons hrel.1.2 hparts
    | _ =>
      rw [(hburden (by rintro c ⟨⟩)).2]
      exact hparts

/-- Equal types have the same load. -/
theorem load_le_of_beq {t u : Ty} (ht : t.WellFormed) (hu : u.WellFormed) (h : (t == u) = true) :
    t.load ≤ u.load := by
  induction t using inductionOnParts generalizing u with
  | step t ih =>
    obtain ⟨cs, hsub, hall⟩ := exists_subperm_burden ht hu h
    have hle : loads t.burden ≤ loads cs := by
      refine loads_le_of_forall₂ hall fun a ha b hb hab => ?_
      have hpart := mem_parts_of_mem_burden (hsub.subset hb)
      have hpart' := mem_parts_of_mem_burden ha
      exact ih a hpart' (ht.part hpart') (hu.part hpart) hab
    rw [load_eq t, load_eq u]
    exact Nat.add_le_add_left (Nat.le_trans hle (loads_le_of_subperm hsub)) 1

/-- Equal types carry the same load. -/
theorem load_eq_of_beq {t u : Ty} (ht : t.WellFormed) (hu : u.WellFormed) (h : (t == u) = true) :
    t.load = u.load :=
  Nat.le_antisymm (load_le_of_beq ht hu h) (load_le_of_beq hu ht (beq_symm ht hu h))

/-! ## What spills over -/

/-- The load of a factor and the members after it. -/
def Spill.load (s : Spill) : Nat :=
  s.head.load + if s.tail = [] then 0 else 1 + loads s.tail

/-- The types that are spilled have no more load as a whole. -/
theorem Spill.load_whole_le (s : Spill) : s.whole.load ≤ s.load := by
  obtain ⟨head, isUnion, tail⟩ := s
  cases tail with
  | nil => exact Nat.le_refl _
  | cons t tail =>
    have hunion := load_unionOf_le (head :: t :: tail)
    have hinter := load_interOf_le (head :: t :: tail)
    rw [loads_cons] at hunion hinter
    cases isUnion with
    | true =>
      change (unionOf (head :: t :: tail)).load ≤ _
      simp only [Spill.load, reduceCtorEq, if_false]
      omega
    | false =>
      change (interOf (head :: t :: tail)).load ≤ _
      simp only [Spill.load, reduceCtorEq, if_false]
      omega

/-- Two members or more make a type of their load and one. -/
theorem Spill.load_ofMembers {isUnion : Bool} {ms : List Ty} (h : 2 ≤ ms.length) :
    (ofMembers isUnion ms).load = 1 + loads ms := by
  cases ms with
  | nil => cases h
  | cons m ms =>
    cases ms with
    | nil => simp at h
    | cons n ms =>
      simp only [Spill.load, ofMembers, List.headD_cons, List.tail_cons, reduceCtorEq, if_false,
        loads_cons]
      omega

/-- What is read carries at most the load of a type, and as much only if no proc in the type has a
union or an intersection as its result. -/
structure Spill.Within (s : Spill) (t : Ty) : Prop where
  load_le : s.load ≤ t.load
  plain : t.load ≤ s.load → t.Plain

section Parts

variable {t : Ty} (h : ∀ u ∈ t.parts, u.spill.Within u)

include h

/-- Parts have no more load as they are read. -/
theorem load_asRead_le {u : Ty} (hu : u ∈ t.parts) : u.asRead.load ≤ u.load :=
  Nat.le_trans u.spill.load_whole_le (h u hu).load_le

/-- Nor have lists of parts. -/
theorem loads_asRead_le {ts : List Ty} (hts : ∀ u ∈ ts, u ∈ t.parts) :
    loads (ts.map asRead) ≤ loads ts :=
  loads_map_le fun u hu => load_asRead_le h (hts u hu)

/-- Parts that lose no load as they are read are plain. -/
theorem plain_of_loads_le {ts : List Ty} (hts : ∀ u ∈ ts, u ∈ t.parts)
    (hle : loads ts ≤ loads (ts.map asRead)) : ∀ u ∈ ts, u.Plain := by
  intro u hu
  have hload := load_le_of_loads_map (fun u hu => load_asRead_le h (hts u hu)) hle u hu
  exact (h u (hts u hu)).plain (Nat.le_trans hload u.spill.load_whole_le)

/-- What keeps all its load has plain parts. -/
theorem plain_of_burden_le (hproc : ∀ c, t ≠ proc c)
    (hle : t.load ≤ 1 + loads (t.parts.map asRead)) : t.Plain := by
  rw [load_eq, burden_of_ne_proc hproc] at hle
  refine all_iff.mpr ⟨?_, plain_of_loads_le h (fun _ hu => hu) (by omega)⟩
  cases t with
  | proc c => exact absurd rfl (hproc c)
  | _ => rfl

/-- Members that are read have no more load than the type. -/
theorem within_ofMembers (isUnion : Bool) (hset : t.isSet = true) (hlength : 2 ≤ t.parts.length) :
    (Spill.ofMembers isUnion (t.parts.map asRead)).Within t := by
  have hproc : ∀ c, t ≠ proc c := by
    rintro c rfl
    cases hset
  have hspill : (Spill.ofMembers isUnion (t.parts.map asRead)).load =
      1 + loads (t.parts.map asRead) :=
    Spill.load_ofMembers (by simpa using hlength)
  have hle := loads_asRead_le h fun _ hu => hu
  refine ⟨?_, fun hge => plain_of_burden_le h hproc (hspill ▸ hge)⟩
  rw [hspill, load_eq, burden_of_ne_proc hproc]
  omega

/-- Parts that are read in place have no more load than the type. -/
theorem within_mapParts (hproc : ∀ c, t ≠ proc c) :
    ({ head := t.mapParts asRead } : Spill).Within t := by
  have hspill : ({ head := t.mapParts asRead } : Spill).load = 1 + loads (t.parts.map asRead) := by
    change (t.mapParts asRead).load = _
    rw [load_eq, burden_of_ne_proc, parts_mapParts]
    intro c hc
    cases t with
    | proc c => exact hproc c rfl
    | _ => cases hc
  have hle := loads_asRead_le h fun _ hu => hu
  refine ⟨?_, fun hge => plain_of_burden_le h hproc (hspill ▸ hge)⟩
  rw [hspill, load_eq, burden_of_ne_proc hproc]
  omega

end Parts

/-- Of a union or an intersection, all members but the first spill over. -/
theorem tail_spill_ne_nil {t : Ty} (h : t.Normal) (hset : t.isSet = true) : t.spill.tail ≠ [] := by
  have htail : ∀ {isUnion : Bool} {ms : List Ty}, 2 ≤ ms.length →
      (Spill.ofMembers isUnion (ms.map asRead)).tail ≠ [] := fun {isUnion ms} hlength hnil => by
    have hzero := congrArg List.length hnil
    simp only [Spill.ofMembers, List.length_tail, List.length_map, List.length_nil] at hzero
    omega
  cases t with
  | union ms =>
    rw [spill_union]
    exact htail (normalHere_union.mp (all_here h)).1
  | inter ms =>
    rw [spill_inter]
    exact htail (normalHere_inter.mp (all_here h)).1
  | _ => cases hset

/-- The result of a proc counts twice, and what spills over from it only once. -/
theorem within_proc {c : Callable Ty} (hresult : c.arrow.result.Normal)
    (h : ∀ u ∈ (proc c).parts, u.spill.Within u) : (proc c).spill.Within (proc c) := by
  have hothers : ∀ u ∈ c.others, u ∈ (proc c).parts :=
    fun u hu => Callable.mem_toList_iff.mpr (Or.inr hu)
  have hle := loads_asRead_le h hothers
  obtain ⟨hload, hplain⟩ := h _ (result_mem_parts c)
  have htail := tail_spill_ne_nil hresult
  rw [spill_proc]
  generalize c.arrow.result.spill = s at hload hplain htail
  have hspill : ({ s with head := proc ((c.map asRead).withResult s.head) } : Spill).load =
      1 + s.head.load + loads (c.others.map asRead) + s.load := by
    rw [Spill.load, load_proc, Spill.load, ← Callable.others_map]
    dsimp only [Callable.withResult, Callable.others]
    omega
  have hhead : s.head.load ≤ s.load := Nat.le_add_right _ _
  -- All the load is kept only if the result is read as a whole.
  have hkept :
      (proc c).load ≤ ({ s with head := proc ((c.map asRead).withResult s.head) } : Spill).load →
      s.tail = [] ∧ c.arrow.result.load ≤ s.load ∧
        loads c.others ≤ loads (c.others.map asRead) := by
    intro hge
    rw [hspill, load_proc] at hge
    have hnil : s.tail = [] := by
      by_contra hne
      rw [Spill.load, if_neg hne] at hload hge
      omega
    exact ⟨hnil, by omega, by omega⟩
  refine ⟨?_, fun hge => ?_⟩
  · rw [hspill, load_proc]
    omega
  · obtain ⟨hnil, hresultLe, hothersLe⟩ := hkept hge
    have hset : c.arrow.result.isSet = false := by
      by_contra hset
      exact htail (Bool.not_eq_false _ ▸ hset) hnil
    refine all_iff.mpr ⟨by simp [plainHere, hset], fun u hu => ?_⟩
    rcases Callable.mem_toList_iff.mp hu with rfl | hu
    · exact hplain hresultLe
    · exact plain_of_loads_le h hothers hothersLe u hu

/-- What is read for a type carries at most its load, and as much only if the type is plain. -/
theorem within_spill {t : Ty} (h : t.Normal) : t.spill.Within t := by
  induction t using inductionOnParts with
  | step t ih =>
    have hparts : ∀ u ∈ t.parts, u.spill.Within u := fun u hu => ih u hu (all_part h hu)
    cases t with
    | union ms =>
      rw [spill_union]
      exact within_ofMembers hparts true rfl (normalHere_union.mp (all_here h)).1
    | inter ms =>
      rw [spill_inter]
      exact within_ofMembers hparts false rfl (normalHere_inter.mp (all_here h)).1
    | proc c => exact within_proc (all_part h (result_mem_parts c)) hparts
    | _ =>
      rw [spill_eq_mapParts rfl (by rintro c ⟨⟩)]
      exact within_mapParts hparts (by rintro c ⟨⟩)

/-- A type that is read as an equal one is plain. -/
theorem plain_of_asRead_beq {t : Ty} (h : t.Normal) (hread : t.asRead.Normal)
    (hbeq : (t.asRead == t) = true) : t.Plain := by
  have hload := load_eq_of_beq hread.wellFormed h.wellFormed hbeq
  exact (within_spill h).plain (hload ▸ t.spill.load_whole_le)

end Ty
end TypeShape
