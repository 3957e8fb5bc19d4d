import TypeShape.Proofs.Types.Overloads

/-!
# Renaming under type parameters

A renaming maps variables to variables.  Applied to an overload it spares the overload's own type
parameters, but what it puts in stands under them.  So the free variables of the result are the
images of the free variables exactly when no free variable is renamed to a type parameter.

Main results:

- Theorem `Subst.mem_occurrences_replace`: a renamed type in normal form mentions exactly the images
  of what the type mentions.
- Theorem `Subst.mem_freeVars_applyOverload_iff`: the free variables are renamed one by one if and
  only if none of them is captured.
-/

namespace TypeShape

namespace Ty

/-- The types that unions and intersections can collapse to or be absorbed by. -/
def isBound : Ty → Bool
  | untyped => true
  | top => true
  | bot => true
  | _ => false

/-- The head of a bound determines it. -/
theorem eq_of_head_of_isBound {t k : Ty} (hk : k.isBound = true) (h : t.head = k.head) : t = k := by
  cases k with
  | untyped => exact eq_untyped_of_head h
  | top => exact eq_top_of_head h
  | bot => exact eq_bot_of_head h
  | _ => simp [isBound] at hk

/-- Two or more distinct types are not all one. -/
theorem exists_ne_of_pairwise {ms : List Ty} (hlen : 2 ≤ ms.length)
    (hd : ms.Pairwise fun a b => (a == b) = false) (k : Ty) : ∃ m ∈ ms, m ≠ k := by
  rcases ms with _ | ⟨a, _ | ⟨b, ms⟩⟩
  · simp at hlen
  · simp at hlen
  · by_cases ha : a = k
    · refine ⟨b, by simp, ?_⟩
      rintro rfl
      have hab := (List.pairwise_cons.mp hd).1 b List.mem_cons_self
      simp [ha] at hab
    · exact ⟨a, by simp, ha⟩

/-- Where everything that is kept is one bound, everything is. -/
theorem eq_of_distinct_eq_singleton {ts : List Ty} {k : Ty} (hk : k.isBound = true)
    (h : distinct ts = [k]) : ∀ t ∈ ts, t = k := by
  intro t ht
  obtain ⟨u, hu, hut⟩ := exists_mem_distinct ht
  obtain rfl : u = k := by simpa [h] using hu
  exact eq_of_head_of_isBound hk (head_eq_of_beq hut).symm

/-- A union of types in normal form, none of them absorbed, is a bound only if they all are. -/
theorem eq_of_unionOf_eq {ts : List Ty} {k : Ty} (hk : k.isBound = true) (hts : ts ≠ [])
    (hnormal : ∀ t ∈ ts, t.Normal) (hun : untyped ∉ ts) (hbot : bot ∉ ts)
    (h : unionOf ts = k) : ∀ t ∈ ts, t = k := by
  have hmember : ∀ u ∈ ts.flatMap unionParts, u ≠ untyped := by
    rintro u hu rfl
    obtain ⟨t, ht, hut⟩ := List.mem_flatMap.mp hu
    rcases mem_unionParts hut with ⟨rfl, -⟩ | ⟨ms, rfl, hu⟩
    · exact hun ht
    · exact absurd ((normalHere_union.mp (all_here (hnormal _ ht))).2.2 _ hu)
        (by simp [isUnionMember])
  have hnot : ¬ (distinct (ts.flatMap unionParts)).any isUntyped = true := by
    intro hany
    obtain ⟨m, hm, hmu⟩ := List.any_eq_true.mp hany
    exact hmember m (mem_of_mem_distinct hm) (isUntyped_iff.mp hmu)
  -- No type is `bot`, so every type contributes a member.
  have hparts : ∀ t ∈ ts, ∃ u, u ∈ t.unionParts ∧ (t ≠ k → u ≠ k) := by
    intro t ht
    by_cases hset : ∃ ms, t = union ms
    · obtain ⟨ms, rfl⟩ := hset
      obtain ⟨hlen, hd, -⟩ := normalHere_union.mp (all_here (hnormal _ ht))
      obtain ⟨m, hm, hne⟩ := exists_ne_of_pairwise hlen hd k
      exact ⟨m, hm, fun _ => hne⟩
    · have hpart : t.unionParts = [t] :=
        unionParts_eq_of_ne (fun ms hms => hset ⟨ms, hms⟩) fun hb => hbot (hb ▸ ht)
      exact ⟨t, by simp [hpart], id⟩
  rw [unionOf_eq, if_neg hnot] at h
  rcases collapseUnion_cases (distinct (ts.flatMap unionParts)) with
    ⟨hd, -⟩ | ⟨m, hd, hc⟩ | ⟨-, hc⟩
  · obtain ⟨t, ht⟩ := List.exists_mem_of_ne_nil ts hts
    obtain ⟨u, hu, -⟩ := hparts t ht
    obtain ⟨d, hd', -⟩ := exists_mem_distinct (List.mem_flatMap.mpr ⟨t, ht, hu⟩)
    simp [hd] at hd'
  · intro t ht
    by_contra hne
    obtain ⟨u, hu, huk⟩ := hparts t ht
    have hall := eq_of_distinct_eq_singleton hk (hd.trans (by rw [← h, hc]))
    exact huk hne (hall u (List.mem_flatMap.mpr ⟨t, ht, hu⟩))
  · rw [← h, hc] at hk
    simp [isBound] at hk

/-- An intersection of types in normal form, none of them dropped, is a bound only if they all
are. -/
theorem eq_of_interOf_eq {ts : List Ty} {k : Ty} (hk : k.isBound = true) (hts : ts ≠ [])
    (hnormal : ∀ t ∈ ts, t.Normal) (htop : top ∉ ts) (h : interOf ts = k) : ∀ t ∈ ts, t = k := by
  have hparts : ∀ t ∈ ts, ∃ u, u ∈ t.interParts ∧ (t ≠ k → u ≠ k) := by
    intro t ht
    by_cases hset : ∃ ms, t = inter ms
    · obtain ⟨ms, rfl⟩ := hset
      obtain ⟨hlen, hd, -⟩ := normalHere_inter.mp (all_here (hnormal _ ht))
      obtain ⟨m, hm, hne⟩ := exists_ne_of_pairwise hlen hd k
      exact ⟨m, hm, fun _ => hne⟩
    · have hpart : t.interParts = [t] :=
        interParts_eq_of_ne (fun ms hms => hset ⟨ms, hms⟩) fun hb => htop (hb ▸ ht)
      exact ⟨t, by simp [hpart], id⟩
  rw [interOf_eq] at h
  rcases collapseInter_cases (distinct (ts.flatMap interParts)) with
    ⟨hd, -⟩ | ⟨m, hd, hc⟩ | ⟨-, hc⟩
  · obtain ⟨t, ht⟩ := List.exists_mem_of_ne_nil ts hts
    obtain ⟨u, hu, -⟩ := hparts t ht
    obtain ⟨d, hd', -⟩ := exists_mem_distinct (List.mem_flatMap.mpr ⟨t, ht, hu⟩)
    simp [hd] at hd'
  · intro t ht
    by_contra hne
    obtain ⟨u, hu, huk⟩ := hparts t ht
    have hall := eq_of_distinct_eq_singleton hk (hd.trans (by rw [← h, hc]))
    exact huk hne (hall u (List.mem_flatMap.mpr ⟨t, ht, hu⟩))
  · rw [← h, hc] at hk
    simp [isBound] at hk

end Ty

namespace Subst

/-- Variables are mapped to variables and placeholders stay. -/
structure Renaming (s : Subst) : Prop where
  anchors : s.anchors.isEmpty = true
  vars : ∀ e ∈ s.vars, ∃ y, e.2 = .var y

/-- The image of a placeholder or variable under a renaming. -/
def rename (s : Subst) : FreeVar → FreeVar
  | .slot p => .slot p
  | .var x =>
    match s.get? x with
    | some (.var y) => .var y
    | _ => .var x

/-- A renaming puts in variables and placeholders only. -/
theorem Renaming.imageOf {s : Subst} (hs : s.Renaming) (x : FreeVar) :
    s.imageOf x = (s.rename x).toTy := by
  rcases x with p | x
  · have hnone : s.anchors.get? p = none := by
      have hempty := hs.anchors
      simp only [Anchors.isEmpty, Bool.and_eq_true, Option.isNone_iff_eq_none] at hempty
      cases p <;> simp [Anchors.get?, hempty]
    simp [Subst.imageOf, image?, hnone, rename]
  · cases hx : s.get? x with
    | none => simp [Subst.imageOf, image?, hx, rename]
    | some t =>
      obtain ⟨y, rfl⟩ : ∃ y, t = .var y := hs.vars _ (Keyed.mem_of_get? hx)
      simp [Subst.imageOf, image?, hx, rename, FreeVar.toTy]

/-- Renaming a type in normal form gives one in normal form. -/
theorem Renaming.normal_replace {s : Subst} (hs : s.Renaming) {t : Ty} (ht : t.Normal) :
    (s.replace t).Normal := by
  refine Subst.normal_replace ht fun x _ => ?_
  rw [hs.imageOf]
  cases s.rename x <;> rfl

/-- A renaming makes no type in normal form a bound that was not one. -/
theorem Renaming.eq_of_replace_eq {s : Subst} (hs : s.Renaming) {t k : Ty} (ht : t.Normal)
    (hk : k.isBound = true) (h : s.replace t = k) : t = k := by
  induction t using Ty.inductionOnParts generalizing k with
  | step t ih =>
    have hnormal : ∀ v ∈ t.parts.map s.replace, v.Normal := by
      intro v hv
      obtain ⟨u, hu, rfl⟩ := List.mem_map.mp hv
      exact hs.normal_replace (ht.part hu)
    have hback : ∀ u ∈ t.parts, ∀ k' : Ty, k'.isBound = true → s.replace u = k' → u = k' :=
      fun u hu k' hk' h' => ih u hu (ht.part hu) hk' h'
    rcases t.form_cases with ⟨x, rfl⟩ | ⟨ms, rfl⟩ | ⟨ms, rfl⟩ | hr
    · rw [replace_toTy, hs.imageOf] at h
      rw [← h] at hk
      cases hx : s.rename x <;> simp [hx, FreeVar.toTy, Ty.isBound] at hk
    · obtain ⟨hlen, hd, hmember⟩ := Ty.normalHere_union.mp (Ty.all_here ht)
      have hkept : ∀ k', k'.isBound = true → Ty.isUnionMember k' = false →
          k' ∉ ms.map s.replace := by
        intro k' hk' hno hmem
        obtain ⟨m, hm, hmk⟩ := List.mem_map.mp hmem
        have hmm := hmember m hm
        rw [hback m hm k' hk' hmk, hno] at hmm
        exact Bool.false_ne_true hmm
      have hne : ms.map s.replace ≠ [] := by
        rintro hnil
        rw [List.map_eq_nil_iff.mp hnil] at hlen
        simp at hlen
      rw [replace_union] at h
      have hall := Ty.eq_of_unionOf_eq hk hne hnormal (hkept _ rfl rfl)
        (hkept _ rfl rfl) h
      obtain ⟨m, hm, hne⟩ := Ty.exists_ne_of_pairwise hlen hd k
      exact absurd (hback m hm k hk (hall _ (List.mem_map_of_mem hm))) hne
    · obtain ⟨hlen, hd, hmember⟩ := Ty.normalHere_inter.mp (Ty.all_here ht)
      have htop : Ty.top ∉ ms.map s.replace := by
        intro hmem
        obtain ⟨m, hm, hmk⟩ := List.mem_map.mp hmem
        have hmm := hmember m hm
        rw [hback m hm _ rfl hmk] at hmm
        simp [Ty.isInterMember] at hmm
      have hne : ms.map s.replace ≠ [] := by
        rintro hnil
        rw [List.map_eq_nil_iff.mp hnil] at hlen
        simp at hlen
      rw [replace_inter] at h
      have hall := Ty.eq_of_interOf_eq hk hne hnormal htop h
      obtain ⟨m, hm, hne⟩ := Ty.exists_ne_of_pairwise hlen hd k
      exact absurd (hback m hm k hk (hall _ (List.mem_map_of_mem hm))) hne
    · have hhead := head_replace (s := s) hr
      rw [h] at hhead
      exact Ty.eq_of_head_of_isBound hk hhead.symm

/-- A renamed type in normal form mentions exactly the images of what the type mentions. -/
theorem Renaming.mem_occurrences_replace {s : Subst} (hs : s.Renaming) {t : Ty} (ht : t.Normal)
    {x : FreeVar} : x ∈ (s.replace t).occurrences ↔ ∃ y ∈ t.occurrences, s.rename y = x := by
  constructor
  · intro h
    obtain ⟨y, hy, hxy⟩ := mem_occurrences_of_replace h
    rw [hs.imageOf, FreeVar.occurrences_toTy, List.mem_singleton] at hxy
    exact ⟨y, hy, hxy.symm⟩
  · rintro ⟨y, hy, rfl⟩
    induction t using Ty.inductionOnParts with
    | step t ih =>
      have hwf : ∀ v ∈ t.parts.map s.replace, v.WellFormed := by
        intro v hv
        obtain ⟨u, hu, rfl⟩ := List.mem_map.mp hv
        exact (hs.normal_replace (ht.part hu)).wellFormed
      have hpart : t.isSet = true ∨ t.isRigid = true →
          ∃ v ∈ t.parts.map s.replace, s.rename y ∈ v.occurrences := by
        intro hform
        rcases Ty.mem_occurrences.mp hy with ⟨p, rfl, -⟩ | ⟨z, rfl, -⟩ | ⟨u, hu, hyu⟩
        · simp [Ty.isSet, Ty.isRigid] at hform
        · simp [Ty.isSet, Ty.isRigid] at hform
        · exact ⟨s.replace u, List.mem_map_of_mem hu, ih u hu (ht.part hu) hyu⟩
      rcases t.form_cases with ⟨z, rfl⟩ | ⟨ms, rfl⟩ | ⟨ms, rfl⟩ | hr
      · rw [FreeVar.occurrences_toTy, List.mem_singleton] at hy
        rw [replace_toTy, hs.imageOf, hy]
        simp
      · -- A renamed member is never absorbed: only `untyped` itself would be.
        have hun : ∀ v ∈ ms.map s.replace, Ty.untyped ∉ v.unionParts := by
          intro v hv hmem
          obtain ⟨m, hm, rfl⟩ := List.mem_map.mp hv
          have hmm := (Ty.normalHere_union.mp (Ty.all_here ht)).2.2 m hm
          have hn := hs.normal_replace (ht.part (t := .union ms) hm)
          rcases Ty.mem_unionParts hmem with ⟨heq, -⟩ | ⟨inner, heq, hin⟩
          · rw [hs.eq_of_replace_eq (ht.part (t := .union ms) hm) rfl heq.symm] at hmm
            simp [Ty.isUnionMember] at hmm
          · rw [heq] at hn
            have := (Ty.normalHere_union.mp (Ty.all_here hn)).2.2 _ hin
            simp [Ty.isUnionMember] at this
        rw [replace_union]
        exact (Ty.mem_occurrences_unionOf hwf hun).mpr (hpart (Or.inl rfl))
      · rw [replace_inter]
        exact (Ty.mem_occurrences_interOf hwf).mpr (hpart (Or.inl rfl))
      · rw [Ty.mem_occurrences_of_isRigid (isRigid_replace hr), parts_replace hr]
        exact hpart (Or.inr hr)

/-! ## Overloads -/

/-- A renaming stays one under the parameters of an overload. -/
theorem Renaming.under {s : Subst} (hs : s.Renaming) (o : Overload) : (s.under o).Renaming where
  anchors := hs.anchors
  vars e he := hs.vars e (mem_foldl_erase he)

/-- There it leaves the parameters alone. -/
theorem rename_under {s : Subst} {o : Overload} {x : FreeVar} :
    (s.under o).rename x =
      if ∃ name ∈ o.paramNames, x = .var name then x else s.rename x := by
  rcases x with p | x
  · simp [rename]
  · simp only [rename, Subst.under, get?_without, FreeVar.var.injEq, exists_eq_right']
    by_cases hx : x ∈ o.paramNames <;> simp [hx]

/-- The free variables of a renamed overload are the images of its free variables, less those that
one of its type parameters captures. -/
theorem Renaming.mem_freeVars_applyOverload {s : Subst} (hs : s.Renaming) {o : Overload}
    (ho : o.Normal) {x : FreeVar} :
    x ∈ (s.applyOverload o).freeVars ↔
      (∃ y ∈ o.freeVars, s.rename y = x) ∧ ∀ name ∈ o.paramNames, x ≠ .var name := by
  rw [Overload.mem_freeVars, paramNames_applyOverload, Overload.mem_occurrences,
    types_applyOverload]
  refine and_congr_left fun hx => ?_
  constructor
  · rintro ⟨v, hv, hxv⟩
    obtain ⟨t, ht, rfl⟩ := List.mem_map.mp hv
    rw [apply_eq_replace (ho t ht), (hs.under o).mem_occurrences_replace (ho t ht)] at hxv
    obtain ⟨y, hy, rfl⟩ := hxv
    have hfree : ∀ name ∈ o.paramNames, y ≠ .var name := by
      rintro name hname rfl
      rw [rename_under, if_pos ⟨name, hname, rfl⟩] at hx
      exact hx name hname rfl
    have hsame : (s.under o).rename y = s.rename y := by
      rw [rename_under, if_neg fun ⟨name, hname, hyn⟩ => hfree name hname hyn]
    rw [hsame]
    exact ⟨y, Overload.mem_freeVars.mpr ⟨Overload.mem_occurrences.mpr ⟨t, ht, hy⟩, hfree⟩, rfl⟩
  · rintro ⟨y, hy, rfl⟩
    obtain ⟨hocc, hfree⟩ := Overload.mem_freeVars.mp hy
    obtain ⟨t, ht, hyt⟩ := Overload.mem_occurrences.mp hocc
    refine ⟨(s.under o).apply t, List.mem_map_of_mem ht, ?_⟩
    rw [apply_eq_replace (ho t ht), (hs.under o).mem_occurrences_replace (ho t ht)]
    exact ⟨y, hyt, by rw [rename_under, if_neg fun ⟨name, hname, hyn⟩ => hfree name hname hyn]⟩

/-- Renaming an overload renames its free variables, one by one, if and only if no free variable is
renamed to one of its type parameters. -/
theorem freeVars_applyOverload_iff_not_captured {s : Subst} (hs : s.Renaming) {o : Overload}
    (ho : o.Normal) :
    (∀ x, x ∈ (s.applyOverload o).freeVars ↔ ∃ y ∈ o.freeVars, s.rename y = x) ↔
      ∀ y ∈ o.freeVars, ∀ p ∈ o.typeParams, s.rename y ≠ .var p.name := by
  constructor
  · intro h y hy p hp
    have hmem := (h (s.rename y)).mpr ⟨y, hy, rfl⟩
    exact (hs.mem_freeVars_applyOverload ho |>.mp hmem).2 p.name (List.mem_map_of_mem hp)
  · intro h x
    rw [hs.mem_freeVars_applyOverload ho]
    refine and_iff_left_of_imp ?_
    rintro ⟨y, hy, rfl⟩ name hname
    obtain ⟨p, hp, rfl⟩ := List.mem_map.mp hname
    exact h y hy p hp

/-- The overload `[T] (U | V) { (T) [self: U] -> V } -> ::Array[T]`. -/
def eachOverload : Overload where
  typeParams := [{ name := "T" }]
  callable :=
    { arrow :=
        { params := { required := [.union [.var "U", .var "V"]] }
          result := .named .instanceOf .array [.var "T"] }
      block := some
        { arrow := { params := { required := [.var "T"] }, result := .var "V" }
          optional := false
          receiver := some (.var "U") } }

/-- Renaming `U` to `V` in it makes the two one, and captures neither. -/
theorem freeVars_rename_eachOverload :
    (∀ y ∈ eachOverload.freeVars, ∀ p ∈ eachOverload.typeParams,
      Subst.rename { vars := [("U", .var "V")] } y ≠ .var p.name) ∧
    ∀ x, x ∈ (Subst.applyOverload { vars := [("U", .var "V")] } eachOverload).freeVars ↔
      ∃ y ∈ eachOverload.freeVars, Subst.rename { vars := [("U", .var "V")] } y = x := by
  have hren : Renaming { vars := [("U", .var "V")] } := ⟨rfl, by simp⟩
  have hfree : ∀ y ∈ eachOverload.freeVars, ∀ p ∈ eachOverload.typeParams,
      Subst.rename { vars := [("U", .var "V")] } y ≠ .var p.name := by decide
  exact ⟨hfree, (freeVars_applyOverload_iff_not_captured hren (by decide)).mpr hfree⟩

/-- In `[T] (U) -> T` the variable `U`, renamed to `T`, is captured: `T` is the image of a free
variable but not free in the result. -/
theorem rename_captured :
    let s : Subst := { vars := [("U", .var "T")] }
    let o : Overload :=
      { typeParams := [{ name := "T" }]
        callable := ⟨⟨{ required := [.var "U"] }, .var "T"⟩, none⟩ }
    (∃ y ∈ o.freeVars, s.rename y = .var "T") ∧ .var "T" ∉ (s.applyOverload o).freeVars := by
  decide

end Subst
end TypeShape
