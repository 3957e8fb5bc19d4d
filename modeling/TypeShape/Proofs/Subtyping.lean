import TypeShape.Proofs.Declaration.Ancestors
import TypeShape.Proofs.Types.Interchange
import TypeShape.Subtyping

/-!
# Subtyping of equal types

Subtyping reads types through their forms and compares parts with the same relation, within a
smaller budget.  Each rule therefore gives one answer on equal types if the comparison of further
types does, and by induction on the budget so does subtyping.

Main results:

- Theorem `Table.rule_congr`: one step of subtyping respects equality.
- Theorem `Table.isSubtype_congr`: subtyping respects equality on both sides.
- Theorem `Ty.equality_is_congruence`: equality is an equivalence that substitution, free
  variables, subtyping, unions and intersections respect.
-/

namespace TypeShape

open Ty (Same)

namespace Table

/-- The comparison gives one answer on equal types. -/
def Respects (below : Ty → Ty → Bool) : Prop :=
  ∀ a a' b b', Same a a' → Same b b' → below a b = below a' b'

/-- The types that subtyping reads from declarations are well formed. -/
structure TypesWellFormed (T : Table) : Prop where
  parents : ∀ e ∈ T.modules, ∀ t ∈ e.2.parents, t.WellFormed
  aliases : T.AliasesWellFormed

variable {T : Table} {below : Ty → Ty → Bool} {a a' b b' : Ty}

/-! ## Applications -/

/-- Whether arguments agree does not depend on how they are written. -/
theorem argsAgree_congr : Respects argsAgree := by
  intro a a' b b' ha hb
  have huntyped : ∀ {t t' : Ty}, Same t t' → t.isUntyped = t'.isUntyped := by
    intro t t' h
    cases h.alike with
    | atom => rfl
    | _ => rfl
  rw [argsAgree, argsAgree, ha.beq_eq hb, huntyped ha, huntyped hb]

/-- The arguments of types that are the same are the same. -/
theorem applicationArgs?_rel (h : Same a b) :
    Option.Rel (List.Forall₂ Same) (applicationArgs? a) (applicationArgs? b) := by
  cases h.alike with
  | atom hatom => cases a <;> first | exact .none | cases hatom
  | @named kind _ _ _ hargs =>
    cases kind with
    | aliasOf => exact .none
    | _ => exact .some hargs
  | _ => exact .none

/-- Types that are the same are put for type parameters or refused alike. -/
theorem ofLists_argsOrUntyped (params : List TypeParam) (args : List Ty) :
    Subst.ofLists (params.map (·.name)) (argsOrUntyped params args) {} =
      if params.length = (argsOrUntyped params args).length then .ok (bindParams params args)
      else .error (.lengthMismatch params.length (argsOrUntyped params args).length) := by
  rw [bindParams_eq]
  unfold Subst.ofLists
  rw [List.length_map]
  split <;> rfl

/-- As many arguments, as many after those that are left out are filled in. -/
theorem length_argsOrUntyped {params : List TypeParam} {args args' : List Ty}
    (h : args.length = args'.length) :
    (argsOrUntyped params args).length = (argsOrUntyped params args').length := by
  unfold argsOrUntyped
  cases args <;> cases args' <;> simp_all

/-- Equal arguments are bound alike. -/
theorem same_apply_bindParams (params : List TypeParam) {args args' : List Ty} {t : Ty}
    (ht : t.WellFormed) (h : List.Forall₂ Same args args') :
    Same ((bindParams params args).apply t) ((bindParams params args').apply t) := by
  have hmembers := Ty.sameMembers_of_forall₂ h
  refine ⟨Subst.wellFormed_apply ht fun x _ => ?_, Subst.wellFormed_apply ht fun x _ => ?_, ?_⟩
  · exact wellFormed_imageOf_bindParams hmembers.left x
  · exact wellFormed_imageOf_bindParams hmembers.right x
  · exact beq_apply_bindParams ht hmembers.left hmembers.right (h.imp fun _ _ h => h.beq)

/-- Lists that are the same position by position agree with the same lists. -/
theorem argsAgree_all_congr {found found' targetArgs targetArgs' : List Ty}
    (hfound : List.Forall₂ Same found found')
    (htargetArgs : List.Forall₂ Same targetArgs targetArgs') :
    (found.length == targetArgs.length && (found.zip targetArgs).all fun p => argsAgree p.1 p.2) =
      (found'.length == targetArgs'.length &&
        (found'.zip targetArgs').all fun p => argsAgree p.1 p.2) := by
  rw [hfound.length_eq, htargetArgs.length_eq, Ty.all_zip_eq argsAgree_congr hfound htargetArgs]

/-- Whether an application is below another does not depend on how arguments are written. -/
theorem applicationBelow_congr (hT : T.TypesWellFormed) {name target : TypeName}
    {args args' targetArgs targetArgs' : List Ty} (hargs : List.Forall₂ Same args args')
    (htargetArgs : List.Forall₂ Same targetArgs targetArgs') :
    T.applicationBelow name args target targetArgs =
      T.applicationBelow name args' target targetArgs' := by
  unfold applicationBelow
  cases htypes : T.ancestorTypes name with
  | error e => rfl
  | ok types =>
    dsimp only
    cases hfind : types.find? (isApplicationOf target) with
    | none => rfl
    | some ancestor =>
      have hancestor : ancestor.WellFormed :=
        passes_ancestorTypes Ty.setTest_distinctHere hT.parents htypes ancestor
          (List.mem_of_find?_eq_some hfind)
      have hempty : targetArgs.isEmpty = targetArgs'.isEmpty := by
        cases htargetArgs <;> rfl
      dsimp only
      generalize (T.paramsOf name).toOption.getD [] = params
      rw [ofLists_argsOrUntyped, ofLists_argsOrUntyped, hempty]
      simp only [length_argsOrUntyped hargs.length_eq]
      by_cases hlen : params.length = (argsOrUntyped params args').length
      · simp only [if_pos hlen]
        have hrel := applicationArgs?_rel (same_apply_bindParams params hancestor hargs)
        generalize applicationArgs? ((bindParams params args).apply ancestor) = found at hrel
        generalize applicationArgs? ((bindParams params args').apply ancestor) = found' at hrel
        cases hrel with
        | none => rfl
        | some hfound => simp only [argsAgree_all_congr hfound htargetArgs]
      · simp only [if_neg hlen]

/-! ## Rules by form -/

/-- A class is the same as itself. -/
theorem same_ofClass (name : TypeName) : Same (.ofClass name) (.ofClass name) :=
  Same.named .nil

/-- Tuples of equal items have equal classes. -/
theorem same_tupleClass {items items' : List Ty} (h : List.Forall₂ Same items items') :
    Same (tupleClass items) (tupleClass items') :=
  Same.named (.cons (Ty.sameMembers_of_forall₂ h).unionOf .nil)

/-- Records of equal fields have equal classes. -/
theorem same_recordClass {fields fields' : List (Literal × Ty)}
    (h : EntriesRel Same fields fields') :
    Same (recordClass fields) (recordClass fields') := by
  obtain ⟨hkeys, hvalues⟩ := entriesRel_iff.mp h
  have hliterals : (fields.map fun f => Ty.literal f.1) = fields'.map fun f => Ty.literal f.1 := by
    simpa [Function.comp_def] using congrArg (List.map Ty.literal) hkeys
  have hwf : (Ty.unionOf (fields'.map fun f => Ty.literal f.1)).WellFormed := by
    refine Ty.stable_distinctHere.unionOf fun t ht => ?_
    obtain ⟨f, -, rfl⟩ := List.mem_map.mp ht
    rfl
  unfold recordClass
  rw [hliterals]
  exact Same.named (.cons (.refl hwf) (.cons (Ty.sameMembers_of_forall₂ hvalues).unionOf .nil))

section Rules

variable (hT : T.TypesWellFormed) (hbelow : Respects below)

include hbelow

/-- Fields are compared alike if they are equal. -/
theorem fields_congr {fields fields' others others' : List (Literal × Ty)}
    (hfields : EntriesRel Same fields fields') (hothers : EntriesRel Same others others') :
    (fields.all fun f =>
      match Keyed.get? f.1 others with
      | some other => below f.2 other
      | none => false) =
    fields'.all fun f =>
      match Keyed.get? f.1 others' with
      | some other => below f.2 other
      | none => false := by
  induction hfields with
  | nil => rfl
  | @cons f f' fields fields' hf _ ih =>
    have hrel := Keyed.get?_rel hothers f.1
    rw [List.all_cons, List.all_cons, ih, ← hf.1]
    congr 1
    generalize Keyed.get? f.1 others = other at hrel
    generalize Keyed.get? f.1 others' = other' at hrel
    cases hrel with
    | none => rfl
    | some hother => exact hbelow _ _ _ _ hf.2 hother

include hT

/-- The rule for forms gives one answer on equal types. -/
theorem formRule_congr (ha : Same a a') (hb : Same b b') :
    formRule T below a b = formRule T below a' b' := by
  cases ha.alike with
  | atom hatom =>
    cases a with
    | literal value =>
      cases hb.alike with
      | atom => rfl
      | _ => exact hbelow _ _ _ _ (same_ofClass _) hb
    | singleton name =>
      cases hb.alike with
      | atom => rfl
      | _ => exact hbelow _ _ _ _ (same_ofClass _) hb
    | _ => first | rfl | cases hatom
  | named hargs =>
    cases hb.alike with
    | atom hatom => cases b <;> first | rfl | cases hatom
    | named htargetArgs => exact applicationBelow_congr hT hargs htargetArgs
    | _ => rfl
  | tuple hitems =>
    cases hb.alike with
    | atom hatom =>
      cases b <;> first | exact hbelow _ _ _ _ (same_tupleClass hitems) hb | cases hatom
    | tuple hothers =>
      simp only [formRule]
      rw [hitems.length_eq, hothers.length_eq, Ty.all_zip_eq hbelow hitems hothers]
    | _ => exact hbelow _ _ _ _ (same_tupleClass hitems) hb
  | record hfields =>
    cases hb.alike with
    | atom hatom =>
      cases b <;> first | exact hbelow _ _ _ _ (same_recordClass hfields) hb | cases hatom
    | record hothers =>
      simp only [formRule]
      rw [hfields.length_eq, hothers.length_eq]
      congr 1
      exact fields_congr hbelow hfields hothers
    | _ => exact hbelow _ _ _ _ (same_recordClass hfields) hb
  | proc => exact hbelow _ _ _ _ (same_ofClass _) hb
  | union => rfl
  | inter => rfl

omit hT hbelow in
/-- Against a type with parts, the rules for single types look at the left type only. -/
theorem baseRule_of_right (hb : b.isAtom = false) :
    baseRule T below a b =
      match a with
      | .logic _ => below .bool b
      | .bool => below .trueType b && below .falseType b
      | .nil => below (.ofClass .nilClass) b
      | _ => formRule T below a b := by
  cases b with
  | named _ _ _ | union _ | inter _ | tuple _ | record _ | proc _ => cases a <;> rfl
  | _ => cases hb

omit hT hbelow in
/-- For a type with parts, the rules for single types look at the right type only. -/
theorem baseRule_of_left (ha : a.isAtom = false) :
    baseRule T below a b =
      match b with
      | .bool => isBoolean a
      | .nil => isNilInstance a
      | _ => formRule T below a b := by
  cases a with
  | named _ _ _ | union _ | inter _ | tuple _ | record _ | proc _ => cases b <;> rfl
  | _ => cases ha

omit hT hbelow in
/-- Types with parts are compared by the rule for forms. -/
theorem baseRule_of_parts (ha : a.isAtom = false) (hb : b.isAtom = false) :
    baseRule T below a b = formRule T below a b := by
  rw [baseRule_of_left ha]
  cases b <;> first | rfl | cases hb

omit hT hbelow in
/-- Equal types are both booleans or neither is. -/
theorem isBoolean_congr (h : Same a a') : isBoolean a = isBoolean a' := by
  cases h.alike with
  | @named kind => cases kind <;> rfl
  | _ => rfl

omit hT hbelow in
/-- The same for instances of the class of `nil`. -/
theorem isNilInstance_congr (h : Same a a') : isNilInstance a = isNilInstance a' := by
  cases h.alike with
  | @named kind => cases kind <;> rfl
  | _ => rfl

/-- The rule for plain types gives one answer on equal types. -/
theorem baseRule_congr (ha : Same a a') (hb : Same b b') :
    baseRule T below a b = baseRule T below a' b' := by
  have hform := formRule_congr hT hbelow ha hb
  rcases ha.atom_or with rfl | ⟨hla, hla'⟩ <;> rcases hb.atom_or with rfl | ⟨hlb, hlb'⟩
  · rfl
  · rw [baseRule_of_right hlb, baseRule_of_right hlb']
    split
    · exact hbelow _ _ _ _ (.refl (t := .bool) rfl) hb
    · rw [hbelow _ _ _ _ (.refl (t := .trueType) rfl) hb,
        hbelow _ _ _ _ (.refl (t := .falseType) rfl) hb]
    · exact hbelow _ _ _ _ (same_ofClass _) hb
    · exact hform
  · rw [baseRule_of_left hla, baseRule_of_left hla']
    split
    · exact isBoolean_congr ha
    · exact isNilInstance_congr ha
    · exact hform
  · rw [baseRule_of_parts hla hlb, baseRule_of_parts hla' hlb']
    exact hform

omit hT hbelow in
/-- Where the left type is no set of members, the rules for members look at the right type. -/
theorem memberRule_of_left (ha : a.isSet = false) :
    memberRule T below a b =
      match b with
      | .inter ms => ms.all fun m => below a m
      | .union ms => ms.any fun m => below a m
      | _ => baseRule T below a b := by
  cases a with
  | union _ | inter _ => cases ha
  | _ => cases b <;> rfl

/-- So does the rule for unions and intersections. -/
theorem memberRule_congr (ha : Same a a') (hb : Same b b') :
    memberRule T below a b = memberRule T below a' b' := by
  have hleft : ∀ m m', Same m m' → below m b = below m' b' := fun m m' hm => hbelow _ _ _ _ hm hb
  have hright : ∀ m m', Same m m' → below a m = below a' m' := fun m m' hm => hbelow _ _ _ _ ha hm
  have hbase := baseRule_congr hT hbelow ha hb
  cases hset : a.isSet with
  | true =>
    cases ha.alike with
    | union hms => exact hms.all_eq hleft
    | inter hms =>
      cases hb.alike with
      | union hns => exact hns.any_eq hright
      | inter hns => exact hns.all_eq hright
      | atom hatom => cases b <;> first | exact hms.any_eq hleft | cases hatom
      | _ => exact hms.any_eq hleft
    | atom hatom =>
      cases a with
      | union _ | inter _ => cases hatom
      | _ => cases hset
    | _ => cases hset
  | false =>
    have hset' : a'.isSet = false := (Ty.isSet_eq_of_head_eq ha.head_eq).trans hset
    rw [memberRule_of_left hset, memberRule_of_left hset']
    cases hb.alike with
    | union hns => exact hns.any_eq hright
    | inter hns => exact hns.all_eq hright
    | atom hatom => cases b <;> first | exact hbase | cases hatom
    | _ => exact hbase

omit hbelow in
/-- Aliases that are the same have the same expansion or none. -/
theorem expansion?_rel (h : Same a a') :
    Option.Rel Same (T.expansion? a) (T.expansion? a') := by
  cases h.alike with
  | atom hatom => cases a <;> first | exact .none | cases hatom
  | @named kind name args args' hargs =>
    cases kind with
    | aliasOf =>
      simp only [expansion?, expansion]
      cases hdecl : T.alias? name with
      | none => exact .none
      | some decl =>
        exact .some (same_apply_bindParams _ (hT.aliases _ (Keyed.mem_of_get? hdecl)) hargs)
    | _ => exact .none
  | _ => exact .none

omit hT hbelow in
/-- Where the left type is no alias, the rules for aliases look at the right type. -/
theorem aliasRule_of_left (ha : ∀ name args, a ≠ .named .aliasOf name args) :
    aliasRule T below a b =
      match b with
      | .named .aliasOf _ _ =>
        match T.expansion? b with
        | some expanded => below a expanded
        | none => false
      | _ => memberRule T below a b := by
  unfold aliasRule
  split
  · exact absurd rfl (ha _ _)
  · rfl

/-- So does the rule for aliases. -/
theorem aliasRule_congr (ha : Same a a') (hb : Same b b') :
    aliasRule T below a b = aliasRule T below a' b' := by
  have hmember := memberRule_congr hT hbelow ha hb
  by_cases hleft : ∃ name args, a = .named .aliasOf name args
  · obtain ⟨name, args, rfl⟩ := hleft
    obtain ⟨args', rfl⟩ := Ty.eq_named_of_head ha.head_eq
    have hrel := expansion?_rel hT ha
    simp only [aliasRule]
    generalize T.expansion? (.named .aliasOf name args) = expanded at hrel
    generalize T.expansion? (.named .aliasOf name args') = expanded' at hrel
    cases hrel with
    | none => rfl
    | some he => exact hbelow _ _ _ _ he hb
  · have hleft' : ∀ name args, a' ≠ .named .aliasOf name args := by
      rintro name args rfl
      obtain ⟨args', rfl⟩ := Ty.eq_named_of_head ha.symm.head_eq
      exact hleft ⟨name, args', rfl⟩
    rw [aliasRule_of_left fun name args h => hleft ⟨name, args, h⟩, aliasRule_of_left hleft']
    cases hb.alike with
    | @named kind name args args' =>
      cases kind with
      | aliasOf =>
        have hrel := expansion?_rel hT hb
        dsimp only
        generalize T.expansion? (.named .aliasOf name args) = expanded at hrel
        generalize T.expansion? (.named .aliasOf name args') = expanded' at hrel
        cases hrel with
        | none => rfl
        | some he => exact hbelow _ _ _ _ ha he
      | _ => exact hmember
    | atom hatom => cases b <;> first | exact hmember | cases hatom
    | _ => exact hmember

omit hT hbelow in
/-- Equal types are both above everything or neither is. -/
theorem isCeiling_congr (h : Same a a') : isCeiling a = isCeiling a' := by
  cases h.alike <;> rfl

omit hT hbelow in
/-- Or below everything. -/
theorem isFloor_congr (h : Same a a') : isFloor a = isFloor a' := by
  cases h.alike <;> rfl

/-- One step of subtyping gives one answer on equal types if the next ones do. -/
theorem rule_congr : Respects (rule T below) := by
  intro a a' b b' ha hb
  rw [rule, rule, isCeiling_congr hb, isFloor_congr ha, aliasRule_congr hT hbelow ha hb]

end Rules

/-! ## Subtyping -/

/-- Subtyping within a budget gives one answer on equal types. -/
theorem isSubtypeWithin_congr (hT : T.TypesWellFormed) (budget : Nat) :
    Respects (T.isSubtypeWithin budget) := by
  induction budget with
  | zero =>
    intro a a' b b' ha hb
    exact ha.beq_eq hb
  | succ budget ih =>
    intro a a' b b' ha hb
    rw [isSubtypeWithin, isSubtypeWithin, ha.beq_eq hb, rule_congr hT ih a a' b b' ha hb]

/-- Subtyping gives one answer on equal types. -/
theorem isSubtype_congr (hT : T.TypesWellFormed) : Respects T.isSubtype :=
  isSubtypeWithin_congr hT subtypeBudget

end Table

/-! ## Equality as a key -/

/-- The values and anchors of a substitution can be built. -/
structure Subst.Built (s : Subst) : Prop where
  values : ∀ e ∈ s.vars, e.2.Built
  anchors : ∀ p t, s.anchors.get? p = some t → t.Built

/-- A built substitution puts in well-formed types. -/
theorem Subst.Built.imageOf {s : Subst} (h : s.Built) (x : FreeVar) : (s.imageOf x).WellFormed :=
  Ty.setTest_distinctHere.imageOf (fun e he => (h.values e he).wellFormed)
    (fun p t ht => (h.anchors p t ht).wellFormed) x

/-- The parents and alias bodies of a table can be built. -/
structure Table.Built (T : Table) : Prop where
  parents : ∀ e ∈ T.modules, ∀ t ∈ e.2.parents, t.Built
  aliases : ∀ e ∈ T.aliases, e.2.body.Built

/-- The types of a built table are well formed. -/
theorem Table.Built.typesWellFormed {T : Table} (h : T.Built) : T.TypesWellFormed where
  parents e he t ht := (h.parents e he t ht).wellFormed
  aliases e he := (h.aliases e he).wellFormed

/-- On the types that can be built equality is an equivalence, and types that are equal can stand
for each other: substitution, free variables and subtyping do not tell them apart, nor do unions
and intersections of lists with equal members. -/
theorem Ty.equality_is_congruence {t u v : Ty} (ht : t.Built) (hu : u.Built) (hv : v.Built) :
    (t == t) = true ∧
    ((t == u) = true → (u == t) = true) ∧
    ((t == u) = true → (u == v) = true → (t == v) = true) ∧
    ((t == u) = true →
      (∀ s : Subst, s.Built → (s.apply t == s.apply u) = true) ∧
      t.freeVars = u.freeVars ∧
      ∀ T : Table, T.Built →
        T.isSubtype t v = T.isSubtype u v ∧ T.isSubtype v t = T.isSubtype v u) ∧
    ∀ ts us : List Ty, (∀ a ∈ ts, a.Built) → (∀ a ∈ us, a.Built) →
      (∀ a ∈ ts, ∃ b ∈ us, (a == b) = true) → (∀ b ∈ us, ∃ a ∈ ts, (b == a) = true) →
        (unionOf ts == unionOf us) = true ∧ (interOf ts == interOf us) = true := by
  have hself : Same v v := .refl hv.wellFormed
  refine ⟨beq_refl t, beq_symm ht.wellFormed hu.wellFormed,
    beq_trans ht.wellFormed hu.wellFormed hv.wellFormed, fun h => ?_, ?_⟩
  · have hsame : Same t u := ⟨ht.wellFormed, hu.wellFormed, h⟩
    refine ⟨fun s hs => ?_, hsame.freeVars_eq, fun T hT => ?_⟩
    · exact Subst.beq_apply_of_beq hsame.left hsame.right (fun x _ => hs.imageOf x) h
    · have hbelow := Table.isSubtype_congr hT.typesWellFormed
      exact ⟨hbelow _ _ _ _ hsame hself, hbelow _ _ _ _ hself hsame⟩
  · intro ts us hts hus hforth hback
    have hts' : ∀ a ∈ ts, a.WellFormed := fun a ha => (hts a ha).wellFormed
    have hus' : ∀ a ∈ us, a.WellFormed := fun a ha => (hus a ha).wellFormed
    exact ⟨beq_unionOf hts' hus' hforth hback, beq_interOf hts' hus' hforth hback⟩

/-- A generic class below another one and an alias for its instances or `nil`. -/
def boxTable : Table where
  modules :=
    [(⟨"::Bag"⟩, { name := ⟨"::Bag"⟩, kind := .classDecl, typeParams := [{ name := "E" }] }),
      (⟨"::Box"⟩, {
        name := ⟨"::Box"⟩
        kind := .classDecl
        typeParams := [{ name := "T" }]
        superclass := some (.named .instanceOf ⟨"::Bag"⟩ [.union [.var "T", .nil]]) })]
  aliases :=
    [(⟨"::box"⟩, {
      name := ⟨"::box"⟩
      typeParams := [{ name := "T" }]
      body := .union [.named .instanceOf ⟨"::Box"⟩ [.var "T"], .nil] })]

/-- Two ways to nest a union in the argument of an alias. -/
theorem Ty.interchange_nested_unions :
    let t : Ty := .named .aliasOf ⟨"::box"⟩ [.union [.nil, .union [.bool, .var "T"]]]
    let u : Ty := .named .aliasOf ⟨"::box"⟩ [.union [.union [.var "T", .bool], .nil]]
    let v : Ty := .union [.nil, .named .instanceOf ⟨"::Bag"⟩ []]
    let s : Subst := { vars := [("T", .union [.nil, .top])] }
    t.Built ∧ u.Built ∧ v.Built ∧ s.Built ∧ boxTable.Built ∧ (u == t) = true ∧
      (s.apply t == s.apply u) = true ∧ t.freeVars = u.freeVars ∧
      boxTable.isSubtype t v = boxTable.isSubtype u v ∧
      (unionOf [t, .nil] == unionOf [.nil, u]) = true := by
  intro t u v s
  have ht : t.Built := built_iff_wellFormed.mpr (by decide)
  have hu : u.Built := built_iff_wellFormed.mpr (by decide)
  have hv : v.Built := built_iff_wellFormed.mpr (by decide)
  have hnil : nil.Built := built_iff_wellFormed.mpr (by decide)
  have hs : s.Built := by
    refine ⟨fun e he => ?_, by rintro (_ | _ | _) t ⟨⟩⟩
    obtain rfl := List.mem_singleton.mp he
    exact built_iff_wellFormed.mpr (by decide)
  have hT : boxTable.Built := by
    refine ⟨fun e he t ht => ?_, fun e he => ?_⟩
    · have hwf : ∀ e ∈ boxTable.modules, ∀ t ∈ e.2.parents, t.WellFormed := by decide
      exact built_iff_wellFormed.mpr (hwf e he t ht)
    · obtain rfl := List.mem_singleton.mp he
      exact built_iff_wellFormed.mpr (by decide)
  have htu : (t == u) = true := by decide
  obtain ⟨-, hsymm, -, hcongr, hlists⟩ := equality_is_congruence ht hu hv
  obtain ⟨happly, hfree, hsub⟩ := hcongr htu
  refine ⟨ht, hu, hv, hs, hT, hsymm htu, happly s hs, hfree, (hsub boxTable hT).1, ?_⟩
  exact (hlists [t, .nil] [.nil, u] (by simp [ht, hnil]) (by simp [hu, hnil])
    (by simp [htu]) (by simp [hsymm htu])).1

end TypeShape
