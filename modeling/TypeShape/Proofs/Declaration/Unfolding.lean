import Mathlib.Logic.Relation
import TypeShape.Declaration.Unfold
import TypeShape.Proofs.Declaration.Arguments

/-!
# How far acyclic aliases unfold

Unfolding replaces aliases by their bodies, into which arguments are put.  An argument may bring
aliases of its own to the surface, so what comes up is more than what the body shows.  Still, if no
alias leads back to itself, each alias of a body adds at most a known number of steps to those of
its arguments, and the weights of all bodies bound the depth of any type.

Main results:

- Theorem `Table.Carries.unfoldsIn`: how far a type unfolds when types are put for its variables.
- Theorem `Table.unfoldsIn_unfoldDepth`: acyclic aliases unfold within the depth that is taken for
  them.
-/

namespace TypeShape

/-- The alias can come to the surface when the type is unfolded: it stands in a member of a union or
intersection or in an argument of an alias, at any depth. -/
inductive Ty.Exposes : Ty → TypeName → Prop where
  | self {name : TypeName} {args : List Ty} : Exposes (.named .aliasOf name args) name
  | arg {name b : TypeName} {args : List Ty} {u : Ty} (hu : u ∈ args) (h : Exposes u b) :
      Exposes (.named .aliasOf name args) b
  | member {t m : Ty} {b : TypeName} (ht : t.isSet = true) (hm : m ∈ t.parts) (h : Exposes m b) :
      Exposes t b

/-- An alias exposes itself and what its arguments expose. -/
theorem Ty.exposes_alias_iff {name b : TypeName} {args : List Ty} :
    (Ty.named .aliasOf name args).Exposes b ↔ b = name ∨ ∃ u ∈ args, u.Exposes b := by
  constructor
  · intro h
    cases h with
    | self => exact Or.inl rfl
    | arg hu h => exact Or.inr ⟨_, hu, h⟩
    | member ht => cases ht
  · rintro (rfl | ⟨u, hu, h⟩)
    · exact .self
    · exact .arg hu h

/-- A union exposes what its members expose. -/
theorem Ty.exposes_union_iff {ms : List Ty} {b : TypeName} :
    (Ty.union ms).Exposes b ↔ ∃ m ∈ ms, m.Exposes b := by
  constructor
  · intro h
    cases h with
    | member _ hm h => exact ⟨_, hm, h⟩
  · rintro ⟨m, hm, h⟩
    exact .member rfl hm h

/-- No other type exposes an alias. -/
theorem Ty.not_exposes {t : Ty} (hset : t.isSet = false)
    (halias : ∀ name args, t ≠ .named .aliasOf name args) (b : TypeName) : ¬ t.Exposes b := by
  intro h
  cases h with
  | self => exact halias _ _ rfl
  | arg => exact halias _ _ rfl
  | member ht => simp [hset] at ht

namespace Table

variable {T : Table}

/-- The body of one alias exposes another. -/
def Refers (T : Table) (a b : TypeName) : Prop :=
  ∃ decl, T.alias? a = some decl ∧ decl.body.Exposes b

/-- No alias leads back to itself. -/
def AcyclicAliases (T : Table) : Prop :=
  ∀ a, ¬ Relation.TransGen T.Refers a a

/-- Aliases that only lead down in some order are acyclic. -/
theorem acyclicAliases_of_rank (rank : TypeName → Nat) (h : ∀ a b, T.Refers a b → rank b < rank a) :
    T.AcyclicAliases := by
  intro a hloop
  have hdown : ∀ b, Relation.TransGen T.Refers a b → rank b < rank a := by
    intro b hb
    induction hb with
    | single hstep => exact h _ _ hstep
    | tail _ hstep ih => exact Nat.lt_trans (h _ _ hstep) ih
  exact Nat.lt_irrefl _ (hdown a hloop)

/-! ## Unfolding within a number of steps -/

/-- Unfolding ends within so many steps, in the type and in the members of unions and
intersections. -/
inductive UnfoldsIn (T : Table) : Nat → Ty → Prop where
  | members {n : Nat} {t : Ty} (ht : t.isSet = true) (h : ∀ m ∈ t.parts, UnfoldsIn T n m) :
      UnfoldsIn T n t
  | expansion {n : Nat} {t e : Ty} (he : T.expansion? t = some e) (h : UnfoldsIn T n e) :
      UnfoldsIn T (n + 1) t
  | leaf {n : Nat} {t : Ty} (ht : t.isSet = false) (he : T.expansion? t = none) : UnfoldsIn T n t

/-- Only aliases expand. -/
theorem exists_alias_of_expansion? {t e : Ty} (h : T.expansion? t = some e) :
    ∃ name args, t = .named .aliasOf name args := by
  unfold expansion? at h
  split at h
  · exact ⟨_, _, rfl⟩
  · cases h

/-- What expands is no union or intersection. -/
theorem isSet_of_expansion? {t e : Ty} (h : T.expansion? t = some e) : t.isSet = false := by
  obtain ⟨name, args, rfl⟩ := exists_alias_of_expansion? h
  rfl

namespace UnfoldsIn

/-- More steps may be allowed. -/
theorem mono {n k : Nat} {t : Ty} (h : UnfoldsIn T n t) (hnk : n ≤ k) : UnfoldsIn T k t := by
  induction h generalizing k with
  | members ht _ ih => exact .members ht fun m hm => ih m hm hnk
  | expansion he _ ih =>
    obtain ⟨k, rfl⟩ : ∃ k', k = k' + 1 := ⟨k - 1, by omega⟩
    exact .expansion he (ih (by omega))
  | leaf ht he => exact .leaf ht he

/-- The members of a type that unfolds do. -/
theorem part {n : Nat} {t m : Ty} (h : UnfoldsIn T n t) (ht : t.isSet = true)
    (hm : m ∈ t.parts) : UnfoldsIn T n m := by
  cases h with
  | members _ h => exact h m hm
  | expansion he => simp [isSet_of_expansion? he] at ht
  | leaf hs => simp [hs] at ht

/-- A variable or placeholder unfolds at once. -/
theorem toTy (n : Nat) (x : FreeVar) : UnfoldsIn T n x.toTy := by
  cases x <;> exact .leaf rfl rfl

/-- The parts of a union that unfolds do. -/
theorem of_mem_unionParts {n : Nat} {t u : Ty} (h : UnfoldsIn T n t) (hu : u ∈ t.unionParts) :
    UnfoldsIn T n u := by
  rcases Ty.mem_unionParts hu with ⟨rfl, -⟩ | ⟨ms, rfl, hu⟩
  · exact h
  · exact h.part rfl hu

/-- So do the parts of an intersection. -/
theorem of_mem_interParts {n : Nat} {t u : Ty} (h : UnfoldsIn T n t) (hu : u ∈ t.interParts) :
    UnfoldsIn T n u := by
  rcases Ty.mem_interParts hu with ⟨rfl, -⟩ | ⟨ms, rfl, hu⟩
  · exact h
  · exact h.part rfl hu

/-- A union of types that unfold does. -/
theorem unionOf {n : Nat} {ts : List Ty} (h : ∀ t ∈ ts, UnfoldsIn T n t) :
    UnfoldsIn T n (Ty.unionOf ts) := by
  have hparts : ∀ u ∈ Ty.distinct (ts.flatMap Ty.unionParts), UnfoldsIn T n u := by
    intro u hu
    obtain ⟨t, ht, hut⟩ := List.mem_flatMap.mp (Ty.mem_of_mem_distinct hu)
    exact (h t ht).of_mem_unionParts hut
  rw [Ty.unionOf_eq]
  split
  · exact .leaf rfl rfl
  · rcases Ty.collapseUnion_cases (Ty.distinct (ts.flatMap Ty.unionParts)) with
      ⟨-, heq⟩ | ⟨t, hms, heq⟩ | ⟨-, heq⟩ <;> rw [heq]
    · exact .leaf rfl rfl
    · exact hparts t (by simp [hms])
    · exact .members rfl hparts

/-- So does an intersection. -/
theorem interOf {n : Nat} {ts : List Ty} (h : ∀ t ∈ ts, UnfoldsIn T n t) :
    UnfoldsIn T n (Ty.interOf ts) := by
  have hparts : ∀ u ∈ Ty.distinct (ts.flatMap Ty.interParts), UnfoldsIn T n u := by
    intro u hu
    obtain ⟨t, ht, hut⟩ := List.mem_flatMap.mp (Ty.mem_of_mem_distinct hu)
    exact (h t ht).of_mem_interParts hut
  rw [Ty.interOf_eq]
  rcases Ty.collapseInter_cases (Ty.distinct (ts.flatMap Ty.interParts)) with
    ⟨-, heq⟩ | ⟨t, hms, heq⟩ | ⟨-, heq⟩ <;> rw [heq]
  · exact .leaf rfl rfl
  · exact hparts t (by simp [hms])
  · exact .members rfl hparts

end UnfoldsIn

/-! ## Putting types for variables -/

/-- A map of types that goes through their forms, and takes placeholders and variables to types that
unfold in so many steps. -/
structure Carries (T : Table) (k : Nat) (f : Ty → Ty) : Prop where
  free : ∀ x : FreeVar, UnfoldsIn T k (f x.toTy)
  members : ∀ {t n}, t.isSet = true → (∀ m ∈ t.parts, UnfoldsIn T n (f m)) → UnfoldsIn T n (f t)
  head : ∀ {t}, t.isRigid = true → (f t).head = t.head
  parts : ∀ {t}, t.isRigid = true → (f t).parts = t.parts.map f

/-- The identity goes through the forms of types. -/
theorem carries_self (k : Nat) : Carries T k fun t => t where
  free := .toTy k
  members := .members
  head _ := rfl
  parts _ := (List.map_id _).symm

/-- Replacement does if it puts in types that unfold. -/
theorem carries_replace {k : Nat} {s : Subst} (h : ∀ x, UnfoldsIn T k (s.imageOf x)) :
    Carries T k s.replace where
  free x := by
    rw [Subst.replace_toTy]
    exact h x
  members := by
    intro t n ht hm
    have hmapped : ∀ u ∈ t.parts.map s.replace, UnfoldsIn T n u := by
      intro u hu
      obtain ⟨m, hmem, rfl⟩ := List.mem_map.mp hu
      exact hm m hmem
    cases t with
    | union ms =>
      rw [Subst.replace_union]
      exact .unionOf hmapped
    | inter ms =>
      rw [Subst.replace_inter]
      exact .interOf hmapped
    | _ => cases ht
  head := Subst.head_replace
  parts := Subst.parts_replace

/-- So does a substitution. -/
theorem carries_apply {k : Nat} {s : Subst} (h : ∀ x, UnfoldsIn T k (s.imageOf x)) :
    Carries T k s.apply := by
  cases hs : s.isEmpty with
  | true =>
    have heq : s.apply = fun t => t := funext fun t => by rw [Subst.apply, if_pos hs]
    exact heq ▸ carries_self k
  | false =>
    have heq : s.apply = s.replace := funext fun t => by simp [Subst.apply, hs]
    exact heq ▸ carries_replace h

/-- An alias adds at most so many steps to those of its arguments. -/
def AliasAdds (T : Table) (n : Nat) (name : TypeName) : Prop :=
  ∀ k args, (∀ u ∈ args, UnfoldsIn T k u) → UnfoldsIn T (n + k) (.named .aliasOf name args)

/-- An alias that adds some steps adds at most more. -/
theorem AliasAdds.mono {n m : Nat} {name : TypeName} (h : AliasAdds T n name) (hnm : n ≤ m) :
    AliasAdds T m name :=
  fun k args hargs => (h k args hargs).mono (by omega)

/-- Every node of a type adds no more than its aliases do. -/
theorem Carries.unfoldsIn {k n : Nat} {f : Ty → Ty} (hf : Carries T k f) {t : Ty}
    (h : ∀ name, t.Exposes name → AliasAdds T n name) : UnfoldsIn T (t.weight * n + k) (f t) := by
  induction t using Ty.inductionOnParts with
  | step t ih =>
    have hle : ∀ {u}, u ∈ t.parts → u.weight * n + k ≤ Ty.weightList t.parts * n + k :=
      fun hu => Nat.add_le_add_right (Nat.mul_le_mul_right n (Ty.weight_le_weightList hu)) k
    have hweight : t.weight * n + k = n + (Ty.weightList t.parts * n + k) := by
      rw [Ty.weight_eq, Nat.succ_mul]
      omega
    have hmembers : t.isSet = true → UnfoldsIn T (t.weight * n + k) (f t) := by
      intro hset
      refine hf.members hset fun m hm => (ih m hm fun name hb => ?_).mono ?_
      · exact h name (.member hset hm hb)
      · have := hle hm
        omega
    rcases t.form_cases with ⟨x, rfl⟩ | ⟨ms, rfl⟩ | ⟨ms, rfl⟩ | hrigid
    · exact (hf.free x).mono (Nat.le_add_left k _)
    · exact hmembers rfl
    · exact hmembers rfl
    · have hhead := hf.head hrigid
      cases he : T.expansion? (f t) with
      | none =>
        refine .leaf ?_ he
        rw [Ty.isSet_eq_of_head_eq hhead]
        exact Ty.isSet_eq_false_of_isRigid hrigid
      | some e =>
        obtain ⟨name, args, hft⟩ := exists_alias_of_expansion? he
        obtain ⟨args', rfl⟩ := Ty.eq_named_of_head (hft ▸ hhead).symm
        have hargs : args = args'.map f := by
          have hparts := hf.parts hrigid
          rw [hft] at hparts
          exact hparts
        rw [hft, hweight]
        refine h name .self _ args fun u hu => ?_
        obtain ⟨v, hv, rfl⟩ := List.mem_map.mp (hargs ▸ hu)
        exact (ih v hv fun b hb => h b (.arg hv hb)).mono (hle hv)

/-- An alias adds one step to those of its body. -/
theorem aliasAdds_of_body {n : Nat} {name : TypeName} {decl : AliasDecl}
    (hdecl : T.alias? name = some decl) (h : ∀ b, decl.body.Exposes b → AliasAdds T n b) :
    AliasAdds T (decl.body.weight * n + 1) name := by
  intro k args hargs
  have himage : ∀ x, UnfoldsIn T k ((bindParams decl.typeParams args).imageOf x) := by
    intro x
    rcases imageOf_bindParams decl.typeParams args x with hx | hx | hx
    · rw [hx]
      exact .toTy k x
    · rw [hx]
      exact .leaf rfl rfl
    · exact hargs _ hx
  have hbody := (carries_apply himage).unfoldsIn h
  have he : T.expansion? (.named .aliasOf name args) =
      some ((bindParams decl.typeParams args).apply decl.body) := by
    simp only [expansion?, expansion, hdecl]
    rfl
  have hcount : decl.body.weight * n + 1 + k = decl.body.weight * n + k + 1 := by omega
  rw [hcount]
  exact .expansion he hbody

/-- An undeclared alias adds no steps. -/
theorem aliasAdds_of_undeclared {name : TypeName} (h : T.alias? name = none) (n : Nat) :
    AliasAdds T n name := by
  intro k args _
  refine .leaf rfl ?_
  simp only [expansion?, expansion, h]
  rfl

/-! ## Acyclic aliases -/

open Classical in
/-- The weight of an alias, raised by two, if it is kept. -/
noncomputable def aliasFactor (keep : TypeName → Prop) (e : TypeName × AliasDecl) : Nat :=
  if keep e.1 then e.2.body.weight + 2 else 1

/-- The factor of an alias is positive. -/
theorem aliasFactor_pos (keep : TypeName → Prop) (e : TypeName × AliasDecl) :
    0 < aliasFactor keep e := by
  unfold aliasFactor
  split <;> omega

/-- The product over the aliases that are kept. -/
noncomputable def aliasProduct (keep : TypeName → Prop) : List (TypeName × AliasDecl) → Nat
  | [] => 1
  | e :: es => aliasFactor keep e * aliasProduct keep es

/-- So is the product of all factors. -/
theorem aliasProduct_pos (keep : TypeName → Prop) (es : List (TypeName × AliasDecl)) :
    0 < aliasProduct keep es := by
  induction es with
  | nil => exact Nat.one_pos
  | cons e es ih => exact Nat.mul_pos (aliasFactor_pos keep e) ih

section Products

variable {keep keep' : TypeName → Prop} (hkeep : ∀ b, keep' b → keep b)

include hkeep

/-- A factor over fewer aliases is no larger. -/
theorem aliasFactor_le (e : TypeName × AliasDecl) : aliasFactor keep' e ≤ aliasFactor keep e := by
  unfold aliasFactor
  by_cases h' : keep' e.1
  · simp [h', hkeep _ h']
  · rw [if_neg h']
    split <;> omega

/-- Nor is the product. -/
theorem aliasProduct_le (es : List (TypeName × AliasDecl)) :
    aliasProduct keep' es ≤ aliasProduct keep es := by
  induction es with
  | nil => exact Nat.le_refl 1
  | cons e es ih => exact Nat.mul_le_mul (aliasFactor_le hkeep e) ih

/-- An alias that is left out leaves out its factor. -/
theorem mul_aliasProduct_le {es : List (TypeName × AliasDecl)} {b : TypeName} {decl : AliasDecl}
    (hmem : (b, decl) ∈ es) (hb : keep b) (hb' : ¬ keep' b) :
    (decl.body.weight + 2) * aliasProduct keep' es ≤ aliasProduct keep es := by
  induction es with
  | nil => cases hmem
  | cons e es ih =>
    rw [aliasProduct, aliasProduct]
    rcases List.mem_cons.mp hmem with rfl | hmem
    · rw [aliasFactor, aliasFactor, if_neg hb', if_pos hb, Nat.one_mul]
      exact Nat.mul_le_mul_left _ (aliasProduct_le hkeep es)
    · rw [Nat.mul_left_comm]
      exact Nat.mul_le_mul (aliasFactor_le hkeep e) (ih hmem)

end Products

/-- The bound on unfolding is the product over all aliases. -/
theorem unfoldFactor_eq (T : Table) : T.unfoldFactor = aliasProduct (fun _ => True) T.aliases := by
  have hfold : ∀ (es : List (TypeName × AliasDecl)) (n : Nat),
      es.foldl (fun n e => n * (e.2.body.weight + 2)) n = n * aliasProduct (fun _ => True) es := by
    intro es
    induction es with
    | nil => exact fun n => (Nat.mul_one n).symm
    | cons e es ih =>
      intro n
      rw [List.foldl_cons, ih, aliasProduct, aliasFactor, if_pos trivial, Nat.mul_assoc]
  rw [unfoldFactor, hfold, Nat.one_mul]

/-- The bound on unfolding is positive. -/
theorem unfoldFactor_pos (T : Table) : 0 < T.unfoldFactor := by
  rw [unfoldFactor_eq]
  exact aliasProduct_pos _ _

/-- The product over the aliases that an alias leads to. -/
noncomputable def productBeyond (T : Table) (a : TypeName) : Nat :=
  aliasProduct (Relation.TransGen T.Refers a) T.aliases

section Acyclic

variable (hT : T.AcyclicAliases)

include hT

/-- What an alias leads to leads to less. -/
theorem mul_productBeyond_le {keep : TypeName → Prop} {b : TypeName} {decl : AliasDecl}
    (hdecl : T.alias? b = some decl) (hb : keep b)
    (hkeep : ∀ c, Relation.TransGen T.Refers b c → keep c) :
    (decl.body.weight + 2) * T.productBeyond b ≤ aliasProduct keep T.aliases :=
  mul_aliasProduct_le hkeep (Keyed.mem_of_get? hdecl) hb (hT b)

/-- An alias adds at most the product over any aliases among which it is with all that it leads
to. -/
theorem aliasAdds_of_keep {keep : TypeName → Prop} {b : TypeName} (hb : keep b)
    (hkeep : ∀ c, Relation.TransGen T.Refers b c → keep c) :
    AliasAdds T (aliasProduct keep T.aliases) b := by
  -- By induction on the product: that of what the alias leads to is less, since it is not among it.
  induction hn : aliasProduct keep T.aliases using Nat.strongRecOn generalizing keep b with
  | ind n ih =>
    subst hn
    cases hdecl : T.alias? b with
    | none => exact aliasAdds_of_undeclared hdecl _
    | some decl =>
      have hle := mul_productBeyond_le hT hdecl hb hkeep
      have hpos : 0 < T.productBeyond b := aliasProduct_pos _ _
      rw [Nat.add_mul] at hle
      refine (aliasAdds_of_body hdecl (n := T.productBeyond b) fun c hc => ?_).mono (by omega)
      have hstep : T.Refers b c := ⟨decl, hdecl, hc⟩
      have hlt : T.productBeyond b < aliasProduct keep T.aliases := by omega
      exact ih _ hlt (.single hstep) (fun d hd => .head hstep hd) rfl

/-- Acyclic aliases unfold within the depth that is taken for them. -/
theorem unfoldsIn_unfoldDepth (t : Ty) : UnfoldsIn T (T.unfoldDepth t) t := by
  have hall : ∀ name, AliasAdds T T.unfoldFactor name := by
    intro name
    rw [unfoldFactor_eq]
    exact aliasAdds_of_keep hT trivial fun _ _ => trivial
  refine ((carries_self 0).unfoldsIn fun name _ => hall name).mono ?_
  exact Nat.mul_le_mul_right _ (Nat.le_succ _)

end Acyclic

end Table
end TypeShape
