import TypeShape.Proofs.Search.Recall

/-!
# Two searches side by side

A goal has a twin in another context when both lead to twins again.  Searches for twins go in
lockstep: unions that are not clear are remembered by both or by neither, and with shapes alike.
A clear union may be remembered by one of them only, but then the other finds a shape alike to what
was remembered.  So whenever the one search ends, so does the other, with an answer alike.

Main results:

- Theorem `Search.sim_searchUnion`: how unions are found side by side.
- Theorem `Search.lockstep`: searches for twins have answers alike.
- Theorem `Search.answer_of_twin`: what is answered to a goal is alike to what is answered to its
  twin.
-/

namespace TypeShape
namespace Search

variable {T : Table} {All Clear : Goal → Prop} {E : Goal → Shape → Shape → Prop}
  {Twin : Goal → Context → Prop}

/-- Goals of a scope and the contexts in which they have twins.  Twins are handed on alike, are
clear together and have the same shape then; unions that are not clear are confused with each other
on one side just when their twins are on the other. -/
structure Twins (T : Table) (All Clear : Goal → Prop) (E : Goal → Shape → Shape → Prop)
    (Twin : Goal → Context → Prop) : Prop where
  scope : Scope T All Clear E
  all : ∀ {g c}, Twin g c → All g ∧ All { g with context := c }
  agrees : ∀ {g c}, Twin g c → g.Agrees c
  forwards : ∀ {g c g' h}, Twin g c → Goal.Forwards T g g' h →
    ∃ c', Twin g' c' ∧ Goal.Forwards T { g with context := c } { g' with context := c' } h
  union : ∀ {ms c₀ v c m}, Twin ⟨.union ms, c₀, v⟩ c → m ∈ ms → literalClass? m = none →
    Twin ⟨m, c₀, .outside⟩ c
  inter : ∀ {ms c₀ v c m}, Twin ⟨.inter ms, c₀, v⟩ c → m ∈ ms → Twin ⟨m, c₀, .outside⟩ c
  view : ∀ {ms c₀ v c}, Twin ⟨.union ms, c₀, v⟩ c → Twin ⟨.union ms, c₀, .outside⟩ c
  like : ∀ {g c s s'}, Twin g c → E { g with context := c } s s' → E g s s'
  clear : ∀ {g c}, Twin g c → (Clear g ↔ Clear { g with context := c })
  resolves : ∀ {g c}, Twin g c → Clear g → ∀ s,
    (∃ n, Resolves T n g s) ↔ ∃ n, Resolves T n { g with context := c } s
  confused : ∀ {ms c₀ c ms' c₀' c'}, Twin ⟨.union ms, c₀, .outside⟩ c →
    Twin ⟨.union ms', c₀', .outside⟩ c' → ¬ Clear ⟨.union ms, c₀, .outside⟩ →
    ¬ Clear ⟨.union ms', c₀', .outside⟩ →
    (Ty.union ms == Ty.union ms' && c₀ == c₀') = (Ty.union ms == Ty.union ms' && c == c')

/-- The memories are good, the notes are the given ones, and shapes alike are remembered for unions
that are not clear and for their twins. -/
structure Agree (T : Table) (All Clear : Goal → Prop) (E : Goal → Shape → Shape → Prop)
    (Twin : Goal → Context → Prop) (p : List Ty) (b f : Cache) : Prop where
  left : GoodAt T All Clear E p b
  right : GoodAt T All Clear E p f
  unions : ∀ {ms c₀ c}, Twin ⟨.union ms, c₀, .outside⟩ c → ¬ Clear ⟨.union ms, c₀, .outside⟩ →
    Option.Rel (E ⟨.union ms, c₀, .outside⟩) (rememberedUnion? b (.union ms) c₀)
      (rememberedUnion? f (.union ms) c)

/-! ## What is remembered -/

/-- What is remembered for a union depends on the remembered unions only. -/
theorem rememberedUnion?_congr {b b' : Cache} (h : b'.unions = b.unions) (t : Ty) (c : Context) :
    rememberedUnion? b' t c = rememberedUnion? b t c := by
  rw [rememberedUnion?, rememberedUnion?, h]

/-- The latest shape that was remembered for an equal union is found first. -/
theorem rememberedUnion?_remember (b : Cache) (t t' : Ty) (c c' : Context) (s : Shape) :
    rememberedUnion? { b with unions := ((t, c), s) :: b.unions } t' c' =
      if t == t' && c == c' then some s else rememberedUnion? b t' c' := by
  unfold rememberedUnion?
  rw [List.find?_cons]
  cases t == t' && c == c' <;> rfl

/-- New clear unions are not confused with unions that are not clear. -/
theorem Grown.rememberedUnion? (hS : Scope T All Clear E) {b b' : Cache} (h : Grown Clear b b')
    (hb' : Cache.Good T All Clear E b') {ms : List Ty} {c : Context}
    (hall : All ⟨.union ms, c, .outside⟩) (hc : ¬ Clear ⟨.union ms, c, .outside⟩) :
    rememberedUnion? b' (.union ms) c = rememberedUnion? b (.union ms) c := by
  obtain ⟨added, hu, hadded⟩ := h
  have hnone : added.find? (fun e => e.1.1 == .union ms && e.1.2 == c) = none := by
    refine List.find?_eq_none.mpr fun e he hmatch => hc ?_
    obtain ⟨ms', hms'⟩ := hb'.union e (by rw [hu]; exact List.mem_append_left _ he)
    have hclear := hadded e he
    rw [hms'] at hclear hmatch
    exact (hS.same hclear hall (Or.inr hmatch)).1
  rw [Search.rememberedUnion?, Search.rememberedUnion?, hu, List.find?_append, hnone]
  rfl

namespace Agree

variable {p : List Ty} {b f b' f' : Cache}

/-- Memories agree while neither unions nor notes change. -/
theorem congr (h : Agree T All Clear E Twin p b f) (hb : b'.Right T) (hbu : b'.unions = b.unions)
    (hbp : b'.pending = b.pending) (hf : f'.Right T) (hfu : f'.unions = f.unions)
    (hfp : f'.pending = f.pending) : Agree T All Clear E Twin p b' f' where
  left := h.left.congr hb hbu hbp
  right := h.right.congr hf hfu hfp
  unions ht hc := by
    rw [rememberedUnion?_congr hbu, rememberedUnion?_congr hfu]
    exact h.unions ht hc

/-- They agree after one note more. -/
theorem note (h : Agree T All Clear E Twin p b f) (t : Ty) :
    Agree T All Clear E Twin (t :: p) (Search.note b t) (Search.note f t) :=
  ⟨h.left.note t, h.right.note t, h.unions⟩

/-- And when it is taken back. -/
theorem unnote {t : Ty} (h : Agree T All Clear E Twin (t :: p) b f) :
    Agree T All Clear E Twin p (Search.unnote b) (Search.unnote f) :=
  ⟨h.left.unnote, h.right.unnote, h.unions⟩

/-- The memories may grow by clear unions on both sides. -/
theorem grown (hT : Twins T All Clear E Twin) (h : Agree T All Clear E Twin p b f)
    (hb : GoodAt T All Clear E p b') (hgb : Grown Clear b b') (hf : GoodAt T All Clear E p f')
    (hgf : Grown Clear f f') : Agree T All Clear E Twin p b' f' where
  left := hb
  right := hf
  unions ht hc := by
    have hall := hT.all ht
    have hc' := mt (hT.clear ht).mpr hc
    rw [hgb.rememberedUnion? hT.scope hb.1 hall.1 hc, hgf.rememberedUnion? hT.scope hf.1 hall.2 hc']
    exact h.unions ht hc

/-- A union and its twin that are not clear are remembered with shapes alike. -/
theorem remember (hT : Twins T All Clear E Twin) (h : Agree T All Clear E Twin p b f) {ms : List Ty}
    {c₀ c : Context} {s s' : Shape} (ht : Twin ⟨.union ms, c₀, .outside⟩ c)
    (hc : ¬ Clear ⟨.union ms, c₀, .outside⟩) (hs : E ⟨.union ms, c₀, .outside⟩ s s')
    (hb : GoodAt T All Clear E p { b with unions := ((.union ms, c₀), s) :: b.unions })
    (hf : GoodAt T All Clear E p { f with unions := ((.union ms, c), s') :: f.unions }) :
    Agree T All Clear E Twin p { b with unions := ((.union ms, c₀), s) :: b.unions }
      { f with unions := ((.union ms, c), s') :: f.unions } where
  left := hb
  right := hf
  unions {ms' c₀' c'} ht' hc' := by
    rw [rememberedUnion?_remember, rememberedUnion?_remember, hT.confused ht ht' hc hc']
    cases hconfused : Ty.union ms == Ty.union ms' && c == c' with
    | true =>
      have hleft : Confused ms c₀ ms' c₀' := Or.inr ((hT.confused ht ht' hc hc').trans hconfused)
      exact .some (hT.scope.like.congr (hT.all ht).1 (hT.all ht').1 hleft hs)
    | false => exact h.unions ht' hc'

end Agree

/-! ## Parts of searches -/

/-- A settled search has one answer on memories that agree. -/
theorem Settled.sim_agree {α : Type} {p : List Ty} {m : Search α} (h : Settled T m) :
    Sim (Agree T All Clear E Twin p) (fun a a' => a = a' ∧ Returns T m (.ok a)) m fun _ => m := by
  intro b f hR r b' hr
  obtain ⟨r', hr'⟩ := h
  obtain ⟨b₁, hm, hb₁, hbu, hbp⟩ := hr' b hR.left.1.right
  obtain ⟨rfl, rfl⟩ := Prod.mk.inj (Option.some.inj (hr.symm.trans hm))
  obtain ⟨f', hm', hf', hfu, hfp⟩ := hr' f hR.right.1.right
  refine ⟨0, r, f', fun _ _ => hm', ?_, hR.congr hb₁ hbu hbp hf' hfu hfp⟩
  cases r with
  | error e => exact .error e
  | ok a => exact .ok ⟨rfl, hr'⟩

/-- A search that ends at once without a shape does so on both sides. -/
theorem Sim.ret {R : Cache → Cache → Prop} {S : Shape → Shape → Prop}
    {r : Except ShapeError (Option Shape)} (hnone : ∀ s, r ≠ .ok (some s)) :
    Sim R (Option.Rel S) (Goal.ret r) fun _ => Goal.ret r := by
  intro b f hR r' b' hr
  obtain ⟨rfl, rfl⟩ := Prod.mk.inj (Option.some.inj hr)
  refine ⟨0, r, f, fun _ _ => rfl, ?_, hR⟩
  rcases r with e | _ | s
  · exact .error e
  · exact .ok .none
  · exact absurd rfl (hnone s)

/-- Looking through a type keeps memories in agreement if the search does. -/
theorem Sim.lookingThrough_agree {α : Type} {Q : α → α → Prop} {p : List Ty} {t : Ty}
    {m m' : Search α} (h : Sim (Agree T All Clear E Twin (t :: p)) Q m fun _ => m') :
    Sim (Agree T All Clear E Twin p) Q (Search.lookingThrough t m)
      fun _ => Search.lookingThrough t m' := by
  intro b f hR r b' hr
  have hpending : f.pending = b.pending := hR.right.2.trans hR.left.2.symm
  rcases lookingThrough_eq_some.mp hr with ⟨hp, rfl, rfl⟩ | ⟨hp, b₁, hm, rfl⟩
  · rw [← hpending] at hp
    exact ⟨0, _, f, fun _ _ => lookingThrough_eq_some.mpr (Or.inl ⟨hp, rfl, rfl⟩), .error _, hR⟩
  · obtain ⟨r', f₁, hf₁, hQ, hR₁⟩ := h.run (hR.note t) hm
    rw [← hpending] at hp
    exact ⟨0, r', unnote f₁, fun _ _ => lookingThrough_eq_some.mpr (Or.inr ⟨hp, f₁, hf₁, rfl⟩), hQ,
      hR₁.unnote⟩

/-- The search for a union, within one more than its members. -/
theorem withinGoal_union (n : Nat) (ms : List Ty) (c : Context) (v : View) :
    withinGoal T (n + 1) ⟨.union ms, c, v⟩ =
      searchUnion T (fun m => withinGoal T n ⟨m, c, .outside⟩) (.union ms) ms c :=
  rfl

/-- The search for a union. -/
theorem findGoal_union (ms : List Ty) (c : Context) (v : View) :
    findGoal T ⟨.union ms, c, v⟩ =
      searchUnion T (fun m => findGoal T ⟨m, c, .outside⟩) (.union ms) ms c :=
  findGoal_eq T _

section Union

variable (hT : Twins T All Clear E Twin) {ms : List Ty} {c₀ c : Context} {v : View} {p : List Ty}
  {n : Nat} (ht : Twin ⟨.union ms, c₀, v⟩ c)
  (hms : ∀ m ∈ ms, literalClass? m = none → Sim (Agree T All Clear E Twin p)
    (Option.Rel (E ⟨m, c₀, .outside⟩)) (withinGoal T n ⟨m, c₀, .outside⟩)
    fun _ => findGoal T ⟨m, c, .outside⟩)

include hT ht hms

/-- Unions that neither side remembers are made from the shapes of their members on both. -/
theorem sim_missed {b f b' : Cache} {r : Except ShapeError (Option Shape)}
    (hR : Agree T All Clear E Twin p b f) (hb : rememberedUnion? b (.union ms) c₀ = none)
    (hf : rememberedUnion? f (.union ms) c = none)
    (hr : withinGoal T (n + 1) ⟨.union ms, c₀, v⟩ b = some (r, b')) :
    ∃ r' f', findGoal T ⟨.union ms, c, v⟩ f = some (r', f') ∧
      ExceptRel (Option.Rel (E ⟨.union ms, c₀, v⟩)) r r' ∧
      ((∀ s, r ≠ .ok (some s)) ∧ Agree T All Clear E Twin p b' f' ∨
        ∃ s s' b₁ f₁, Agree T All Clear E Twin p b₁ f₁ ∧ r = .ok (some s) ∧ r' = .ok (some s') ∧
          E ⟨.union ms, c₀, v⟩ s s' ∧
          b' = { b₁ with unions := ((.union ms, c₀), s) :: b₁.unions } ∧
          f' = { f₁ with unions := ((.union ms, c), s') :: f₁.unions }) := by
  have hsim : Sim (Agree T All Clear E Twin p)
      (Option.Rel (List.Forall₂ (MemberShapes T E ms c₀)))
      (allGroupShapes T (fun m => withinGoal T n ⟨m, c₀, .outside⟩) (memberGroups ms))
      fun _ => allGroupShapes T (fun m => findGoal T ⟨m, c, .outside⟩) (memberGroups ms) := by
    refine Sim.allGroupShapes (fun name ts hg => ?_) fun g hg hl m hm => ?_
    · refine (settled_classShape _ _ _).sim_agree.imp ?_
      rintro s _ ⟨rfl, hs⟩
      exact .literals hg hs
    · obtain ⟨hmem, hlit⟩ := mem_of_mem_memberGroups hg hl hm
      refine (hms m hmem hlit).imp fun o o' ho => ?_
      exact optionRel_imp ho fun _ _ hs => .member hmem hlit hs
  rw [withinGoal_union, searchUnion_apply, hb] at hr
  rw [findGoal_union, searchUnion_apply, hf]
  dsimp only at hr ⊢
  rcases hrun : allGroupShapes T (fun m => withinGoal T n ⟨m, c₀, .outside⟩) (memberGroups ms) b
    with _ | ⟨r₀, b₁⟩
  · simp [hrun] at hr
  · obtain ⟨r₁, f₁, hf₁, hrel, hR₁⟩ := hsim.run hR hrun
    rw [hf₁]
    rw [hrun] at hr
    cases hrel with
    | error e =>
      obtain ⟨rfl, rfl⟩ := Prod.mk.inj (Option.some.inj hr)
      exact ⟨_, f₁, rfl, .error e, Or.inl ⟨by simp, hR₁⟩⟩
    | ok hrel =>
      cases hrel with
      | none =>
        obtain ⟨rfl, rfl⟩ := Prod.mk.inj (Option.some.inj hr)
        exact ⟨_, f₁, rfl, .ok .none, Or.inl ⟨by simp, hR₁⟩⟩
      | some hshapes =>
        have hlike := hT.scope.like.union (v := v) (hT.all ht).1 hshapes
        obtain ⟨rfl, rfl⟩ := Prod.mk.inj (Option.some.inj hr)
        exact ⟨_, _, rfl, .ok (.some hlike), Or.inr ⟨_, _, b₁, f₁, hR₁, rfl, rfl, hlike, rfl, rfl⟩⟩

/-- How unions are found side by side. -/
theorem sim_searchUnion (hp : Behind T p ⟨.union ms, c₀, v⟩) (hp' : Behind T p ⟨.union ms, c, v⟩) :
    Sim (Agree T All Clear E Twin p) (Option.Rel (E ⟨.union ms, c₀, v⟩))
      (withinGoal T (n + 1) ⟨.union ms, c₀, v⟩) fun _ => findGoal T ⟨.union ms, c, v⟩ := by
  intro b f hR r b' hr
  have hS := hT.scope
  have hall := hT.all ht
  have hview := hT.view ht
  have houtside := hT.all hview
  have hfind := findGoal_eq_some_iff.mpr ⟨n + 1, hr⟩
  by_cases hc : Clear ⟨.union ms, c₀, v⟩
  · have hc' : Clear ⟨.union ms, c, v⟩ := (hT.clear ht).mp hc
    by_cases hres : ∃ s, ∃ n, Resolves T n ⟨.union ms, c₀, v⟩ s
    · -- Both sides find a shape alike to that of the union, wherever they have it from.
      obtain ⟨s, k, hk⟩ := hres
      obtain ⟨i, hi⟩ := (hT.resolves ht hc s).mp ⟨k, hk⟩
      obtain ⟨s₁, b₁, hb₁, hs₁, hgood, hgrown⟩ := complete hS hk hall.1 hc hp hR.left
      obtain ⟨s₂, f₁, hf₁, hs₂, hgood', hgrown'⟩ := complete hS hi hall.2 hc' hp' hR.right
      obtain ⟨rfl, rfl⟩ := Prod.mk.inj (Option.some.inj (hfind.symm.trans hb₁))
      have hlike := hS.like.trans (hS.like.symm hs₁) (hT.like ht hs₂)
      exact ⟨0, _, f₁, fun _ _ => hf₁, .ok (.some hlike),
        hR.grown hT hgood hgrown hgood' hgrown'⟩
    · -- A union without a shape is not remembered, and none is found.
      have hb : rememberedUnion? b (.union ms) c₀ = none := by
        refine Option.eq_none_iff_forall_ne_some.mpr fun s hs => ?_
        obtain ⟨k, s₀, hk, -⟩ :=
          hR.left.1.resolves_of_remembered hS houtside.1 (hS.clear_view hc) hs
        exact hres ⟨s₀, k, hk.union_view v⟩
      have hf : rememberedUnion? f (.union ms) c = none := by
        refine Option.eq_none_iff_forall_ne_some.mpr fun s hs => ?_
        obtain ⟨k, s₀, hk, -⟩ :=
          hR.right.1.resolves_of_remembered hS houtside.2 (hS.clear_view hc') hs
        exact hres ⟨s₀, (hT.resolves ht hc s₀).mpr ⟨k, hk.union_view v⟩⟩
      obtain ⟨r', f', hf', hrel, ⟨-, hR'⟩ | ⟨s, s', b₁, f₁, -, rfl, -⟩⟩ :=
        sim_missed hT ht hms hR hb hf hr
      · exact ⟨0, r', f', fun _ _ => hf', hrel, hR'⟩
      · obtain ⟨k, s₀, hk, -⟩ := (sound hS (n + 1) hall.1 p hR.left hr).2 _ rfl hc s rfl
        exact absurd ⟨s₀, k, hk⟩ hres
  · have hc' : ¬ Clear ⟨.union ms, c₀, .outside⟩ := fun h => hc (hS.clear_view h)
    have hsame := hR.unions hview hc'
    cases hb : rememberedUnion? b (.union ms) c₀ with
    | some s =>
      obtain ⟨s', hf, hs⟩ := exists_of_optionRel hsame hb
      rw [withinGoal_union, searchUnion_apply, hb] at hr
      obtain ⟨rfl, rfl⟩ := Prod.mk.inj (Option.some.inj hr)
      refine ⟨0, .ok (some s'), f, fun _ _ => ?_, .ok (.some ?_), hR⟩
      · beta_reduce
        rw [findGoal_union, searchUnion_apply, hf]
      · exact hS.like.congr houtside.1 hall.1 (.refl ms c₀) hs
    | none =>
      have hf : rememberedUnion? f (.union ms) c = none := by
        rw [hb] at hsame
        cases hf : rememberedUnion? f (.union ms) c with
        | none => rfl
        | some s' =>
          rw [hf] at hsame
          cases hsame
      obtain ⟨r', f', hf', hrel, hR'⟩ := sim_missed hT ht hms hR hb hf hr
      refine ⟨0, r', f', fun _ _ => hf', hrel, ?_⟩
      rcases hR' with ⟨-, hR'⟩ | ⟨s, s', b₁, f₁, hR₁, rfl, rfl, hs, rfl, rfl⟩
      · exact hR'
      · obtain ⟨k, hk⟩ := findGoal_eq_some_iff.mp hf'
        exact hR₁.remember hT hview hc' (hS.like.congr hall.1 houtside.1 (.refl ms c₀) hs)
          (sound hS (n + 1) hall.1 p hR.left hr).1 (sound hS k hall.2 p hR.right hk).1

end Union

/-- Searches for twins have answers alike. -/
theorem lockstep (hT : Twins T All Clear E Twin) (n : Nat) {g : Goal} {c : Context} {p : List Ty}
    (ht : Twin g c) (hp : Behind T p g) (hp' : Behind T p { g with context := c }) :
    Sim (Agree T All Clear E Twin p) (Option.Rel (E g)) (withinGoal T n g)
      fun _ => findGoal T { g with context := c } := by
  induction n generalizing g c p with
  | zero =>
    intro b f _ r b' h
    simp [withinGoal_zero] at h
  | succ n ih =>
    have hS := hT.scope
    obtain ⟨hall, hall'⟩ := hT.all ht
    cases g.form T with
    | direct hd =>
      rw [withinGoal_succ, findGoal_eq, ← Goal.step_direct (withinGoal T n) hd (findGoal T) c]
      refine (settled_direct hd _).sim_agree.imp ?_
      rintro o _ ⟨rfl, ho⟩
      cases o with
      | none => exact .none
      | some s =>
        refine .some (hS.like.direct hall hd fun search => ?_)
        rw [← Goal.step_direct (withinGoal T n) hd search g.context]
        exact ho
    | stops r hnone _ hr =>
      have hleft := hr g.context (.refl g) (withinGoal T n)
      rw [withinGoal_succ, findGoal_eq, hr c (hT.agrees ht), hleft]
      exact Sim.ret hnone
    | stopsNoted r hnone _ hr =>
      have hleft := hr g.context (.refl g) (withinGoal T n)
      rw [withinGoal_succ, findGoal_eq, hr c (hT.agrees ht), hleft]
      exact (Sim.ret hnone).lookingThrough_agree
    | forwards g' f hf =>
      obtain ⟨c', ht', hf'⟩ := hT.forwards ht hf
      rw [withinGoal_succ, findGoal_eq, Goal.step_forwards _ hf, Goal.step_forwards _ hf']
      have hmap : ∀ o o', Option.Rel (E g') o o' → Option.Rel (E g) (o.map f) (o'.map f) :=
        fun o o' ho => optionRel_map ho fun _ _ hs => hS.like.forward hall hf hs
      by_cases hslot : ∃ q, g.type = .slot q
      · obtain ⟨q, hq⟩ := hslot
        rw [Goal.noted_of_slot hq, Goal.noted_of_slot (g := { g with context := c }) hq]
        exact (ih ht' (hp.leads (.forward hf)) (hp'.leads (.forward hf'))).map hmap
      · have hslot : ∀ q, g.type ≠ .slot q := fun q hq => hslot ⟨q, hq⟩
        rw [Goal.noted_of_not_slot hslot,
          Goal.noted_of_not_slot (g := { g with context := c }) hslot]
        refine Sim.lookingThrough_agree ((ih ht' ?_ ?_).map hmap)
        · exact hp.forward hf hslot fun g' hr => hS.wellFormed (hS.reaches hall hr)
        · exact hp'.forward hf' hslot fun g' hr => hS.wellFormed (hS.reaches hall' hr)
    | union ms hu =>
      obtain ⟨t, c₀, v⟩ := g
      obtain rfl : t = .union ms := hu
      refine sim_searchUnion hT ht (fun m hm hl => ?_) hp hp'
      exact ih (hT.union ht hm hl) (hp.leads (.union hm hl)) (hp'.leads (.union hm hl))
    | inter ms hi =>
      obtain ⟨t, c₀, v⟩ := g
      obtain rfl : t = .inter ms := hi
      rw [withinGoal_succ, findGoal_eq]
      refine Sim.bind (Sim.shapesOf
        (S := fun s s' => ∃ m ∈ ms, E ⟨m, c₀, .outside⟩ s s') fun m hm => ?_)
        fun shapes shapes' hshapes => ?_
      · refine (ih (hT.inter ht hm) (hp.leads (.inter hm)) (hp'.leads (.inter hm))).imp
          fun o o' ho => ?_
        exact optionRel_imp ho fun _ _ hs => ⟨m, hm, hs⟩
      · cases hshapes with
        | none => exact Sim.pure .none
        | some hshapes => exact Sim.pure (.some (hS.like.inter hall hshapes))

/-- What is answered to a goal is alike to what is answered to its twin. -/
theorem answer_of_twin (hT : Twins T All Clear E Twin) {g : Goal} {c : Context} (ht : Twin g c)
    {b f : Cache} (hR : Agree T All Clear E Twin [] b f) {r : Except ShapeError (Option Shape)}
    (h : (findGoal T g b).map (·.1) = some r) :
    ∃ r', (findGoal T { g with context := c } f).map (·.1) = some r' ∧
      ExceptRel (Option.Rel (E g)) r r' := by
  obtain ⟨⟨r, b'⟩, hfind, rfl⟩ := Option.map_eq_some_iff.mp h
  obtain ⟨n, hn⟩ := findGoal_eq_some_iff.mp hfind
  obtain ⟨r', f', hf', hrel, -⟩ := (lockstep hT n ht (.nil T g) (.nil T _)).run hR hn
  exact ⟨r', by rw [hf']; rfl, hrel⟩

end Search
end TypeShape
