import TypeShape.Proofs.Search.Memory

/-!
# Clear goals are found

A goal that has a shape is never stopped by a note: the noted types were handed on to goals that
reach it, and a goal that leads back to itself has no shape.  So the search for a clear goal with a
shape finds one alike to it from any good memory, whether or not a part of it is remembered already.

Main results:

- Theorem `Search.Behind.not_noted`: a goal with a shape is not noted.
- Theorem `Search.complete`: a search for a clear goal that has a shape finds one alike.
-/

namespace TypeShape
namespace Search

variable {T : Table} {All Clear : Goal → Prop} {E : Goal → Shape → Shape → Prop}

/-- Every noted type was handed on to a goal that reaches this one. -/
def Behind (T : Table) (p : List Ty) (g : Goal) : Prop :=
  ∀ t ∈ p, ∃ g₀ g₁ h, g₀.type = t ∧ Goal.Forwards T g₀ g₁ h ∧ (∀ q, g₀.type ≠ .slot q) ∧
    (∀ g', Reaches T g₀ g' → g'.type.WellFormed) ∧ Reaches T g₁ g

/-- No note is behind every goal. -/
theorem Behind.nil (T : Table) (g : Goal) : Behind T [] g := by
  simp [Behind]

/-- Notes behind a goal are behind those that it leads to. -/
theorem Behind.leads {p : List Ty} {g g' : Goal} (h : Behind T p g) (hl : Leads T g g') :
    Behind T p g' := by
  intro t ht
  obtain ⟨g₀, g₁, f, h₀, hf, hslot, hwf, hr⟩ := h t ht
  exact ⟨g₀, g₁, f, h₀, hf, hslot, hwf, hr.tail hl⟩

/-- The type of a goal that is handed on is behind the next goal. -/
theorem Behind.forward {p : List Ty} {g g' : Goal} {f : Shape → Shape} (h : Behind T p g)
    (hf : Goal.Forwards T g g' f) (hslot : ∀ q, g.type ≠ .slot q)
    (hwf : ∀ g', Reaches T g g' → g'.type.WellFormed) :
    Behind T (g.type :: p) g' :=
  List.forall_mem_cons.mpr ⟨⟨g, g', f, rfl, hf, hslot, hwf, .refl⟩, h.leads (.forward hf)⟩

/-- A goal with a shape is not noted. -/
theorem Behind.not_noted (hT : T.AliasesWellFormed) {p : List Ty} {g : Goal} (h : Behind T p g)
    {n : Nat} {s : Shape} (hs : Resolves T n g s) : p.any (· == g.type) = false := by
  refine List.any_eq_false.mpr fun t ht hbeq => ?_
  obtain ⟨g₀, g₁, f, rfl, hf, hslot, hwf, hr⟩ := h t ht
  exact not_resolves_of_noted hT hf hslot hwf hr hbeq n s hs

/-- Only clear unions were remembered since. -/
def Grown (Clear : Goal → Prop) (b b' : Cache) : Prop :=
  ∃ added, b'.unions = added ++ b.unions ∧ ∀ e ∈ added, Clear ⟨e.1.1, e.1.2, .outside⟩

/-- Memory of the same unions has not grown. -/
theorem Grown.of_eq {b b' : Cache} (h : b'.unions = b.unions) : Grown Clear b b' :=
  ⟨[], h, by simp⟩

/-- Memory that grew twice grew. -/
theorem Grown.trans {b₁ b₂ b₃ : Cache} (h₁ : Grown Clear b₁ b₂) (h₂ : Grown Clear b₂ b₃) :
    Grown Clear b₁ b₃ := by
  obtain ⟨added₁, hu₁, hc₁⟩ := h₁
  obtain ⟨added₂, hu₂, hc₂⟩ := h₂
  refine ⟨added₂ ++ added₁, by rw [hu₂, hu₁, List.append_assoc], fun e he => ?_⟩
  rcases List.mem_append.mp he with he | he
  · exact hc₂ e he
  · exact hc₁ e he

/-- From good memory with these notes the search finds a shape related to the given one, remembers
only clear unions and leaves the memory good. -/
def Finds (T : Table) (All Clear : Goal → Prop) (E : Goal → Shape → Shape → Prop) (p : List Ty)
    (S : Shape → Shape → Prop) (m : Search (Option Shape)) (s : Shape) : Prop :=
  ∀ ⦃b⦄, GoodAt T All Clear E p b → ∃ s' b', m b = some (.ok (some s'), b') ∧ S s s' ∧
    GoodAt T All Clear E p b' ∧ Grown Clear b b'

section Finding

variable {p : List Ty} {S : Shape → Shape → Prop} {m : Search (Option Shape)} {s : Shape}

/-- What is returned from every right memory is found. -/
theorem Returns.finds (h : Returns T m (.ok (some s))) (hs : S s s) (p : List Ty) :
    Finds T All Clear E p S m s := by
  intro b hb
  obtain ⟨b', hm, hr, hu, hp⟩ := h b hb.1.right
  exact ⟨s, b', hm, hs, hb.congr hr hu hp, .of_eq hu⟩

/-- What is made of a shape is found if the shape is. -/
theorem Finds.map {S' : Shape → Shape → Prop} {f : Shape → Shape}
    (h : Finds T All Clear E p S m s) (hf : ∀ s', S s s' → S' (f s) (f s')) :
    Finds T All Clear E p S' (Option.map f <$> m) (f s) := by
  intro b hb
  obtain ⟨s', b', hm, hs, hb', hgrown⟩ := h hb
  refine ⟨f s', b', ?_, hf s' hs, hb', hgrown⟩
  rw [map_apply, hm]
  rfl

/-- What is found is found up to a weaker relation. -/
theorem Finds.imp {S' : Shape → Shape → Prop} (h : Finds T All Clear E p S m s)
    (hS : ∀ s', S s s' → S' s s') : Finds T All Clear E p S' m s := by
  intro b hb
  obtain ⟨s', b', hm, hs, hb', hgrown⟩ := h hb
  exact ⟨s', b', hm, hS s' hs, hb', hgrown⟩

/-- A type that is not noted may be looked through. -/
theorem Finds.lookingThrough {t : Ty} (h : Finds T All Clear E (t :: p) S m s)
    (ht : p.any (· == t) = false) : Finds T All Clear E p S (lookingThrough t m) s := by
  intro b hb
  obtain ⟨s', b', hm, hs, hb', hgrown⟩ := h (hb.note t)
  rw [← hb.2] at ht
  exact ⟨s', unnote b', lookingThrough_eq_some.mpr (Or.inr ⟨ht, b', hm, rfl⟩), hs, hb'.unnote,
    hgrown⟩

/-- Memory that holds what the declarations give, beside good memory that grew by clear unions
only. -/
def Beside (T : Table) (All Clear : Goal → Prop) (E : Goal → Shape → Shape → Prop) (p : List Ty)
    (b₀ b f : Cache) : Prop :=
  b.Right T ∧ GoodAt T All Clear E p f ∧ Grown Clear b₀ f

/-- A search that asks for types whose shapes are found ends as one that knows them. -/
theorem sim_known {σ : Ty → Shape} {b₀ : Cache} {t : Ty} (search : Ty → Search (Option Shape))
    (h : Finds T All Clear E p S (search t) (σ t)) :
    Sim (Beside T All Clear E p b₀) (Option.Rel S) (known σ t) fun _ => search t := by
  rintro b f ⟨hb, hf, hgrown⟩ r b' hr
  obtain ⟨rfl, rfl⟩ := Prod.mk.inj (Option.some.inj hr)
  obtain ⟨s', f', hm, hs, hf', hgrown'⟩ := h hf
  exact ⟨0, _, f', fun _ _ => hm, .ok (.some hs), hb, hf', hgrown.trans hgrown'⟩

/-- A settled search has one answer on both memories. -/
theorem Settled.sim {α : Type} {b₀ : Cache} {m : Search α} (h : Settled T m) :
    Sim (Beside T All Clear E p b₀) (fun a a' => a = a' ∧ Returns T m (.ok a)) m fun _ => m := by
  rintro b f ⟨hb, hf, hgrown⟩ r b' hr
  obtain ⟨r', hr'⟩ := h
  obtain ⟨b₁, hm, hb₁, -⟩ := hr' b hb
  obtain ⟨rfl, rfl⟩ := Prod.mk.inj (Option.some.inj (hr.symm.trans hm))
  obtain ⟨f', hm', hf', hu, hp⟩ := hr' f hf.1.right
  refine ⟨0, r, f', fun _ _ => hm', ?_, hb₁, hf.congr hf' hu hp, hgrown.trans (.of_eq hu)⟩
  cases r with
  | error e => exact .error e
  | ok a => exact .ok ⟨rfl, hr'⟩

end Finding

section Complete

variable (hS : Scope T All Clear E) {search : Goal → Search (Option Shape)} {p : List Ty}

include hS

/-- The search for a clear union finds its shape if those for its members do. -/
theorem finds_searchUnion {ms : List Ty} {c : Context} {v : View} {n : Nat} {s : Shape}
    (h : Resolves T n ⟨.union ms, c, v⟩ s) (hg : All ⟨.union ms, c, v⟩)
    (hc : Clear ⟨.union ms, c, v⟩)
    (hms : ∀ m ∈ ms, literalClass? m = none → ∀ k s', k < n → Resolves T k ⟨m, c, .outside⟩ s' →
      Finds T All Clear E p (E ⟨m, c, .outside⟩) (search ⟨m, c, .outside⟩) s') :
    Finds T All Clear E p (E ⟨.union ms, c, v⟩)
      (searchUnion T (fun m => search ⟨m, c, .outside⟩) (.union ms) ms c) s := by
  have hc' : Clear ⟨.union ms, c, .outside⟩ := hS.clear_view hc
  have hall := hS.view hg .outside
  have hres := h.union_view .outside
  intro b hb
  rw [searchUnion_apply]
  cases hrem : rememberedUnion? b (.union ms) c with
  | some s' =>
    obtain ⟨k, s₀, hk, hs₀⟩ := hb.1.resolves_of_remembered hS hall hc' hrem
    rw [hres.unique hk]
    exact ⟨s', b, rfl, hS.like.congr hall hg (.refl ms c) hs₀, hb, .of_eq rfl⟩
  | none =>
    cases h with
    | direct hd => simp [Ty.isDirect] at hd
    | forward hf => cases hf
    | @union n _ _ _ shapes σ hm hs =>
      have hsim : Sim (Beside T All Clear E p b) (Option.Rel (List.Forall₂ (MemberShapes T E ms c)))
          (allGroupShapes T (known σ) (memberGroups ms))
          fun _ => allGroupShapes T (fun m => search ⟨m, c, .outside⟩) (memberGroups ms) := by
        refine Sim.allGroupShapes (fun name ts hg' => ?_) fun g hg' hl m hmg => ?_
        · refine (settled_classShape _ _ _).sim.imp ?_
          rintro s _ ⟨rfl, hs⟩
          exact .literals hg' hs
        · obtain ⟨hmem, hlit⟩ := mem_of_mem_memberGroups hg' hl hmg
          refine sim_known (fun m => search ⟨m, c, .outside⟩) (Finds.imp
            (hms m hmem hlit n _ (Nat.lt_succ_self n) (hm m hmem hlit)) fun s' hs' => ?_)
          exact .member hmem hlit hs'
      obtain ⟨b₁, hrun, -⟩ := hs b hb.1.right
      obtain ⟨r, f, hf, hr, -, hgood, added, hu, hadded⟩ :=
        hsim.run ⟨hb.1.right, hb, .of_eq rfl⟩ hrun
      cases hr with
      | ok hr =>
        cases hr with
        | @some _ shapes' hshapes =>
          have hlike := hS.like.union (v := v) hg hshapes
          simp only [hf]
          refine ⟨_, _, rfl, hlike, ⟨hgood.1.remember hall fun _ => ⟨_, _, hres, ?_⟩, hgood.2⟩,
            ((.union ms, c), Shape.ofUnion (.union ms) shapes') :: added, ?_,
            List.forall_mem_cons.mpr ⟨hc', hadded⟩⟩
          · exact hS.like.congr hg hall (.refl ms c) hlike
          · rw [hu]
            rfl

/-- So does the search for an intersection. -/
theorem finds_searchInter {ms : List Ty} {c : Context} {v : View} {σ : Ty → Shape}
    (hg : All ⟨.inter ms, c, v⟩) (hms : ∀ m ∈ ms,
      Finds T All Clear E p (E ⟨m, c, .outside⟩) (search ⟨m, c, .outside⟩) (σ m)) :
    Finds T All Clear E p (E ⟨.inter ms, c, v⟩)
      (searchInter (fun m => search ⟨m, c, .outside⟩) (.inter ms) ms)
      (Shape.ofInter (.inter ms) (ms.map σ)) := by
  intro b hb
  have hsim : Sim (Beside T All Clear E p b)
      (Option.Rel (List.Forall₂ fun s s' => ∃ m ∈ ms, E ⟨m, c, .outside⟩ s s'))
      (shapesOf (known σ) ms) fun _ => shapesOf (fun m => search ⟨m, c, .outside⟩) ms :=
    Sim.shapesOf fun m hm => sim_known (fun m => search ⟨m, c, .outside⟩)
      ((hms m hm).imp fun s' hs' => ⟨m, hm, hs'⟩)
  obtain ⟨b₁, hrun, -⟩ := returns_shapesOf_known (T := T) σ ms b hb.1.right
  obtain ⟨r, f, hf, hr, -, hgood, hgrown⟩ := hsim.run ⟨hb.1.right, hb, .of_eq rfl⟩ hrun
  cases hr with
  | ok hr =>
    cases hr with
    | some hshapes =>
      refine ⟨_, f, ?_, hS.like.inter hg hshapes, hgood, hgrown⟩
      rw [searchInter, bind_apply, hf]
      rfl

/-- A search for a clear goal that has a shape finds one alike. -/
theorem complete {n : Nat} {g : Goal} {s : Shape} (h : Resolves T n g s) (hg : All g)
    (hc : Clear g) (hp : Behind T p g) : Finds T All Clear E p (E g) (findGoal T g) s := by
  induction n generalizing g s p with
  | zero => cases h
  | succ n ih =>
    rw [findGoal_eq]
    have hnot := hp.not_noted hS.aliases h
    cases h with
    | direct hd hs => exact (hs (findGoal T)).finds (hS.like.direct hg hd hs) p
    | @forward _ _ g' f s hf hs =>
      rw [Goal.step_forwards _ hf]
      have hl : Leads T g g' := .forward hf
      have hnext : ∀ {q}, Behind T q g' → Finds T All Clear E q (E g') (findGoal T g') s :=
        ih hs (hS.leads hg hl) (hS.clear_leads hc hl)
      have hmap : ∀ s', E g' s s' → E g (f s) (f s') := fun s' => hS.like.forward hg hf
      unfold Goal.noted
      split
      · exact (hnext (hp.leads hl)).map hmap
      · rename_i t hslot
        have hforward := hp.forward hf hslot fun g' hr => hS.wellFormed (hS.reaches hg hr)
        exact ((hnext hforward).map hmap).lookingThrough hnot
    | @union _ ms c v _ σ hm hs =>
      refine finds_searchUnion hS (.union σ hm hs) hg hc fun m hmem hl k s' hk hs' => ?_
      have hlead : Leads T ⟨.union ms, c, v⟩ ⟨m, c, .outside⟩ := .union hmem hl
      exact ih (hs'.mono (Nat.lt_succ_iff.mp hk)) (hS.leads hg hlead) (hS.clear_leads hc hlead)
        (hp.leads hlead)
    | @inter _ ms c v σ hm =>
      refine finds_searchInter hS hg fun m hmem => ?_
      have hlead : Leads T ⟨.inter ms, c, v⟩ ⟨m, c, .outside⟩ := .inter hmem
      exact ih (hm m hmem) (hS.leads hg hlead) (hS.clear_leads hc hlead) (hp.leads hlead)

end Complete

end Search
end TypeShape
