import TypeShape.Proofs.Deepening
import TypeShape.Proofs.Search.Noted

/-!
# What searches remember

Unions are remembered under their types and contexts, and these are compared up to the order of
members.  So a union may be answered with what was made for an equal one, and this is right only up
to some likeness of shapes.  A goal is clear when every union that it reaches is remembered with a
shape alike to its own.  For clear goals the memory holds shapes alike to those that the goals have
without it.

Main results:

- Theorem `Search.sound`: a search keeps the memory good, and what it finds for a clear goal is
  alike to its shape.
-/

namespace TypeShape
namespace Search

variable {T : Table} {All Clear : Goal → Prop} {E : Goal → Shape → Shape → Prop}

/-! ## Shapes that are alike -/

/-- What is remembered for one of the unions may be taken for the other. -/
def Confused (ms : List Ty) (c : Context) (ms' : List Ty) (c' : Context) : Prop :=
  (Ty.union ms' == Ty.union ms && c' == c) = true ∨ (Ty.union ms == Ty.union ms' && c == c') = true

/-- Which of two unions is taken for the other does not matter. -/
theorem Confused.symm {ms ms' : List Ty} {c c' : Context} (h : Confused ms c ms' c') :
    Confused ms' c' ms c :=
  Or.symm h

/-- A union may be confused with itself. -/
theorem Confused.refl (ms : List Ty) (c : Context) : Confused ms c ms c :=
  Or.inl (Bool.and_eq_true_iff.mpr ⟨Ty.beq_refl _, Context.beq_refl c⟩)

/-- Well-formed unions that may be confused are alike. -/
theorem Confused.like {ms ms' : List Ty} {c c' : Context} {v v' : View}
    (h : Goal.WellFormed ⟨.union ms, c, v⟩) (h' : Goal.WellFormed ⟨.union ms', c', v'⟩)
    (hconfused : Confused ms c ms' c') : Goal.Like ⟨.union ms', c', v'⟩ ⟨.union ms, c, v⟩ := by
  rcases hconfused with hbeq | hbeq
  · exact .of_beq h' h hbeq (Or.inr ⟨ms', rfl⟩)
  · exact (Goal.Like.of_beq h h' hbeq (Or.inr ⟨ms, rfl⟩)).symm

/-- Shapes for a part of a union: those of a member that is no literal are alike, and the literals
of a class have one shape. -/
inductive MemberShapes (T : Table) (E : Goal → Shape → Shape → Prop) (ms : List Ty) (c : Context) :
    Shape → Shape → Prop where
  | literals {name : TypeName} {ts : List Ty} {s : Shape} (hg : (some name, ts) ∈ memberGroups ms)
      (hs : Returns T (classShape T name (some (Ty.unionOf ts)) (some (Ty.unionOf ts))) (.ok s)) :
      MemberShapes T E ms c s s
  | member {m : Ty} {s s' : Shape} (hm : m ∈ ms) (hl : literalClass? m = none)
      (hs : E ⟨m, c, .outside⟩ s s') : MemberShapes T E ms c s s'

/-- When shapes of goals are alike.  What is made of shapes that are alike is alike, and so are
shapes of unions that may be confused with each other. -/
structure Likeness (T : Table) (All : Goal → Prop) (E : Goal → Shape → Shape → Prop) : Prop where
  symm : ∀ {g s s'}, E g s s' → E g s' s
  trans : ∀ {g s s' s''}, E g s s' → E g s' s'' → E g s s''
  direct : ∀ {g s}, All g → g.type.isDirect = true →
    (∀ search, Returns T (g.step T search) (.ok (some s))) → E g s s
  forward : ∀ {g g' h s s'}, All g → Goal.Forwards T g g' h → E g' s s' → E g (h s) (h s')
  union : ∀ {ms c v shapes shapes'}, All ⟨.union ms, c, v⟩ →
    List.Forall₂ (MemberShapes T E ms c) shapes shapes' →
      E ⟨.union ms, c, v⟩ (Shape.ofUnion (.union ms) shapes) (Shape.ofUnion (.union ms) shapes')
  inter : ∀ {ms c v shapes shapes'}, All ⟨.inter ms, c, v⟩ →
    List.Forall₂ (fun s s' => ∃ m ∈ ms, E ⟨m, c, .outside⟩ s s') shapes shapes' →
      E ⟨.inter ms, c, v⟩ (Shape.ofInter (.inter ms) shapes) (Shape.ofInter (.inter ms) shapes')
  congr : ∀ {ms c v ms' c' v' s s'}, All ⟨.union ms, c, v⟩ → All ⟨.union ms', c', v'⟩ →
    Confused ms c ms' c' → E ⟨.union ms, c, v⟩ s s' → E ⟨.union ms', c', v'⟩ s s'

/-- A shape is alike only to itself. -/
theorem Likeness.eq (T : Table) (All : Goal → Prop) : Likeness T All fun _ => Eq where
  symm h := h.symm
  trans h h' := h.trans h'
  direct _ _ _ := rfl
  forward _ _ h := congrArg _ h
  union _ h := by
    have heq : List.Forall₂ Eq _ _ := h.imp fun s s' hs => by
      cases hs with
      | literals => rfl
      | member _ _ hs => exact hs
    rw [List.forall₂_eq_eq_eq] at heq
    rw [heq]
  inter _ h := by
    have heq : List.Forall₂ Eq _ _ := h.imp fun s s' ⟨_, _, hs⟩ => hs
    rw [List.forall₂_eq_eq_eq] at heq
    rw [heq]
  congr _ _ _ h := h

/-! ## Good memories -/

/-- The goals that a search can meet, the clear ones among them, and when their shapes are alike.
Goals of a scope lead to goals of the scope only, and clear goals to clear ones; the view of a union
does not matter.  What may be confused with a clear union is clear and has a shape alike. -/
structure Scope (T : Table) (All Clear : Goal → Prop) (E : Goal → Shape → Shape → Prop) : Prop where
  aliases : T.AliasesWellFormed
  like : Likeness T All E
  wellFormed : ∀ {g}, All g → g.type.WellFormed
  leads : ∀ {g g'}, All g → Leads T g g' → All g'
  view : ∀ {ms c v}, All ⟨.union ms, c, v⟩ → ∀ v', All ⟨.union ms, c, v'⟩
  clear_leads : ∀ {g g'}, Clear g → Leads T g g' → Clear g'
  clear_view : ∀ {ms c v v'}, Clear ⟨.union ms, c, v⟩ → Clear ⟨.union ms, c, v'⟩
  same : ∀ {ms c ms' c'}, Clear ⟨.union ms, c, .outside⟩ → All ⟨.union ms', c', .outside⟩ →
    Confused ms c ms' c' → Clear ⟨.union ms', c', .outside⟩ ∧
      ∀ s', (∃ n, Resolves T n ⟨.union ms', c', .outside⟩ s') →
        ∃ n s, Resolves T n ⟨.union ms, c, .outside⟩ s ∧ E ⟨.union ms, c, .outside⟩ s s'

/-- A scope holds what its goals reach. -/
theorem Scope.reaches (hS : Scope T All Clear E) {g g' : Goal} (hg : All g) (hr : Reaches T g g') :
    All g' := by
  induction hr with
  | refl => exact hg
  | tail _ hl ih => exact hS.leads ih hl

/-- The memory of searches in a scope: what is remembered of declarations is right, only unions of
the scope are remembered, and clear ones with shapes alike to theirs. -/
structure Cache.Good (T : Table) (All Clear : Goal → Prop) (E : Goal → Shape → Shape → Prop)
    (b : Cache) : Prop where
  right : b.Right T
  union : ∀ e ∈ b.unions, ∃ ms, e.1.1 = .union ms
  all : ∀ e ∈ b.unions, All ⟨e.1.1, e.1.2, .outside⟩
  resolves : ∀ e ∈ b.unions, Clear ⟨e.1.1, e.1.2, .outside⟩ →
    ∃ n s, Resolves T n ⟨e.1.1, e.1.2, .outside⟩ s ∧ E ⟨e.1.1, e.1.2, .outside⟩ s e.2

/-- An empty memory is good. -/
theorem Cache.Good.empty (T : Table) (All Clear : Goal → Prop) (E : Goal → Shape → Shape → Prop) :
    Cache.Good T All Clear E Cache.empty where
  right := .empty T
  union e he := by simp [Cache.empty] at he
  all e he := by simp [Cache.empty] at he
  resolves e he := by simp [Cache.empty] at he

/-- Good memory stays good while nothing is remembered of unions. -/
theorem Cache.Good.congr {b b' : Cache} (h : Cache.Good T All Clear E b) (hr : b'.Right T)
    (hu : b'.unions = b.unions) : Cache.Good T All Clear E b' where
  right := hr
  union := by simpa only [hu] using h.union
  all := by simpa only [hu] using h.all
  resolves := by simpa only [hu] using h.resolves

/-- It stays good when the shape of a union of the scope is remembered. -/
theorem Cache.Good.remember {b : Cache} {ms : List Ty} {c : Context} {s : Shape}
    (h : Cache.Good T All Clear E b) (hall : All ⟨.union ms, c, .outside⟩)
    (hres : Clear ⟨.union ms, c, .outside⟩ →
      ∃ n s₀, Resolves T n ⟨.union ms, c, .outside⟩ s₀ ∧ E ⟨.union ms, c, .outside⟩ s₀ s) :
    Cache.Good T All Clear E { b with unions := ((.union ms, c), s) :: b.unions } where
  right := h.right.congr rfl rfl
  union := List.forall_mem_cons.mpr ⟨⟨ms, rfl⟩, h.union⟩
  all := List.forall_mem_cons.mpr ⟨hall, h.all⟩
  resolves := List.forall_mem_cons.mpr ⟨hres, h.resolves⟩

/-- What is found in memory is remembered for an equal union. -/
theorem exists_of_remembered {b : Cache} {t : Ty} {c : Context} {s : Shape}
    (h : rememberedUnion? b t c = some s) :
    ∃ e ∈ b.unions, (e.1.1 == t && e.1.2 == c) = true ∧ e.2 = s := by
  unfold rememberedUnion? at h
  obtain ⟨e, he, rfl⟩ := Option.map_eq_some_iff.mp h
  have hmatch := List.find?_some he
  exact ⟨e, List.mem_of_find?_eq_some he, hmatch, rfl⟩

/-- What is remembered for a clear union is alike to its shape. -/
theorem Cache.Good.resolves_of_remembered (hS : Scope T All Clear E) {b : Cache}
    (hb : Cache.Good T All Clear E b) {ms : List Ty} {c : Context} {s : Shape}
    (hg : All ⟨.union ms, c, .outside⟩) (hc : Clear ⟨.union ms, c, .outside⟩)
    (h : rememberedUnion? b (.union ms) c = some s) :
    ∃ n s₀, Resolves T n ⟨.union ms, c, .outside⟩ s₀ ∧ E ⟨.union ms, c, .outside⟩ s₀ s := by
  obtain ⟨e, he, hmatch, rfl⟩ := exists_of_remembered h
  obtain ⟨ms', hms'⟩ := hb.union e he
  have hall := hb.all e he
  have hres := hb.resolves e he
  rw [hms'] at hmatch hall hres
  have hconfused : Confused ms c ms' e.1.2 := Or.inl hmatch
  obtain ⟨hclear, hsame⟩ := hS.same hc hall hconfused
  obtain ⟨k, s₁, hk, hs₁⟩ := hres hclear
  obtain ⟨n, s₀, hn, hs₀⟩ := hsame s₁ ⟨k, hk⟩
  exact ⟨n, s₀, hn, hS.like.trans hs₀ (hS.like.congr hall hg hconfused.symm hs₁)⟩

/-- How the search for a union runs. -/
theorem searchUnion_apply (search : Ty → Search (Option Shape)) (t : Ty) (ms : List Ty)
    (c : Context) (b : Cache) :
    searchUnion T search t ms c b =
      match rememberedUnion? b t c with
      | some s => some (.ok (some s), b)
      | none =>
        match allGroupShapes T search (memberGroups ms) b with
        | some (.ok (some shapes), b') =>
          some (.ok (some (Shape.ofUnion t shapes)),
            { b' with unions := ((t, c), Shape.ofUnion t shapes) :: b'.unions })
        | some (.ok none, b') => some (.ok none, b')
        | some (.error e, b') => some (.error e, b')
        | none => none := by
  unfold searchUnion
  rw [get_bind_apply]
  cases rememberedUnion? b t c with
  | some s => rfl
  | none =>
    dsimp only
    rw [bind_apply]
    rcases allGroupShapes T search (memberGroups ms) b with _ | ⟨e | _ | shapes, b'⟩ <;> rfl

/-! ## What a search keeps -/

/-- From memory with a property the search comes to memory with it, and what it answers has another
property. -/
def Keeps {α : Type} (I : Cache → Prop) (m : Search α) (P : α → Prop) : Prop :=
  ∀ ⦃b r b'⦄, I b → m b = some (r, b') → I b' ∧ ∀ a, r = .ok a → P a

namespace Keeps

variable {α β : Type} {I : Cache → Prop}

/-- An answer keeps every property of the memory. -/
theorem pure {P : α → Prop} {a : α} (h : P a) : Keeps I (pure a) P := by
  intro b r b' hb hr
  obtain ⟨rfl, rfl⟩ : Except.ok a = r ∧ b = b' := by simpa [pure_apply] using hr
  refine ⟨hb, fun a' ha' => ?_⟩
  obtain rfl := Except.ok.inj ha'
  exact h

/-- A search and one that uses its answer keep what both keep. -/
theorem bind {m : Search α} {k : α → Search β} {P : α → Prop} {Q : β → Prop} (hm : Keeps I m P)
    (hk : ∀ a, P a → Keeps I (k a) Q) : Keeps I (m >>= k) Q := by
  intro b r b'' hb hr
  rw [bind_apply] at hr
  rcases hmb : m b with _ | ⟨e | a, b'⟩
  · simp [hmb] at hr
  · obtain ⟨hb', -⟩ := hm hb hmb
    obtain ⟨rfl, rfl⟩ : Except.error e = r ∧ b' = b'' := by simpa [hmb] using hr
    exact ⟨hb', by simp⟩
  · obtain ⟨hb', hP⟩ := hm hb hmb
    rw [hmb] at hr
    exact hk a (hP a rfl) hb' hr

/-- An answer with a property has every weaker one. -/
theorem mono {m : Search α} {P Q : α → Prop} (hm : Keeps I m P) (h : ∀ a, P a → Q a) :
    Keeps I m Q := by
  intro b r b' hb hr
  obtain ⟨hb', hP⟩ := hm hb hr
  exact ⟨hb', fun a ha => h a (hP a ha)⟩

/-- What is made of an answer has the property if the answer has it. -/
theorem map {m : Search α} {P : β → Prop} {h : α → β} (hm : Keeps I m fun a => P (h a)) :
    Keeps I (h <$> m) P := by
  rw [← Goal.bind_pure_map]
  exact hm.bind fun a ha => Keeps.pure ha

/-- A search that ends at once keeps everything. -/
theorem ret {P : α → Prop} {r : Except ShapeError α} (h : ∀ a, r = .ok a → P a) :
    Keeps I (Goal.ret r) P := by
  intro b r' b' hb hr
  obtain ⟨rfl, rfl⟩ := Prod.mk.inj (Option.some.inj hr)
  exact ⟨hb, h⟩

/-- The shapes of a list are found one by one. -/
theorem shapesOf {search : Ty → Search (Option Shape)} {Q : Ty → Shape → Prop} {ts : List Ty}
    (h : ∀ t ∈ ts, Keeps I (search t) fun o => ∀ s, o = some s → Q t s) :
    Keeps I (shapesOf search ts) fun o =>
      ∀ shapes, o = some shapes → List.Forall₂ Q ts shapes := by
  induction ts with
  | nil => exact Keeps.pure (by simp)
  | cons t ts ih =>
    refine Keeps.bind (h t List.mem_cons_self) fun first hfirst => ?_
    cases first with
    | none => exact Keeps.pure (by simp)
    | some s =>
      refine Keeps.bind (ih fun u hu => h u (List.mem_cons_of_mem t hu)) fun rest hrest => ?_
      cases rest with
      | none => exact Keeps.pure (by simp)
      | some shapes =>
        refine Keeps.pure fun shapes' heq => ?_
        obtain rfl := Option.some.inj heq
        exact .cons (hfirst s rfl) (hrest shapes rfl)

end Keeps

/-- The shapes of groups of members: one for the literals of a class, and one for each other
member. -/
inductive GroupShapes (K : TypeName → List Ty → Shape → Prop) (Q : Ty → Shape → Prop) :
    List (Option TypeName × List Ty) → List Shape → Prop where
  | nil : GroupShapes K Q [] []
  | literals {name : TypeName} {ts : List Ty} {s : Shape}
      {gs : List (Option TypeName × List Ty)} {shapes : List Shape} (hs : K name ts s)
      (hrest : GroupShapes K Q gs shapes) : GroupShapes K Q ((some name, ts) :: gs) (s :: shapes)
  | members {ts : List Ty} {ss : List Shape} {gs : List (Option TypeName × List Ty)}
      {shapes : List Shape} (hs : List.Forall₂ Q ts ss) (hrest : GroupShapes K Q gs shapes) :
      GroupShapes K Q ((none, ts) :: gs) (ss ++ shapes)

/-- Members' shapes with a property have every weaker one. -/
theorem GroupShapes.imp {K : TypeName → List Ty → Shape → Prop} {Q Q' : Ty → Shape → Prop}
    {groups : List (Option TypeName × List Ty)} {shapes : List Shape}
    (h : GroupShapes K Q groups shapes) (hQ : ∀ t s, Q t s → Q' t s) :
    GroupShapes K Q' groups shapes := by
  induction h with
  | nil => exact .nil
  | literals hs _ ih => exact .literals hs ih
  | members hs _ ih => exact .members (hs.imp hQ) ih

/-- What relates types to shapes with a property gives the shapes this property. -/
theorem forall_of_forall₂ {Q : Ty → Shape → Prop} {P : Shape → Prop} {ts : List Ty}
    {ss : List Shape} (h : List.Forall₂ Q ts ss) (hQ : ∀ t s, Q t s → P s) : ∀ s ∈ ss, P s := by
  induction h with
  | nil => simp
  | cons hs _ ih => exact List.forall_mem_cons.mpr ⟨hQ _ _ hs, ih⟩

/-- All shapes of the groups have what the groups' shapes have. -/
theorem GroupShapes.forall_shapes {K : TypeName → List Ty → Shape → Prop} {Q : Ty → Shape → Prop}
    {groups : List (Option TypeName × List Ty)} {shapes : List Shape} {P : Shape → Prop}
    (h : GroupShapes K Q groups shapes) (hK : ∀ name ts s, K name ts s → P s)
    (hQ : ∀ t s, Q t s → P s) : ∀ s ∈ shapes, P s := by
  induction h with
  | nil => simp
  | literals hs _ ih => exact List.forall_mem_cons.mpr ⟨hK _ _ _ hs, ih⟩
  | members hs _ ih =>
    exact List.forall_mem_append.mpr ⟨forall_of_forall₂ hs hQ, ih⟩

/-- The shapes of groups are found one by one. -/
theorem Keeps.allGroupShapes {I : Cache → Prop} {search : Ty → Search (Option Shape)}
    {K : TypeName → List Ty → Shape → Prop} {Q : Ty → Shape → Prop}
    {groups : List (Option TypeName × List Ty)}
    (hclass : ∀ name ts, (some name, ts) ∈ groups → Keeps I
      (classShape T name (some (Ty.unionOf ts)) (some (Ty.unionOf ts))) (K name ts))
    (h : ∀ g ∈ groups, g.1 = none → ∀ t ∈ g.2,
      Keeps I (search t) fun o => ∀ s, o = some s → Q t s) :
    Keeps I (allGroupShapes T search groups) fun o =>
      ∀ shapes, o = some shapes → GroupShapes K Q groups shapes := by
  induction groups with
  | nil =>
    refine Keeps.pure fun shapes heq => ?_
    obtain rfl := Option.some.inj heq
    exact .nil
  | cons g gs ih =>
    obtain ⟨name, ts⟩ := g
    have hgroup : Keeps I (groupShapes T search (name, ts)) fun o => ∀ ss, o = some ss →
        ∀ shapes, GroupShapes K Q gs shapes →
          GroupShapes K Q ((name, ts) :: gs) (ss ++ shapes) := by
      cases name with
      | none =>
        refine (Keeps.shapesOf (h _ List.mem_cons_self rfl)).mono fun o ho ss heq shapes hrest => ?_
        exact .members (ho ss heq) hrest
      | some name =>
        refine Keeps.bind (hclass name ts List.mem_cons_self) fun s hs =>
          Keeps.pure fun ss heq shapes hrest => ?_
        obtain rfl := Option.some.inj heq
        exact .literals hs hrest
    refine Keeps.bind hgroup fun first hfirst => ?_
    cases first with
    | none => exact Keeps.pure (by simp)
    | some ss =>
      refine Keeps.bind (ih (fun name' ts' hg' => hclass name' ts' (List.mem_cons_of_mem _ hg'))
        fun g' hg' => h g' (List.mem_cons_of_mem _ hg')) fun rest hrest => ?_
      cases rest with
      | none => exact Keeps.pure (by simp)
      | some shapes =>
        refine Keeps.pure fun all heq => ?_
        obtain rfl := Option.some.inj heq
        exact hfirst ss rfl shapes (hrest shapes rfl)

/-- A property of right memories that depends on what is remembered of unions and on the notes. -/
structure Lasting (T : Table) (I : Cache → Prop) : Prop where
  right : ∀ {b}, I b → b.Right T
  congr : ∀ {b b'}, I b → b'.Right T → b'.unions = b.unions → b'.pending = b.pending → I b'

/-- Searches that only ask for declarations keep such a property. -/
theorem Lasting.keeps {α : Type} {I : Cache → Prop} (hI : Lasting T I) {m : Search α}
    (h : Settled T m) : Keeps I m fun a => Returns T m (.ok a) := by
  obtain ⟨r, h⟩ := h
  intro b r' b' hb hr'
  obtain ⟨b₁, h₁, hr₁, hu₁, hp₁⟩ := h b (hI.right hb)
  obtain ⟨rfl, rfl⟩ := Prod.mk.inj (Option.some.inj (hr'.symm.trans h₁))
  refine ⟨hI.congr hb hr₁ hu₁ hp₁, ?_⟩
  rintro a rfl
  exact h

/-- A union is remembered, or made from the shapes of its members and remembered then. -/
theorem Keeps.searchUnion {I : Cache → Prop} {P : Option Shape → Prop} {R : List Shape → Prop}
    {search : Ty → Search (Option Shape)} {t : Ty} {ms : List Ty} {c : Context} (hnone : P none)
    (hhit : ∀ b s, I b → rememberedUnion? b t c = some s → P (some s))
    (hmiss : Keeps I (Search.allGroupShapes T search (memberGroups ms)) fun o =>
      ∀ shapes, o = some shapes → R shapes)
    (hstore : ∀ b shapes, I b → R shapes →
      I { b with unions := ((t, c), Shape.ofUnion t shapes) :: b.unions } ∧
        P (some (Shape.ofUnion t shapes))) :
    Keeps I (Search.searchUnion T search t ms c) P := by
  intro b r b' hb hr
  rw [searchUnion_apply] at hr
  cases hrem : rememberedUnion? b t c with
  | some s =>
    rw [hrem] at hr
    obtain ⟨rfl, rfl⟩ := Prod.mk.inj (Option.some.inj hr)
    exact ⟨hb, fun a ha => Except.ok.inj ha ▸ hhit b s hb hrem⟩
  | none =>
    rw [hrem] at hr
    dsimp only at hr
    rcases hrun : Search.allGroupShapes T search (memberGroups ms) b with
      _ | ⟨e | _ | shapes, b₁⟩ <;> rw [hrun] at hr
    · cases hr
    · obtain ⟨rfl, rfl⟩ := Prod.mk.inj (Option.some.inj hr)
      exact ⟨(hmiss hb hrun).1, by simp⟩
    · obtain ⟨rfl, rfl⟩ := Prod.mk.inj (Option.some.inj hr)
      exact ⟨(hmiss hb hrun).1, fun a ha => Except.ok.inj ha ▸ hnone⟩
    · obtain ⟨rfl, rfl⟩ := Prod.mk.inj (Option.some.inj hr)
      obtain ⟨hb₁, hR⟩ := hmiss hb hrun
      obtain ⟨hI, hP⟩ := hstore b₁ shapes hb₁ (hR _ rfl shapes rfl)
      exact ⟨hI, fun a ha => Except.ok.inj ha ▸ hP⟩

/-- The memory is good and the notes are the given ones. -/
def GoodAt (T : Table) (All Clear : Goal → Prop) (E : Goal → Shape → Shape → Prop) (p : List Ty)
    (b : Cache) : Prop :=
  Cache.Good T All Clear E b ∧ b.pending = p

/-- Good memory with given notes stays so while neither unions nor notes change. -/
theorem GoodAt.congr {p : List Ty} {b b' : Cache} (h : GoodAt T All Clear E p b) (hr : b'.Right T)
    (hu : b'.unions = b.unions) (hp : b'.pending = b.pending) : GoodAt T All Clear E p b' :=
  ⟨h.1.congr hr hu, hp.trans h.2⟩

/-- A note is added to the notes. -/
theorem GoodAt.note {p : List Ty} {b : Cache} (h : GoodAt T All Clear E p b) (t : Ty) :
    GoodAt T All Clear E (t :: p) (note b t) :=
  ⟨h.1.congr (h.1.right.congr rfl rfl) rfl, congrArg (t :: ·) h.2⟩

/-- A note is taken back. -/
theorem GoodAt.unnote {p : List Ty} {b : Cache} {t : Ty} (h : GoodAt T All Clear E (t :: p) b) :
    GoodAt T All Clear E p (unnote b) :=
  ⟨h.1.congr (h.1.right.congr rfl rfl) rfl, congrArg List.tail h.2⟩

/-- Good memory is a lasting property. -/
theorem Lasting.goodAt (p : List Ty) : Lasting T (GoodAt T All Clear E p) where
  right hb := hb.1.right
  congr hb := hb.congr

/-- Where the types determine the shapes, lists related type by type are related shape by shape. -/
theorem forall₂_map_known {σ : Ty → Shape} {P : Ty → Prop} {S : Shape → Shape → Prop} {ts : List Ty}
    {ss : List Shape} (h : List.Forall₂ (fun t s => P t ∧ S (σ t) s) ts ss) :
    List.Forall₂ S (ts.map σ) ss ∧ ∀ t ∈ ts, P t := by
  induction h with
  | nil => exact ⟨.nil, by simp⟩
  | cons hs _ ih => exact ⟨.cons hs.2 ih.1, List.forall_mem_cons.mpr ⟨hs.1, ih.2⟩⟩

/-- Groups of members have shapes related to those that their members are known to have. -/
theorem GroupShapes.returns_known {σ : Ty → Shape} {P : Ty → Prop} {S : Shape → Shape → Prop}
    {groups : List (Option TypeName × List Ty)} {shapes : List Shape}
    (h : GroupShapes (fun name ts s => Returns T
      (classShape T name (some (Ty.unionOf ts)) (some (Ty.unionOf ts))) (.ok s) ∧ S s s)
      (fun t s => P t ∧ S (σ t) s) groups shapes) :
    ∃ shapes₀, Returns T (allGroupShapes T (known σ) groups) (.ok (some shapes₀)) ∧
      List.Forall₂ S shapes₀ shapes ∧ ∀ g ∈ groups, g.1 = none → ∀ t ∈ g.2, P t := by
  induction h with
  | nil => exact ⟨[], .pure _, .nil, by simp⟩
  | @literals name ts s gs shapes hs _ ih =>
    obtain ⟨shapes₀, hr, hrel, hP⟩ := ih
    have hgroup : Returns T (groupShapes T (known σ) (some name, ts)) (.ok (some [s])) :=
      hs.1.bind (.pure _)
    exact ⟨s :: shapes₀, hgroup.bind (hr.bind (.pure _)), .cons hs.2 hrel,
      List.forall_mem_cons.mpr ⟨by simp, hP⟩⟩
  | @members ts ss gs shapes hs _ ih =>
    obtain ⟨shapes₀, hr, hrel, hP⟩ := ih
    obtain ⟨hss, hts⟩ := forall₂_map_known hs
    have hgroup : Returns T (groupShapes T (known σ) (none, ts)) (.ok (some (ts.map σ))) :=
      returns_shapesOf_known σ ts
    exact ⟨ts.map σ ++ shapes₀, hgroup.bind (hr.bind (.pure _)), List.rel_append hss hrel,
      List.forall_mem_cons.mpr ⟨fun _ => hts, hP⟩⟩

/-- Looking through a type takes the note away again. -/
theorem Keeps.lookingThrough {α : Type} {m : Search α} {P : α → Prop} {p : List Ty} {t : Ty}
    (h : Keeps (GoodAt T All Clear E (t :: p)) m P) :
    Keeps (GoodAt T All Clear E p) (lookingThrough t m) P := by
  intro b r b' hb hr
  rcases lookingThrough_eq_some.mp hr with ⟨-, rfl, rfl⟩ | ⟨-, b₁, hm, rfl⟩
  · exact ⟨hb, by simp⟩
  · obtain ⟨hb₁, hP⟩ := h (hb.note t) hm
    exact ⟨hb₁.unnote, hP⟩

/-- A search keeps good memory under notes if it does under all notes. -/
theorem Keeps.noted {α : Type} {m : Search α} {P : α → Prop} {g : Goal}
    (h : ∀ p, Keeps (GoodAt T All Clear E p) m P) (p : List Ty) :
    Keeps (GoodAt T All Clear E p) (g.noted m) P := by
  unfold Goal.noted
  split
  · exact h p
  · exact (h _).lookingThrough

/-! ## Soundness -/

/-- What the search found, if the goal is clear, is alike to the shape of the goal. -/
def Found (T : Table) (Clear : Goal → Prop) (E : Goal → Shape → Shape → Prop) (g : Goal)
    (o : Option Shape) : Prop :=
  Clear g → ∀ s, o = some s → ∃ n s₀, Resolves T n g s₀ ∧ E g s₀ s

/-- Shapes can be given to types so that what a search finds for clear goals is given. -/
theorem exists_shapes (T : Table) (c : Context) :
    ∃ σ : Ty → Shape, ∀ t n s, Resolves T n ⟨t, c, .outside⟩ s → s = σ t := by
  classical
  refine ⟨fun t => if h : ∃ s n, Resolves T n ⟨t, c, .outside⟩ s then h.choose else ⟨.bot, []⟩, ?_⟩
  intro t n s hs
  have hex : ∃ s n, Resolves T n ⟨t, c, .outside⟩ s := ⟨s, n, hs⟩
  simp only [dif_pos hex]
  obtain ⟨k, hk⟩ := hex.choose_spec
  exact hs.unique hk

/-- Members that all have shapes have them through a common number of goals. -/
theorem exists_depth {c : Context} {σ : Ty → Shape} {ms : List Ty}
    (h : ∀ m ∈ ms, ∃ n, Resolves T n ⟨m, c, .outside⟩ (σ m)) :
    ∃ n, ∀ m ∈ ms, Resolves T n ⟨m, c, .outside⟩ (σ m) :=
  Deepening.exists_common_depth (fun hnk hn => hn.mono hnk) h

/-- One depth is enough for all members. -/
theorem exists_member_depth {c : Context} {σ : Ty → Shape} {ms : List Ty}
    (h : ∀ m ∈ ms, literalClass? m = none → ∃ n, Resolves T n ⟨m, c, .outside⟩ (σ m)) :
    ∃ n, ∀ m ∈ ms, literalClass? m = none → Resolves T n ⟨m, c, .outside⟩ (σ m) := by
  have hothers : ∀ m ∈ ms.filter fun m => literalClass? m = none,
      ∃ n, Resolves T n ⟨m, c, .outside⟩ (σ m) := by
    intro m hm
    obtain ⟨hmem, hl⟩ := List.mem_filter.mp hm
    exact h m hmem (of_decide_eq_true hl)
  obtain ⟨n, hn⟩ := exists_depth hothers
  exact ⟨n, fun m hm hl => hn m (List.mem_filter.mpr ⟨hm, decide_eq_true hl⟩)⟩

/-- The view of a union does not matter for its shape. -/
theorem Resolves.union_view {n : Nat} {ms : List Ty} {c : Context} {v : View} {s : Shape}
    (h : Resolves T n ⟨.union ms, c, v⟩ s) (v' : View) : Resolves T n ⟨.union ms, c, v'⟩ s := by
  cases h with
  | direct hd => simp [Ty.isDirect] at hd
  | forward hf => cases hf
  | union σ hm hs => exact .union σ hm hs

section Step

variable (hS : Scope T All Clear E) {search : Goal → Search (Option Shape)} {p : List Ty}

include hS

/-- The search for a member keeps good memory and finds a shape alike to the member's. -/
theorem keeps_member {g : Goal} {m : Ty} {c : Context} {σ : Ty → Shape}
    (hσ : ∀ t n s, Resolves T n ⟨t, c, .outside⟩ s → s = σ t)
    (h : Keeps (GoodAt T All Clear E p) (search ⟨m, c, .outside⟩)
      (Found T Clear E ⟨m, c, .outside⟩))
    (hl : Leads T g ⟨m, c, .outside⟩) :
    Keeps (GoodAt T All Clear E p) (search ⟨m, c, .outside⟩) fun o => ∀ s, o = some s → Clear g →
      (∃ n, Resolves T n ⟨m, c, .outside⟩ (σ m)) ∧ E ⟨m, c, .outside⟩ (σ m) s := by
  refine h.mono fun o ho s hs hc => ?_
  obtain ⟨n, s₀, hn, hs₀⟩ := ho (hS.clear_leads hc hl) s hs
  obtain rfl := hσ m n s₀ hn
  exact ⟨⟨n, hn⟩, hs₀⟩

/-- So does the search for a union, which remembers what it finds. -/
theorem keeps_searchUnion {ms : List Ty} {c : Context} {v : View} (hg : All ⟨.union ms, c, v⟩)
    (h : ∀ g', Leads T ⟨.union ms, c, v⟩ g' →
      Keeps (GoodAt T All Clear E p) (search g') (Found T Clear E g')) :
    Keeps (GoodAt T All Clear E p)
      (searchUnion T (fun m => search ⟨m, c, .outside⟩) (.union ms) ms c)
      (Found T Clear E ⟨.union ms, c, v⟩) := by
  obtain ⟨σ, hσ⟩ := exists_shapes T c
  have hall := hS.view hg .outside
  let K (name : TypeName) (ts : List Ty) (s : Shape) : Prop :=
    Returns T (classShape T name (some (Ty.unionOf ts)) (some (Ty.unionOf ts))) (.ok s) ∧
      MemberShapes T E ms c s s
  let Q (m : Ty) (s : Shape) : Prop := Clear ⟨.union ms, c, v⟩ →
    (∃ n, Resolves T n ⟨m, c, .outside⟩ (σ m)) ∧ MemberShapes T E ms c (σ m) s
  refine Keeps.searchUnion (by simp [Found]) ?_
    (Keeps.allGroupShapes (K := K) (Q := Q) (fun name ts hg' => ?_) fun g hg' hn m hm => ?_) ?_
  · intro b s hb hrem hc s' heq
    obtain rfl := Option.some.inj heq
    obtain ⟨n, s₀, hn, hs₀⟩ := hb.1.resolves_of_remembered hS hall (hS.clear_view hc) hrem
    exact ⟨n, s₀, hn.union_view v, hS.like.congr hall hg (.refl ms c) hs₀⟩
  · exact ((Lasting.goodAt p).keeps (settled_classShape name _ _)).mono fun s hs =>
      ⟨hs, .literals hg' hs⟩
  · obtain ⟨hmem, hl⟩ := mem_of_mem_memberGroups hg' hn hm
    have hlead : Leads T ⟨.union ms, c, v⟩ ⟨m, c, .outside⟩ := .union hmem hl
    refine (keeps_member hS hσ (h _ hlead) hlead).mono fun o ho s hs hc => ?_
    obtain ⟨hres, hlike⟩ := ho s hs hc
    exact ⟨hres, .member hmem hl hlike⟩
  · intro b shapes hb hshapes
    -- A clear union is made from shapes alike to those of its members, which are clear too.
    have hres : Clear ⟨.union ms, c, v⟩ → ∃ n s₀, Resolves T n ⟨.union ms, c, v⟩ s₀ ∧
        E ⟨.union ms, c, v⟩ s₀ (Shape.ofUnion (.union ms) shapes) := by
      intro hc
      obtain ⟨shapes₀, hret, hlike, hms⟩ := (hshapes.imp fun m s h => h hc).returns_known
      obtain ⟨n, hn⟩ := exists_member_depth (σ := σ) fun m hm hl => by
        obtain ⟨g, hg', hgl, hgm⟩ := (grouped_memberGroups ms).group m hm
        exact hms g hg' (hgl.trans hl) m hgm
      exact ⟨n + 1, _, .union σ hn hret, hS.like.union hg hlike⟩
    refine ⟨⟨hb.1.remember hall fun hc => ?_, hb.2⟩, ?_⟩
    · obtain ⟨n, s₀, hn, hs₀⟩ := hres (hS.clear_view hc)
      exact ⟨n, s₀, hn.union_view .outside, hS.like.congr hg hall (.refl ms c) hs₀⟩
    · intro hc s heq
      obtain rfl := Option.some.inj heq
      exact hres hc

/-- So does the search for an intersection. -/
theorem keeps_searchInter {ms : List Ty} {c : Context} {v : View} (hg : All ⟨.inter ms, c, v⟩)
    (h : ∀ g', Leads T ⟨.inter ms, c, v⟩ g' →
      Keeps (GoodAt T All Clear E p) (search g') (Found T Clear E g')) :
    Keeps (GoodAt T All Clear E p) (searchInter (fun m => search ⟨m, c, .outside⟩) (.inter ms) ms)
      (Found T Clear E ⟨.inter ms, c, v⟩) := by
  obtain ⟨σ, hσ⟩ := exists_shapes T c
  let Q (m : Ty) (s : Shape) : Prop := Clear ⟨.inter ms, c, v⟩ →
    (∃ n, Resolves T n ⟨m, c, .outside⟩ (σ m)) ∧ ∃ m' ∈ ms, E ⟨m', c, .outside⟩ (σ m) s
  have hmember : ∀ m ∈ ms, Keeps (GoodAt T All Clear E p) (search ⟨m, c, .outside⟩) fun o =>
      ∀ s, o = some s → Q m s := by
    intro m hm
    have hlead : Leads T ⟨.inter ms, c, v⟩ ⟨m, c, .outside⟩ := .inter hm
    refine (keeps_member hS hσ (h _ hlead) hlead).mono fun o ho s hs hc => ?_
    obtain ⟨hres, hlike⟩ := ho s hs hc
    exact ⟨hres, m, hm, hlike⟩
  refine Keeps.bind (Keeps.shapesOf hmember) fun shapes hshapes => ?_
  cases shapes with
  | none => exact Keeps.pure (by simp [Found])
  | some shapes =>
    refine Keeps.pure fun hc s hs => ?_
    obtain rfl := Option.some.inj hs
    obtain ⟨hlike, hms⟩ := forall₂_map_known (S := fun s s' => ∃ m' ∈ ms, E ⟨m', c, .outside⟩ s s')
      ((hshapes shapes rfl).imp fun m s h => h hc)
    obtain ⟨n, hn⟩ := exists_depth hms
    exact ⟨n + 1, _, .inter σ hn, hS.like.inter hg hlike⟩

/-- One step keeps the memory good and finds what is alike to the shape of a clear goal, if further
searches do. -/
theorem keeps_step {g : Goal} (hg : All g)
    (h : ∀ p g', Leads T g g' → Keeps (GoodAt T All Clear E p) (search g') (Found T Clear E g')) :
    Keeps (GoodAt T All Clear E p) (g.step T search) (Found T Clear E g) := by
  cases g.form T with
  | direct hd =>
    refine ((Lasting.goodAt p).keeps (settled_direct hd search)).mono fun o ho _ s hs => ?_
    have hreturns : ∀ search', Returns T (g.step T search') (.ok (some s)) := by
      intro search'
      rw [← hs, ← Goal.step_direct search hd search' g.context]
      exact ho
    exact ⟨1, s, .direct hd hreturns, hS.like.direct hg hd hreturns⟩
  | stops r hnone _ hr =>
    rw [hr g.context (.refl g)]
    exact Keeps.ret fun o ho _ s hs => absurd (hs ▸ ho) (hnone s)
  | stopsNoted r hnone _ hr =>
    rw [hr g.context (.refl g)]
    exact Keeps.lookingThrough (Keeps.ret fun o ho _ s hs => absurd (hs ▸ ho) (hnone s))
  | forwards g' f hf =>
    rw [Goal.step_forwards search hf]
    refine Keeps.noted (fun p => Keeps.map ((h p g' (.forward hf)).mono ?_)) p
    intro o ho hc s hs
    obtain ⟨s', rfl, rfl⟩ := Option.map_eq_some_iff.mp hs
    obtain ⟨n, s₀, hn, hs₀⟩ := ho (hS.clear_leads hc (.forward hf)) s' rfl
    exact ⟨n + 1, f s₀, .forward hf hn, hS.like.forward hg hf hs₀⟩
  | union ms hu =>
    obtain ⟨t, c, v⟩ := g
    obtain rfl : t = .union ms := hu
    exact keeps_searchUnion hS hg (h p)
  | inter ms hi =>
    obtain ⟨t, c, v⟩ := g
    obtain rfl : t = .inter ms := hi
    exact keeps_searchInter hS hg (h p)

/-- A search keeps the memory good, and what it finds for a clear goal is alike to its shape. -/
theorem sound (n : Nat) {g : Goal} (hg : All g) (p : List Ty) :
    Keeps (GoodAt T All Clear E p) (withinGoal T n g) (Found T Clear E g) := by
  induction n generalizing g p with
  | zero =>
    intro b r b' _ h
    simp [withinGoal_zero] at h
  | succ n ih =>
    rw [withinGoal_succ]
    exact keeps_step hS hg fun p g' hl => ih (hS.leads hg hl) p

end Step

end Search
end TypeShape
