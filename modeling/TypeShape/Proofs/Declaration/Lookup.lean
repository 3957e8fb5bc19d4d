import TypeShape.Declaration.Methods
import TypeShape.Proofs.Declaration.History
import TypeShape.Proofs.Declaration.Reachability

/-!
# Looking up methods

The methods of a declaration are entered from its last ancestor to its first, and of each ancestor
from its first member to its last, and what is entered replaces what was there.  So a method is the
last member of its name in the nearest ancestor that has one, where only members of the accepted
kinds count.

Main results:

- Theorem `Table.get?_enterChain`: what is entered from a chain of ancestors is what a search along
  the chain finds first.
- Theorem `Table.listed_lineage`: the ancestors of a name are declared, and none comes twice.
- Theorem `Table.methods_follow_lineage`: the methods of instances and of interfaces, in every table
  that can be built.
-/

namespace TypeShape

/-- The member has a name and an accepted kind. -/
def Member.Answers (accept : MemberKind → Bool) (method : String) (m : Member) : Prop :=
  m.name = method ∧ accept m.kind = true

namespace ModuleDecl

variable {accept : MemberKind → Bool} {method : String} {d : ModuleDecl} {m : Member}

/-- The last member of a name and an accepted kind. -/
def lastMember? (accept : MemberKind → Bool) (method : String) (d : ModuleDecl) : Option Member :=
  d.members.reverse.find? fun m => m.name == method && accept m.kind

theorem lastMember?_eq_none_iff :
    d.lastMember? accept method = none ↔ ∀ k ∈ d.members, ¬ k.Answers accept method := by
  simp [lastMember?, Member.Answers]

theorem lastMember?_eq_some_iff :
    d.lastMember? accept method = some m ↔
      m.Answers accept method ∧ ∃ earlier later, d.members = earlier ++ m :: later ∧
        ∀ k ∈ later, ¬ k.Answers accept method := by
  have hanswers : ∀ k : Member,
      (k.name == method && accept k.kind) = true ↔ k.Answers accept method := by
    simp [Member.Answers]
  have hsilent : ∀ k : Member,
      (!(k.name == method && accept k.kind)) = true ↔ ¬ k.Answers accept method := fun k => by
    rw [← hanswers, Bool.not_eq_true', Bool.not_eq_true]
  simp only [lastMember?, List.find?_eq_some_iff_append, hanswers, hsilent]
  refine and_congr_right fun _ => ⟨?_, ?_⟩
  · rintro ⟨later, earlier, hsplit, hlater⟩
    refine ⟨earlier.reverse, later.reverse, ?_, fun k hk => hlater k (List.mem_reverse.mp hk)⟩
    simpa using congrArg List.reverse hsplit
  · rintro ⟨earlier, later, hsplit, hlater⟩
    refine ⟨later.reverse, earlier.reverse, ?_, fun k hk => hlater k (List.mem_reverse.mp hk)⟩
    simp [hsplit]

end ModuleDecl

namespace Table

open ModuleDecl (lastMember? lastMember?_eq_none_iff lastMember?_eq_some_iff)

variable {T : Table} {accept : MemberKind → Bool} {privateKind : Option MemberKind}
  {method : String} {chain : List Ancestor} {a : Ancestor} {m : Member}

/-! ## Searching a chain of ancestors -/

/-- Where a search along a chain of ancestors ends: at the nearest ancestor with a member that
answers, and there at the last such member. -/
structure FoundAt (accept : MemberKind → Bool) (method : String) (chain : List Ancestor)
    (a : Ancestor) (m : Member) : Prop where
  answers : m.Answers accept method
  nearest : ∃ nearer farther, chain = nearer ++ a :: farther ∧
    ∀ b ∈ nearer, ∀ k ∈ b.decl.members, ¬ k.Answers accept method
  latest : ∃ earlier later, a.decl.members = earlier ++ m :: later ∧
    ∀ k ∈ later, ¬ k.Answers accept method

theorem foundAt_iff :
    FoundAt accept method chain a m ↔
      a.decl.lastMember? accept method = some m ∧ ∃ nearer farther, chain = nearer ++ a :: farther ∧
        ∀ b ∈ nearer, b.decl.lastMember? accept method = none := by
  simp only [lastMember?_eq_none_iff, lastMember?_eq_some_iff]
  exact ⟨fun h => ⟨⟨h.answers, h.latest⟩, h.nearest⟩, fun h => ⟨h.1.1, h.2, h.1.2⟩⟩

theorem FoundAt.mem (h : FoundAt accept method chain a m) : a ∈ chain := by
  obtain ⟨nearer, farther, rfl, -⟩ := h.nearest
  simp

/-- A search along a chain, for what an ancestor makes of its last member that answers. -/
theorem findSome?_eq_some_iff {make : Ancestor → Member → DeclaredMethod} {entry : DeclaredMethod} :
    (chain.findSome? fun a => (a.decl.lastMember? accept method).map (make a)) = some entry ↔
      ∃ a m, FoundAt accept method chain a m ∧ entry = make a m := by
  simp only [List.findSome?_eq_some_iff, foundAt_iff, Option.map_eq_some_iff,
    Option.map_eq_none_iff]
  constructor
  · rintro ⟨nearer, a, farther, hchain, ⟨m, hm, rfl⟩, hnearer⟩
    exact ⟨a, m, ⟨hm, nearer, farther, hchain, hnearer⟩, rfl⟩
  · rintro ⟨a, m, ⟨hm, nearer, farther, hchain, hnearer⟩, rfl⟩
    exact ⟨nearer, a, farther, hchain, ⟨m, hm, rfl⟩, hnearer⟩

/-! ## Entering members -/

/-- A member as an owner enters it. -/
def entered (privateKind : Option MemberKind) (owner : ModuleDecl) (s : Subst) (m : Member) :
    DeclaredMethod :=
  ⟨if some m.kind = privateKind then .priv else m.visibility, memberDefs owner s m⟩

/-- All that a chain of ancestors enters, the nearest last. -/
def enterChain (accept : MemberKind → Bool) (privateKind : Option MemberKind)
    (chain : List Ancestor) : MethodTable :=
  chain.reverse.foldl (fun methods a => enterMembers methods a.decl a.subst accept privateKind) []

theorem get?_enterMembers (methods : MethodTable) (owner : ModuleDecl) (s : Subst) :
    Keyed.get? method (enterMembers methods owner s accept privateKind) =
      ((owner.lastMember? accept method).map (entered privateKind owner s)).or
        (Keyed.get? method methods) := by
  have hfind : ((owner.members.filter fun m => accept m.kind).reverse.find? fun m =>
      m.name = method) = owner.lastMember? accept method := by
    rw [lastMember?, ← List.filter_reverse, List.find?_filter]
    refine congrArg (List.find? · owner.members.reverse) (funext fun m => ?_)
    simp [Bool.and_comm, Bool.beq_eq_decide_eq]
  rw [← hfind]
  exact Keyed.get?_foldl_insert Member.name (entered privateKind owner s) _ methods

theorem get?_enterChain (method : String) (chain : List Ancestor) :
    Keyed.get? method (enterChain accept privateKind chain) =
      chain.findSome? fun a =>
        (a.decl.lastMember? accept method).map (entered privateKind a.decl a.subst) := by
  induction chain with
  | nil => rfl
  | cons a chain ih =>
    have hcons : enterChain accept privateKind (a :: chain) =
        enterMembers (enterChain accept privateKind chain) a.decl a.subst accept privateKind := by
      simp [enterChain]
    rw [hcons, get?_enterMembers, ih, List.findSome?_cons]
    cases a.decl.lastMember? accept method <;> rfl

theorem exists_get?_enterChain_iff :
    (∃ entry, Keyed.get? method (enterChain accept privateKind chain) = some entry) ↔
      ∃ a ∈ chain, ∃ m ∈ a.decl.members, m.Answers accept method := by
  rw [← Option.ne_none_iff_exists', Ne, get?_enterChain, List.findSome?_eq_none_iff]
  simp only [Option.map_eq_none_iff, lastMember?_eq_none_iff, not_forall, not_not, exists_prop]

/-! ## Ancestors of a name -/

/-- Visits keep to declared names, and visit none of them twice. -/
theorem listed_visit {depth : Nat} {name : TypeName} {s : Subst} {chain' : List Ancestor}
    (hchain : T.Listed chain) (h : T.visit depth name s chain = .ok chain') : T.Listed chain' := by
  induction depth generalizing name s chain chain' with
  | zero => exact Except.ok.inj h ▸ hchain
  | succ depth ih =>
    unfold visit at h
    split at h
    · exact Except.ok.inj h ▸ hchain
    · rename_i hnew
      obtain ⟨decl, hfetch, h⟩ := exists_of_bind_ok h
      rw [← mem_visitedNames_iff] at hnew
      refine foldlM_invariant (fun t _ b b' hb hstep => ?_)
        (hchain.push (a := ⟨name, decl, s⟩) hnew (fetch_eq_ok.mp hfetch)) h
      rcases visitParent_cases (T := T) (T.visit depth) b (s.apply t) with
        ⟨-, hok⟩ | ⟨parent, args, -, hvisit⟩
      · exact Except.ok.inj (hok.symm.trans hstep) ▸ hb
      · rw [hvisit] at hstep
        obtain ⟨decl', -, hnext⟩ := exists_of_bind_ok hstep
        exact ih hb hnext

theorem listed_lineage {name : TypeName} (h : T.lineage name = .ok chain) : T.Listed chain := by
  have hnone : T.Listed [] := ⟨List.nodup_nil, by simp⟩
  exact listed_visit hnone h

/-- Declarations stand under their own names. -/
def OwnNames (T : Table) : Prop :=
  ∀ name decl, T.module? name = some decl → decl.name = name

theorem ownNames_attempt (h : T.OwnNames) (d : Decl) : (T.attempt d).1.OwnNames := by
  refine attempt_induction h fun T' hT' name decl hdecl => ?_
  obtain ⟨stored, -, rfl, hgrows, hfresh⟩ | ⟨decl, -, rfl⟩ := declare_cases hT'
  · rw [module?, Keyed.get?_insert] at hdecl
    split at hdecl
    · rename_i hname
      obtain rfl := Option.some.inj hdecl
      cases hold : T.module? d.name with
      | none =>
        obtain rfl := hfresh hold
        exact hname
      | some existing => rw [(hgrows existing hold).name, h _ _ hold, hname]
    · exact h name decl hdecl
  · exact h name _ hdecl

theorem ownNames_after (ops : List Operation) : (Table.empty.after ops).OwnNames := by
  have hempty : Table.empty.OwnNames := fun _ _ h => by cases h
  exact after_induction (P := OwnNames) (fun _ d h => ownNames_attempt h d) ops hempty

/-! ## Method tables -/

/-- A member as the method that an ancestor brings in: its overloads in order, instantiated for the
ancestor. -/
def inherited (visibility : Visibility) (a : Ancestor) (m : Member) : DeclaredMethod where
  visibility := visibility
  defs := m.overloads.map fun o =>
    { overload := a.subst.applyOverload o
      definedIn := a.name
      implementedIn := if a.decl.kind = .classDecl then some a.name else none
      kind := m.kind
      member := m.name }

/-- The methods are those that a search along the ancestors of a name finds. -/
structure LooksUp (T : Table) (name : TypeName) (accept : MemberKind → Bool)
    (visibility : Member → Visibility) (methods : MethodTable) (chain : List Ancestor) : Prop where
  lineage : T.lineage name = .ok chain
  types : T.ancestorTypes name = .ok (chain.map ancestorType)
  listed : T.Listed chain
  sorted : Keyed.Sorted methods
  has_iff : ∀ method, (∃ entry, Keyed.get? method methods = some entry) ↔
    ∃ a ∈ chain, ∃ m ∈ a.decl.members, m.Answers accept method
  entry_iff : ∀ method entry, Keyed.get? method methods = some entry ↔
    ∃ a m, FoundAt accept method chain a m ∧ entry = inherited (visibility m) a m

theorem sorted_enterChain : Keyed.Sorted (enterChain accept privateKind chain) :=
  List.foldlRecOn chain.reverse _ List.Pairwise.nil fun _ h _ _ =>
    Keyed.sorted_foldl_insert Member.name _ _ h

/-- What is entered from the ancestors of a name is what is looked up there. -/
theorem looksUp_enterChain (hT : T.OwnNames) {name : TypeName} (h : T.lineage name = .ok chain)
    {visibility : Member → Visibility}
    (hvisibility : ∀ m,
      (if some m.kind = privateKind then .priv else m.visibility) = visibility m) :
    T.LooksUp name accept visibility (enterChain accept privateKind chain) chain where
  lineage := h
  types := ancestorTypes_eq_ok.mpr ⟨chain, h, rfl⟩
  listed := listed_lineage h
  sorted := sorted_enterChain
  has_iff _ := exists_get?_enterChain_iff
  entry_iff method entry := by
    rw [get?_enterChain, findSome?_eq_some_iff]
    refine exists₂_congr fun a m => and_congr_right fun hfound => ?_
    have hname : a.decl.name = a.name := hT _ _ ((listed_lineage h).declared a hfound.mem)
    rw [entered, memberDefs, inherited, hname, hvisibility]

/-- In every table that can be built, the methods of the instances of a class or module are looked
up along its ancestors among the members on the instance side, where module functions are private;
those of an interface are looked up among all members. -/
theorem methods_follow_lineage (ops : List Operation) (name : TypeName) (methods : MethodTable) :
    let T := Table.empty.after ops
    ((∃ decl, T.module? name = some decl ∧ decl.kind ≠ .interfaceDecl) →
      T.instanceMethods name = .ok methods →
      ∃ chain, T.LooksUp name MemberKind.onInstance
        (fun m => if m.kind = .moduleFunction then .priv else m.visibility) methods chain) ∧
    (T.interfaceMethods name = .ok methods →
      ∃ chain, T.LooksUp name (fun _ => true) Member.visibility methods chain) := by
  intro T
  constructor
  · rintro ⟨decl, hdecl, hkind⟩ h
    obtain ⟨decl', hfetch, h⟩ := exists_of_bind_ok h
    obtain rfl := Option.some.inj (hdecl.symm.trans (fetch_eq_ok.mp hfetch))
    rw [if_neg hkind] at h
    obtain ⟨chain, hchain, h⟩ := exists_of_bind_ok h
    obtain rfl := Except.ok.inj h
    exact ⟨chain, looksUp_enterChain (ownNames_after ops) hchain fun m => by simp⟩
  · intro h
    obtain ⟨decl, -, h⟩ := exists_of_bind_ok h
    split at h
    · cases h
    · obtain ⟨chain, hchain, h⟩ := exists_of_bind_ok h
      obtain rfl := Except.ok.inj h
      exact ⟨chain, looksUp_enterChain (ownNames_after ops) hchain fun m => by simp⟩

namespace Catalogue

/-- A member with one overload, which takes nothing. -/
def returning (name : String) (kind : MemberKind) (result : Ty) : Member :=
  { name := name, kind := kind, overloads := [⟨[], ⟨⟨{}, result⟩, none⟩, []⟩] }

/-- A module with a type parameter. -/
def named : ModuleDecl where
  name := ⟨"::Named"⟩
  kind := .moduleDecl
  typeParams := [{ name := "T" }]
  members :=
    [returning "label" .instanceMethod (.var "T"), returning "tag" .moduleFunction (.var "T")]

/-- A class that includes the module. -/
def base : ModuleDecl where
  name := ⟨"::Base"⟩
  kind := .classDecl
  includes := [.named .instanceOf named.name [.nil]]
  members := [returning "tag" .instanceMethod .nil]

/-- A class below it that includes the module too. -/
def item : ModuleDecl where
  name := ⟨"::Item"⟩
  kind := .classDecl
  superclass := some (.ofClass base.name)
  includes := [.named .instanceOf named.name [.bool]]
  members := [returning "label" .instanceMethod .nil]

/-- What the class has when it is reopened. -/
def itemReopened : ModuleDecl where
  name := item.name
  kind := .classDecl
  members := [returning "label" .instanceMethod .bool, returning "label" .singletonMethod .top]

/-- An interface with a module function. -/
def labelled : ModuleDecl where
  name := ⟨"::_Labelled"⟩
  kind := .interfaceDecl
  members := [returning "label" .moduleFunction .bool]

/-- The declarations in order. -/
def history : List Operation :=
  [named, base, item, itemReopened, labelled].map fun decl => .declare (.ofModule decl)

/-- Of the members of one name the one of the right kind counts that was declared last; and the
module that is reached twice stands before the superclass, as it is included in the class itself.
Its module function is private there, while that of the interface is not. -/
theorem methods_of_catalogue :
    let T := Table.empty.after history
    let bool : Overload := ⟨[], ⟨⟨{}, .bool⟩, none⟩, []⟩
    (∃ methods, T.instanceMethods item.name = .ok methods ∧
      Keyed.get? "label" methods = some
        ⟨.pub, [⟨bool, item.name, some item.name, .instanceMethod, "label"⟩]⟩ ∧
      Keyed.get? "tag" methods = some
        ⟨.priv, [⟨bool, named.name, none, .moduleFunction, "tag"⟩]⟩) ∧
    ∃ methods, T.interfaceMethods labelled.name = .ok methods ∧
      Keyed.get? "label" methods = some
        ⟨.pub, [⟨bool, labelled.name, none, .moduleFunction, "label"⟩]⟩ := by
  intro T bool
  constructor
  · obtain ⟨methods, hmethods⟩ : ∃ methods, T.instanceMethods item.name = .ok methods := ⟨_, rfl⟩
    have hdecl : ∃ decl, T.module? item.name = some decl ∧ decl.kind ≠ .interfaceDecl :=
      ⟨_, rfl, by decide⟩
    have hchain : T.lineage item.name = .ok [⟨item.name, reopen item itemReopened, .empty⟩,
        ⟨named.name, named, bindParams named.typeParams [.bool]⟩,
        ⟨base.name, base, bindParams base.typeParams []⟩] := rfl
    obtain ⟨chain, h⟩ := (methods_follow_lineage history item.name methods).1 hdecl hmethods
    obtain rfl := Except.ok.inj (hchain.symm.trans h.lineage)
    refine ⟨methods, hmethods, (h.entry_iff _ _).mpr ?_, (h.entry_iff _ _).mpr ?_⟩
    · refine ⟨_, returning "label" .instanceMethod .bool, ⟨⟨rfl, rfl⟩, ⟨[], _, rfl, by simp⟩,
        [returning "label" .instanceMethod .nil], [returning "label" .singletonMethod .top],
        rfl, ?_⟩, rfl⟩
      simp [Member.Answers, returning, MemberKind.onInstance]
    · refine ⟨_, returning "tag" .moduleFunction (.var "T"), ⟨⟨rfl, rfl⟩, ⟨[_], _, rfl, ?_⟩,
        [returning "label" .instanceMethod (.var "T")], [], rfl, by simp⟩, rfl⟩
      simp [Member.Answers, reopen, item, itemReopened, returning]
  · obtain ⟨methods, hmethods⟩ : ∃ methods, T.interfaceMethods labelled.name = .ok methods :=
      ⟨_, rfl⟩
    have hchain : T.lineage labelled.name = .ok [⟨labelled.name, labelled, .empty⟩] := rfl
    obtain ⟨chain, h⟩ := (methods_follow_lineage history labelled.name methods).2 hmethods
    obtain rfl := Except.ok.inj (hchain.symm.trans h.lineage)
    exact ⟨methods, hmethods, (h.entry_iff _ _).mpr ⟨_, returning "label" .moduleFunction .bool,
      ⟨⟨rfl, rfl⟩, ⟨[], _, rfl, by simp⟩, [], [], rfl, by simp⟩, rfl⟩⟩

end Catalogue

end Table
end TypeShape
