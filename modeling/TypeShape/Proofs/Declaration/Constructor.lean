import TypeShape.Proofs.Declaration.Lookup
import TypeShape.Proofs.Declaration.Members

/-!
# Constructors and initializers

A class object is given its constructor by a search of its own, from the nearest ancestor on, while
the initializer of the instances is what was entered last, from the farthest ancestor on.  Both find
the same member, so the constructor is the initializer with another result.  It counts unless the
class or one of its superclasses declares a constructor for itself.

Main results:

- Theorem `Table.derivedConstructor_eq`: the constructor that is derived is the initializer of the
  instances.
- Theorem `Table.get?_new`: where the constructor of a class object comes from.
- Theorem `Table.constructor_follows_initializer`: the constructor of a class that declares none for
  itself, in every table that can be built.
-/

namespace TypeShape

/-- The constructor that goes with an initializer: public, with the same overloads in the same
order, each of which returns an instance. -/
def DeclaredMethod.asConstructor (init : DeclaredMethod) : DeclaredMethod where
  visibility := .pub
  defs := init.defs.map fun d =>
    { d with
      overload := d.overload.withResult (.slot .instanceType)
      implementedIn := some d.definedIn }

namespace Table

open ModuleDecl (lastMember? lastMember?_eq_none_iff)

variable {T : Table} {name : TypeName} {methods singleton : MethodTable}

/-! ## The derived constructor -/

theorem initializer?_eq (d : ModuleDecl) :
    initializer? d = d.lastMember? MemberKind.onInstance "initialize" :=
  rfl

theorem constructorOf_eq {a : Ancestor} (h : a.decl.name = a.name) (privateKind : Option MemberKind)
    (m : Member) : constructorOf a m = (entered privateKind a.decl a.subst m).asConstructor := by
  simp [constructorOf, entered, memberDefs, DeclaredMethod.asConstructor, h]

/-- The search for a constructor finds the initializer that the instances have. -/
theorem derivedConstructor_eq (hT : T.OwnNames) {decl : ModuleDecl}
    (hdecl : T.module? name = some decl) (hkind : decl.kind ≠ .interfaceDecl)
    (h : T.instanceMethods name = .ok methods) :
    T.derivedConstructor name =
      .ok ((Keyed.get? "initialize" methods).map DeclaredMethod.asConstructor) := by
  obtain ⟨decl', hfetch, h⟩ := exists_of_bind_ok h
  obtain rfl := Option.some.inj (hdecl.symm.trans (fetch_eq_ok.mp hfetch))
  rw [if_neg hkind] at h
  obtain ⟨chain, hchain, h⟩ := exists_of_bind_ok h
  obtain rfl := Except.ok.inj h
  have hfind : (chain.findSome? fun a => (initializer? a.decl).map (constructorOf a)) =
      (Keyed.get? "initialize" (enterChain MemberKind.onInstance (some .moduleFunction) chain)).map
        DeclaredMethod.asConstructor := by
    rw [get?_enterChain, List.map_findSome?]
    ext1 entry
    simp only [Function.comp_def, Option.map_map, initializer?_eq, findSome?_eq_some_iff]
    refine exists₂_congr fun a m => and_congr_right fun hfound => ?_
    rw [constructorOf_eq (hT _ _ ((listed_lineage hchain).declared a hfound.mem))]
  rw [derivedConstructor, hchain]
  exact congrArg Except.ok hfind

/-! ## The superclasses of a class -/

/-- A class names another one as its superclass. -/
def HasSuperclass (T : Table) (name parent : TypeName) : Prop :=
  ∃ decl args, T.module? name = some decl ∧ decl.superclass = some (.named .instanceOf parent args)

/-- A declaration stands on the superclass chain of a name: it is that of the name, of its
superclass, of the superclass of that, and so on. -/
def OnSuperclassChain (T : Table) (name : TypeName) (owner : ModuleDecl) : Prop :=
  ∃ ancestor, Relation.ReflTransGen T.HasSuperclass name ancestor ∧ T.module? ancestor = some owner

theorem onSuperclassChain_of_mem {bound : Nat} {seen : List TypeName} {owners : List ModuleDecl}
    (h : T.superclasses bound seen name = .ok owners) :
    ∀ owner ∈ owners, T.OnSuperclassChain name owner := by
  induction bound generalizing seen name owners with
  | zero =>
    obtain rfl := Except.ok.inj h
    simp
  | succ bound ih =>
    unfold superclasses at h
    split at h
    · obtain rfl := Except.ok.inj h
      simp
    · obtain ⟨decl, hfetch, h⟩ := exists_of_bind_ok h
      have hdecl := fetch_eq_ok.mp hfetch
      have hself : T.OnSuperclassChain name decl := ⟨name, .refl, hdecl⟩
      split at h
      · rename_i parent args hsuper
        obtain ⟨rest, hrest, h⟩ := exists_of_bind_ok h
        obtain rfl := Except.ok.inj h
        refine List.forall_mem_cons.mpr ⟨hself, fun owner howner => ?_⟩
        obtain ⟨ancestor, hchain, hancestor⟩ := ih hrest owner howner
        exact ⟨ancestor, .head ⟨decl, args, hdecl, hsuper⟩ hchain, hancestor⟩
      · obtain rfl := Except.ok.inj h
        exact List.forall_mem_singleton.mpr hself

/-- The members that owners enter, the first owner last, over what is there. -/
theorem get?_enterOwners {accept : MemberKind → Bool} {privateKind : Option MemberKind}
    (method : String) (owners : List ModuleDecl) :
    Keyed.get? method (owners.reverse.foldl (fun methods owner =>
        enterMembers methods owner .empty accept privateKind) methods) =
      (owners.findSome? fun owner =>
        (owner.lastMember? accept method).map (entered privateKind owner .empty)).or
          (Keyed.get? method methods) := by
  induction owners with
  | nil => rfl
  | cons owner owners ih =>
    rw [List.reverse_cons, List.foldl_append, List.foldl_cons, List.foldl_nil, get?_enterMembers,
      ih, List.findSome?_cons]
    cases owner.lastMember? accept method <;> rfl

/-! ## The constructor of a class object -/

/-- The constructor of a class object is that of the first superclass that declares one, the class
itself included, then the one that goes with the initializer, then that of the class of class
objects. -/
theorem get?_new (hT : T.OwnNames) {decl : ModuleDecl} (hdecl : T.module? name = some decl)
    (hkind : decl.kind = .classDecl) (hmethods : T.instanceMethods name = .ok methods)
    (hsingleton : T.singletonMethods name = .ok singleton) :
    ∃ owners provided, T.superclasses (T.modules.length + 1) [] name = .ok owners ∧
      T.metaMethods .classDecl = .ok provided ∧
      Keyed.get? "new" singleton =
        ((owners.findSome? fun owner =>
          (owner.lastMember? MemberKind.onSingleton "new").map (entered none owner .empty)).or
            ((Keyed.get? "initialize" methods).map DeclaredMethod.asConstructor)).or
              (Keyed.get? "new" provided) := by
  have hnot : decl.kind ≠ .interfaceDecl := by simp [hkind]
  obtain ⟨decl', hfetch, h⟩ := exists_of_bind_ok hsingleton
  obtain rfl := Option.some.inj (hdecl.symm.trans (fetch_eq_ok.mp hfetch))
  rw [if_neg hnot] at h
  obtain ⟨provided, hprovided, h⟩ := exists_of_bind_ok h
  obtain ⟨owners, howners, h⟩ := exists_of_bind_ok h
  rw [if_pos hkind, derivedConstructor_eq hT hdecl hnot hmethods] at h
  obtain rfl := Except.ok.inj h
  refine ⟨owners, provided, howners, hkind ▸ hprovided, ?_⟩
  rw [get?_enterOwners, Option.or_assoc]
  cases Keyed.get? "initialize" methods with
  | none => rfl
  | some init =>
    rw [Option.map_some, Option.some_or, Keyed.get?_insert, if_pos rfl]

/-- In every table that can be built, a class that declares no constructor for itself, and whose
superclasses declare none, has the public constructor that goes with the initializer of its
instances.  Where they have none, it has what the class of class objects provides. -/
theorem constructor_follows_initializer (ops : List Operation) (name : TypeName)
    (methods singleton : MethodTable) :
    let T := Table.empty.after ops
    (∃ decl, T.module? name = some decl ∧ decl.kind = .classDecl) →
    T.instanceMethods name = .ok methods → T.singletonMethods name = .ok singleton →
    (∀ owner, T.OnSuperclassChain name owner →
      ∀ m ∈ owner.members, ¬ m.Answers MemberKind.onSingleton "new") →
    (∀ init, Keyed.get? "initialize" methods = some init →
      Keyed.get? "new" singleton = some init.asConstructor) ∧
    (Keyed.get? "initialize" methods = none →
      (T.module? .classClass = none → Keyed.get? "new" singleton = none) ∧
      ((∃ decl, T.module? .classClass = some decl) →
        ∃ provided, T.instanceMethods .classClass = .ok provided ∧
          Keyed.get? "new" singleton = Keyed.get? "new" provided)) := by
  rintro T ⟨decl, hdecl, hkind⟩ hmethods hsingleton hsilent
  obtain ⟨owners, provided, howners, hprovided, hnew⟩ :=
    get?_new (ownNames_after ops) hdecl hkind hmethods hsingleton
  have hnone : (owners.findSome? fun owner =>
      (owner.lastMember? MemberKind.onSingleton "new").map (entered none owner .empty)) = none := by
    refine List.findSome?_eq_none_iff.mpr fun owner howner => Option.map_eq_none_iff.mpr ?_
    have hchain := onSuperclassChain_of_mem howners owner howner
    exact lastMember?_eq_none_iff.mpr (hsilent owner hchain)
  rw [hnone, Option.none_or] at hnew
  refine ⟨fun init hinit => ?_, fun hinit => ⟨fun hclass => ?_, ?_⟩⟩
  · rw [hnew, hinit, Option.map_some, Option.some_or]
  · rw [metaMethods, metaclass, if_pos rfl, hclass] at hprovided
    obtain rfl := Except.ok.inj hprovided
    rw [hnew, hinit]
    rfl
  · rintro ⟨classDecl, hclass⟩
    rw [metaMethods, metaclass, if_pos rfl, hclass] at hprovided
    exact ⟨provided, hprovided, by rw [hnew, hinit, Option.map_none, Option.none_or]⟩

namespace Workshop

/-- A member with one overload, which takes required parameters. -/
def taking (name : String) (kind : MemberKind) (params : List Ty) (result : Ty) : Member :=
  { name := name, kind := kind, overloads := [⟨[], ⟨⟨{ required := params }, result⟩, none⟩, []⟩] }

/-- The class of class objects, with a constructor for all of them. -/
def classObjects : ModuleDecl where
  name := .classClass
  kind := .classDecl
  members := [taking "new" .instanceMethod [] .top]

/-- A generic module with an initializer. -/
def stored : ModuleDecl where
  name := ⟨"::Stored"⟩
  kind := .moduleDecl
  typeParams := [{ name := "T" }]
  members := [taking "initialize" .instanceMethod [.var "T"] .void]

/-- What the module has when it is reopened. -/
def storedReopened : ModuleDecl where
  name := stored.name
  kind := .moduleDecl
  members := [taking "initialize" .moduleFunction [.var "T", .nil] .void]

/-- A class with an initializer of its own. -/
def base : ModuleDecl where
  name := ⟨"::Base"⟩
  kind := .classDecl
  members := [taking "initialize" .instanceMethod [] .void]

/-- A generic class below it that includes the module.  Its own member is for the class object. -/
def item : ModuleDecl where
  name := ⟨"::Item"⟩
  kind := .classDecl
  typeParams := [{ name := "U" }]
  superclass := some (.ofClass base.name)
  includes := [.named .instanceOf stored.name [.tuple [.var "U"]]]
  members := [taking "initialize" .singletonMethod [] .bool]

/-- A class without an initializer. -/
def plain : ModuleDecl where
  name := ⟨"::Plain"⟩
  kind := .classDecl

/-- The declarations in order. -/
def history : List Operation :=
  [classObjects, stored, storedReopened, base, item, plain].map fun decl =>
    .declare (.ofModule decl)

/-- The constructor comes from the last initializer of the module, which stands before the
superclass, and takes what the module is applied to.  A class without an initializer has the
constructor of all class objects. -/
theorem constructors_of_workshop :
    let T := Table.empty.after history
    (∃ singleton, T.singletonMethods item.name = .ok singleton ∧
      Keyed.get? "new" singleton = some ⟨.pub,
        [⟨⟨[], ⟨⟨{ required := [.tuple [.var "U"], .nil] }, .slot .instanceType⟩, none⟩, []⟩,
          stored.name, some stored.name, .moduleFunction, "initialize"⟩]⟩) ∧
    ∃ singleton, T.singletonMethods plain.name = .ok singleton ∧
      Keyed.get? "new" singleton = some ⟨.pub,
        [⟨⟨[], ⟨⟨{}, .top⟩, none⟩, []⟩,
          .classClass, some .classClass, .instanceMethod, "new"⟩]⟩ := by
  intro T
  have hmodules : ∀ e ∈ T.modules, ∀ m ∈ e.2.members,
      ¬ (m.name = "new" ∧ m.kind.onSingleton = true) := by decide
  have hsilent : ∀ name owner, T.OnSuperclassChain name owner →
      ∀ m ∈ owner.members, ¬ m.Answers MemberKind.onSingleton "new" := by
    rintro name owner ⟨ancestor, -, howner⟩
    exact hmodules _ (Keyed.mem_of_get? howner)
  constructor
  · obtain ⟨hnew, -⟩ := constructor_follows_initializer history item.name _ _ ⟨_, rfl, rfl⟩ rfl rfl
      (hsilent item.name)
    exact ⟨_, rfl, hnew _ rfl⟩
  · obtain ⟨-, hnew⟩ := constructor_follows_initializer history plain.name _ _ ⟨_, rfl, rfl⟩ rfl rfl
      (hsilent plain.name)
    obtain ⟨provided, hprovided, hnew⟩ := (hnew rfl).2 ⟨_, rfl⟩
    obtain rfl := Except.ok.inj hprovided
    exact ⟨_, rfl, hnew⟩

end Workshop

end Table
end TypeShape
