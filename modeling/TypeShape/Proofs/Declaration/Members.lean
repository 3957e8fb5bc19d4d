import TypeShape.Declaration.Methods
import TypeShape.Proofs.Declaration.Ancestors
import TypeShape.Proofs.Types.Open

/-!
# The types of declared methods

A test of unions and intersections that their constructions keep, and that passes everywhere in the
types of all declarations, passes everywhere in the types of all methods that a declaration has,
wherever among its ancestors they come from.  So methods are in normal form or well formed if the
declarations are.

Main results:

- Theorem `Table.Passes.lineage`: ancestors are declared and reached with types that pass.
- Theorem `Table.Passes.expansion`: so do expansions of aliases.
- Theorems `Table.Passes.instanceMethods`, `Table.Passes.interfaceMethods` and
  `Table.Passes.singletonMethods`: so do the types of all methods.
-/

namespace TypeShape

/-- The types of all declarations are in normal form. -/
structure Table.Normal (T : Table) : Prop where
  parents : ∀ e ∈ T.modules, ∀ t ∈ e.2.parents, t.Normal
  members : ∀ e ∈ T.modules, ∀ m ∈ e.2.members, ∀ o ∈ m.overloads, o.Normal
  aliases : ∀ e ∈ T.aliases, e.2.body.Normal

/-- The members of all unions and intersections in the types of the declarations are distinct, as
they are in every type that can be built. -/
structure Table.WellFormed (T : Table) : Prop where
  parents : ∀ e ∈ T.modules, ∀ t ∈ e.2.parents, t.WellFormed
  members : ∀ e ∈ T.modules, ∀ m ∈ e.2.members, ∀ o ∈ m.overloads, ∀ t ∈ o.types, t.WellFormed
  aliases : ∀ e ∈ T.aliases, e.2.body.WellFormed

/-- A test passes everywhere in the types of all declarations. -/
structure Table.Passes (test : Ty → Bool) (T : Table) : Prop where
  parents : ∀ e ∈ T.modules, ∀ t ∈ e.2.parents, t.all test = true
  members : ∀ e ∈ T.modules, ∀ m ∈ e.2.members, ∀ o ∈ m.overloads, ∀ t ∈ o.types,
    t.all test = true
  aliases : ∀ e ∈ T.aliases, e.2.body.all test = true

/-- Declarations are in normal form if the test for it passes. -/
theorem Table.Normal.passes {T : Table} (h : T.Normal) : T.Passes Ty.normalHere :=
  ⟨h.parents, h.members, h.aliases⟩

/-- Declarations are well formed if the test for it passes. -/
theorem Table.WellFormed.passes {T : Table} (h : T.WellFormed) : T.Passes Ty.distinctHere :=
  ⟨h.parents, h.members, h.aliases⟩

/-- All methods have types in normal form. -/
def MethodTable.Normal (methods : MethodTable) : Prop :=
  ∀ e ∈ methods, ∀ d ∈ e.2.defs, d.overload.Normal

/-- A test passes everywhere in the types of all methods. -/
def MethodTable.Passes (test : Ty → Bool) (methods : MethodTable) : Prop :=
  ∀ e ∈ methods, ∀ d ∈ e.2.defs, d.overload.Holds fun t => t.all test = true

/-- What a test of unions and intersections says is kept when types are joined. -/
theorem Ty.SetTest.closes {test : Ty → Bool} (htest : Ty.SetTest test) :
    Ty.Closes fun t => t.all test = true where
  var x := htest.toTy (.var x)
  rigid ht h := Ty.all_iff.mpr ⟨htest.other _ (Ty.isSet_eq_false_of_isRigid ht), h⟩
  unionOf h := htest.toStable.unionOf h
  interOf h := htest.toStable.interOf h

namespace Table

/-- Methods together with a constructor, if there is one. -/
def withConstructor (methods : MethodTable) : Option DeclaredMethod → MethodTable
  | some method => Keyed.insert "new" method methods
  | none => methods

section Passes

variable {test : Ty → Bool} (htest : Ty.SetTest test) {T : Table} (hT : T.Passes test)

include htest

/-- The instance of a class for unknown arguments has only trivial parts. -/
theorem passes_untypedInstance (name : TypeName) :
    (T.untypedInstance name).all test = true := by
  refine Ty.all_iff.mpr ⟨htest.other _ rfl, fun u hu => ?_⟩
  obtain ⟨param, -, rfl⟩ := List.mem_map.mp hu
  exact Ty.all_iff.mpr ⟨htest.other _ rfl, by simp [Ty.parts]⟩

/-- Substituting types that pass in an overload keeps what its types pass. -/
theorem passes_apply_under {s : Subst} (hs : ∀ x, (s.imageOf x).all test = true) (o : Overload)
    {t : Ty} (ht : t.all test = true) : ((s.under o).apply t).all test = true := by
  refine htest.apply (fun x => ?_) ht
  rcases s.imageOf_under o x with hx | hx
  · rw [hx]
    exact hs x
  · rw [hx]
    exact htest.toTy x

/-- So does substituting in the whole overload. -/
theorem passes_applyOverload {s : Subst} {o : Overload} (hs : ∀ x, (s.imageOf x).all test = true)
    (ho : o.Holds fun t => t.all test = true) :
    (s.applyOverload o).Holds fun t => t.all test = true :=
  ho.applyOverload fun _ ht => passes_apply_under htest hs o ht

include hT

/-- Ancestors are declared and reached with types that pass. -/
theorem Passes.lineage {name : TypeName} {chain : List Ancestor} (h : T.lineage name = .ok chain) :
    ∀ a ∈ chain, a.Passes test T :=
  passes_lineage htest hT.parents h

/-- Expansions of aliases pass if their arguments do. -/
theorem Passes.expansion {name : TypeName} {args : List Ty} {t : Ty}
    (hargs : ∀ a ∈ args, a.all test = true) (h : T.expansion name args = .ok t) :
    t.all test = true := by
  unfold Table.expansion at h
  split at h
  · rename_i decl hdecl
    obtain rfl := Except.ok.inj h
    exact htest.apply (htest.bindParams hargs) (hT.aliases _ (Keyed.mem_of_get? hdecl))
  · cases h

/-- Entering the members of a declaration keeps what all types pass. -/
theorem passes_enterMembers {methods : MethodTable} {owner : ModuleDecl} {s : Subst}
    {accept : MemberKind → Bool} {privateKind : Option MemberKind} (hmethods : methods.Passes test)
    (howner : ∃ e ∈ T.modules, owner = e.2) (hs : ∀ x, (s.imageOf x).all test = true) :
    (enterMembers methods owner s accept privateKind).Passes test := by
  obtain ⟨e, he, rfl⟩ := howner
  refine List.foldlRecOn _ _ hmethods fun methods hmethods m hm => ?_
  intro f hf d hd
  rcases Keyed.mem_insert hf with rfl | hf
  · obtain ⟨o, ho, rfl⟩ := List.mem_map.mp hd
    exact passes_applyOverload htest hs (hT.members e he m (List.mem_filter.mp hm).1 o ho)
  · exact hmethods f hf d hd

/-- Entering the members of all ancestors keeps what all types pass. -/
theorem passes_foldl_enterMembers {chain : List Ancestor} {methods : MethodTable}
    {accept : MemberKind → Bool} {privateKind : Option MemberKind} (hmethods : methods.Passes test)
    (hchain : ∀ a ∈ chain, a.Passes test T) :
    MethodTable.Passes test (chain.foldl (fun methods a =>
      enterMembers methods a.decl a.subst accept privateKind) methods) :=
  List.foldlRecOn _ _ hmethods fun _ hmethods a ha =>
    passes_enterMembers htest hT hmethods (hchain a ha).declared (hchain a ha).subst

/-- The types of all methods of an interface pass. -/
theorem Passes.interfaceMethods {name : TypeName} {methods : MethodTable}
    (h : T.interfaceMethods name = .ok methods) : methods.Passes test := by
  obtain ⟨decl, -, h⟩ := exists_of_bind_ok h
  split at h
  · cases h
  · obtain ⟨chain, hchain, h⟩ := exists_of_bind_ok h
    obtain rfl := Except.ok.inj h
    refine passes_foldl_enterMembers htest hT (by simp [MethodTable.Passes]) fun a ha => ?_
    exact hT.lineage htest hchain a (List.mem_reverse.mp ha)

/-- The types of all methods of instances pass. -/
theorem Passes.instanceMethods {name : TypeName} {methods : MethodTable}
    (h : T.instanceMethods name = .ok methods) : methods.Passes test := by
  obtain ⟨decl, -, h⟩ := exists_of_bind_ok h
  split at h
  · exact hT.interfaceMethods htest h
  · obtain ⟨chain, hchain, h⟩ := exists_of_bind_ok h
    obtain rfl := Except.ok.inj h
    refine passes_foldl_enterMembers htest hT (by simp [MethodTable.Passes]) fun a ha => ?_
    exact hT.lineage htest hchain a (List.mem_reverse.mp ha)

/-- The types of the methods that class and module objects have from their own class pass. -/
theorem Passes.metaMethods {kind : DeclKind} {methods : MethodTable}
    (h : T.metaMethods kind = .ok methods) : methods.Passes test := by
  unfold Table.metaMethods at h
  split at h
  · obtain rfl := Except.ok.inj h
    simp [MethodTable.Passes]
  · exact hT.instanceMethods htest h

omit htest hT in
/-- Superclasses are declared. -/
theorem exists_of_superclasses {bound : Nat} {seen : List TypeName} {name : TypeName}
    {decls : List ModuleDecl} (h : T.superclasses bound seen name = .ok decls) :
    ∀ decl ∈ decls, ∃ e ∈ T.modules, decl = e.2 := by
  induction bound generalizing seen name decls with
  | zero =>
    obtain rfl := Except.ok.inj h
    simp
  | succ bound ih =>
    unfold superclasses at h
    split at h
    · obtain rfl := Except.ok.inj h
      simp
    · obtain ⟨decl, hdecl, h⟩ := exists_of_bind_ok h
      have hfirst := exists_of_fetch hdecl
      split at h
      · obtain ⟨rest, hrest, h⟩ := exists_of_bind_ok h
        obtain rfl := Except.ok.inj h
        exact List.forall_mem_cons.mpr ⟨hfirst, ih hrest⟩
      · obtain rfl := Except.ok.inj h
        exact List.forall_mem_singleton.mpr hfirst

/-- The types of a derived constructor pass. -/
theorem Passes.derivedConstructor {name : TypeName} {method : DeclaredMethod}
    (h : T.derivedConstructor name = .ok (some method)) :
    ∀ d ∈ method.defs, d.overload.Holds fun t => t.all test = true := by
  obtain ⟨chain, hchain, h⟩ := exists_of_bind_ok h
  obtain ⟨a, ha, hmethod⟩ := List.exists_of_findSome?_eq_some (Except.ok.inj h)
  obtain ⟨m, hm, rfl⟩ := Option.map_eq_some_iff.mp hmethod
  obtain ⟨⟨e, he, hdecl⟩, hs⟩ := hT.lineage htest hchain a ha
  intro d hd
  obtain ⟨o, ho, rfl⟩ := List.mem_map.mp hd
  have hmem : m ∈ e.2.members := by
    rw [← hdecl]
    exact List.mem_reverse.mp (List.mem_of_find?_eq_some hm)
  have happlied := passes_applyOverload htest hs (hT.members e he m hmem o ho)
  exact happlied.withResult (htest.toTy (.slot .instanceType))

/-- The types of all methods of a class or module object pass. -/
theorem Passes.singletonMethods {name : TypeName} {methods : MethodTable}
    (h : T.singletonMethods name = .ok methods) : methods.Passes test := by
  obtain ⟨decl, -, h⟩ := exists_of_bind_ok h
  split at h
  · cases h
  · obtain ⟨inherited, hinherited, h⟩ := exists_of_bind_ok h
    obtain ⟨chain, hchain, h⟩ := exists_of_bind_ok h
    obtain ⟨constructor?, hconstructor, rfl⟩ : ∃ constructor?,
        (∀ method, constructor? = some method →
          T.derivedConstructor name = .ok (some method)) ∧
        chain.reverse.foldl (fun methods owner =>
          enterMembers methods owner .empty MemberKind.onSingleton none)
          (withConstructor inherited constructor?) = methods := by
      dsimp only at h
      split at h
      · obtain ⟨constructor?, hconstructor, h⟩ := exists_of_bind_ok h
        exact ⟨constructor?, fun method hm => hm ▸ hconstructor, Except.ok.inj h⟩
      · exact ⟨none, by simp, Except.ok.inj h⟩
    refine List.foldlRecOn _ _ ?_ fun methods hmethods owner howner =>
      passes_enterMembers htest hT hmethods (exists_of_superclasses hchain owner
        (List.mem_reverse.mp howner)) htest.empty
    cases constructor? with
    | none => exact hT.metaMethods htest hinherited
    | some method =>
      intro e he d hd
      rcases Keyed.mem_insert he with rfl | he
      · exact hT.derivedConstructor htest (hconstructor method rfl) d hd
      · exact hT.metaMethods htest hinherited e he d hd

end Passes

/-! ## Normal forms -/

section Normal

variable {T : Table} (hT : T.Normal)

include hT

/-- The types of all ancestors are in normal form. -/
theorem Normal.ancestorTypes {name : TypeName} {types : List Ty}
    (h : T.ancestorTypes name = .ok types) : ∀ t ∈ types, t.Normal :=
  passes_ancestorTypes Ty.setTest_normalHere hT.parents h

/-- Expansions of aliases are in normal form if their arguments are. -/
theorem Normal.expansion {name : TypeName} {args : List Ty} {t : Ty}
    (hargs : ∀ a ∈ args, a.Normal) (h : T.expansion name args = .ok t) : t.Normal :=
  hT.passes.expansion Ty.setTest_normalHere hargs h

/-- What an alias in normal form unfolds to is in normal form. -/
theorem Normal.expansion? {t u : Ty} (ht : t.Normal) (h : T.expansion? t = some u) : u.Normal := by
  unfold Table.expansion? at h
  split at h
  · rename_i name args
    cases he : T.expansion name args with
    | error e =>
      rw [he] at h
      cases h
    | ok v =>
      rw [he] at h
      obtain rfl := Option.some.inj h
      exact hT.expansion (fun a ha => ht.part ha) he
  · cases h

omit hT in
/-- The instance of a class for unknown arguments is in normal form. -/
theorem normal_untypedInstance (name : TypeName) : (T.untypedInstance name).Normal :=
  passes_untypedInstance Ty.setTest_normalHere name

/-- The types of all methods of an interface are in normal form. -/
theorem Normal.interfaceMethods {name : TypeName} {methods : MethodTable}
    (h : T.interfaceMethods name = .ok methods) : methods.Normal :=
  hT.passes.interfaceMethods Ty.setTest_normalHere h

/-- The types of all methods of instances are in normal form. -/
theorem Normal.instanceMethods {name : TypeName} {methods : MethodTable}
    (h : T.instanceMethods name = .ok methods) : methods.Normal :=
  hT.passes.instanceMethods Ty.setTest_normalHere h

/-- The types of all methods of a class or module object are in normal form. -/
theorem Normal.singletonMethods {name : TypeName} {methods : MethodTable}
    (h : T.singletonMethods name = .ok methods) : methods.Normal :=
  hT.passes.singletonMethods Ty.setTest_normalHere h

end Normal

end Table
end TypeShape
