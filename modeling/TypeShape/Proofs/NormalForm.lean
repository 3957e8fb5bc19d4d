import TypeShape.Proofs.Flow.NormalForm
import TypeShape.Proofs.Grammar.NormalForm
import TypeShape.Proofs.Search.NormalForm

/-!
# Normal form is an invariant

Types are read in normal form, and everything that is made from types in normal form is in normal
form: unions, intersections, substituted types, merged overloads, what is found in declarations, the
sides of a split, shapes, and the branches of conditions.

Main results:

- Theorem `Table.normal_form_is_invariant`: all of these at once.
-/

namespace TypeShape

namespace Table

open Search in
/-- Types are read in normal form, and from declarations, recorded types, environments,
substitutions and contexts in normal form only types in normal form are made. -/
theorem normal_form_is_invariant {T : Table} (hT : T.Normal) :
    ((∀ source t, Ty.parse source = .ok t → t.Normal) ∧
      (∀ source o, Overload.parse source = .ok o → o.Normal) ∧
      ∀ source p, TypeParam.parse source = .ok p → ∀ t ∈ p.bound.toList, t.Normal) ∧
    ((∀ ts : List Ty, (∀ t ∈ ts, t.Normal) → (Ty.unionOf ts).Normal ∧ (Ty.interOf ts).Normal) ∧
      (∀ t : Ty, t.Normal → t.optional.Normal) ∧
      (∀ (s : Subst) (t : Ty), (∀ e ∈ s.vars, e.2.Normal) →
        (∀ p u, s.anchors.get? p = some u → u.Normal) → t.Normal → (s.apply t).Normal) ∧
      ∀ a b o : Overload, a.Normal → b.Normal → a.merge? b = some o → o.Normal) ∧
    ((∀ name args t, (∀ a ∈ args, a.Normal) → T.expansion name args = .ok t → t.Normal) ∧
      (∀ name types, T.ancestorTypes name = .ok types → ∀ t ∈ types, t.Normal) ∧
      (∀ name methods, T.instanceMethods name = .ok methods → methods.Normal) ∧
      (∀ name methods, T.singletonMethods name = .ok methods → methods.Normal) ∧
      ∀ name methods, T.interfaceMethods name = .ok methods → methods.Normal) ∧
    (∀ t : Ty, t.Normal → NormalSides (T.splitByTruth t) ∧ NormalSides (T.splitByNil t) ∧
      ∀ name, NormalSides (T.splitByClass t name)) ∧
    (∀ (qs : List Query) (q : Query) (b b' : Cache) (s : Shape), (∀ q ∈ qs, q.Normal) → q.Normal →
      Query.after T qs Cache.empty = some b → q.run T b = some (.ok (some s), b') → s.Normal) ∧
    ∀ (typing : Typing) (env : Env) (n : Expr), (∀ e ∈ typing.types, e.2.Normal) → env.Normal →
      (∀ e, Flow.follow ⟨T, typing⟩ n env = .ok e → e.Normal) ∧
      ∀ e, Flow.followCase ⟨T, typing⟩ env n = .ok e →
        (∀ env' ∈ e.clauses, env'.Normal) ∧ e.elseEnv.Normal := by
  refine ⟨⟨?_, ?_, ?_⟩, ⟨?_, ?_, ?_, ?_⟩, ⟨?_, ?_, ?_, ?_, ?_⟩, ?_, ?_, ?_⟩
  · exact fun _ _ h => Ty.normal_of_parse h
  · exact fun _ _ h => Overload.normal_of_parse h
  · exact fun _ _ h => TypeParam.normal_of_parse h
  · exact fun _ hts => ⟨Ty.normal_unionOf hts, Ty.normal_interOf hts⟩
  · exact fun _ ht => Ty.normal_unionOf (by simpa using ⟨ht, rfl⟩)
  · intro s t hvars hanchors ht
    exact Ty.setTest_normalHere.apply (Ty.setTest_normalHere.imageOf hvars hanchors) ht
  · exact fun _ _ _ ha hb h => Overload.normal_merge? ha hb h
  · exact fun _ _ _ hargs h => hT.expansion hargs h
  · exact fun _ _ h => hT.ancestorTypes h
  · exact fun _ _ h => hT.instanceMethods h
  · exact fun _ _ h => hT.singletonMethods h
  · exact fun _ _ h => hT.interfaceMethods h
  · exact fun _ ht => ⟨hT.splitByTruth ht, hT.splitByNil ht, hT.splitByClass ht⟩
  · exact fun _ _ _ _ _ hqs hq hb h => Query.normal_run hT hqs hq hb h
  · intro typing env n htyping henv
    have hK : Flow.Normal ⟨T, typing⟩ := ⟨hT, htyping⟩
    exact ⟨fun _ h => hK.follow n henv h, fun _ h => hK.followCase henv h⟩

/-- An alias for a type or `nil`, and a class whose method may give `nil`. -/
def maybeTable : Table where
  modules :=
    [(⟨"::Box"⟩, {
      name := ⟨"::Box"⟩
      kind := .classDecl
      typeParams := [{ name := "T" }]
      members :=
        [{ name := "get", overloads := [⟨[], ⟨⟨{}, .union [.var "T", .nil]⟩, none⟩, []⟩] }] })]
  aliases :=
    [(⟨"::maybe"⟩, {
      name := ⟨"::maybe"⟩
      typeParams := [{ name := "T" }]
      body := .union [.var "T", .nil] })]

/-- What all operations give for an optional type is in normal form. -/
theorem normal_form_of_maybe :
    let value : Ty := .union [.nil, .literal (.integer 1)]
    let typing : Typing := { types := [(0, .named .aliasOf ⟨"::maybe"⟩ [value])] }
    let n : Expr := .var 0 "x"
    maybeTable.Normal ∧ maybeTable.expansion ⟨"::maybe"⟩ [value] = .ok value ∧ value.Normal ∧
      (∃ methods, maybeTable.instanceMethods ⟨"::Box"⟩ = .ok methods ∧ methods.Normal) ∧
      ∃ e, Flow.follow ⟨maybeTable, typing⟩ n {} = .ok e ∧ e.Normal := by
  intro value typing n
  have hT : maybeTable.Normal := ⟨by decide, by decide, by decide⟩
  have hargs : ∀ a ∈ [value], a.Normal := by decide
  have htyping : ∀ e ∈ typing.types, e.2.Normal := by decide
  obtain ⟨-, -, ⟨hexpansion, -, hmethods, -⟩, -, -, hfollow⟩ := normal_form_is_invariant hT
  refine ⟨hT, rfl, hexpansion ⟨"::maybe"⟩ _ _ hargs rfl, ⟨_, rfl, ?_⟩, ⟨_, rfl, ?_⟩⟩
  · exact hmethods ⟨"::Box"⟩ _ rfl
  · exact (hfollow typing {} n htyping ⟨by simp, by simp⟩).1 _ rfl

end Table
end TypeShape
