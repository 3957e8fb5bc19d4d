import TypeShape.Declaration.Table

/-!
# Ancestors

The ancestors of a declaration in the order in which methods are looked up.  A declaration comes
first, then its included modules from the last to the first, each with its own ancestors, then
its superclass.  A name that was visited is not visited again, so the hierarchy may be cyclic.

Main definitions: `Ancestor`, `Table.visit`, `Table.lineage`, `Table.ancestorTypes`.
-/

namespace TypeShape

/-- A visited declaration and what its type parameters stand for. -/
structure Ancestor where
  name : TypeName
  decl : ModuleDecl
  subst : Subst

namespace Table

/-- Visits a direct ancestor if it is the application of a class, module or interface. -/
def visitParent (T : Table)
    (visit : TypeName → Subst → List Ancestor → Except DeclError (List Ancestor))
    (chain : List Ancestor) : Ty → Except DeclError (List Ancestor)
  | .named .aliasOf _ _ => .ok chain
  | .named _ name args => do
    let decl ← T.fetch name
    visit name (bindParams decl.typeParams args) chain
  | _ => .ok chain

/-- Visits a name and its ancestors, appending to the chain of those visited before.  The first
argument bounds the depth; no chain is longer than the number of declarations. -/
def visit (T : Table) : Nat → TypeName → Subst → List Ancestor →
    Except DeclError (List Ancestor)
  | 0, _, _, chain => .ok chain
  | depth + 1, name, s, chain =>
    if chain.any (·.name == name) then .ok chain
    else do
      let decl ← T.fetch name
      decl.parents.foldlM (fun chain parent => visitParent T (visit T depth) chain (s.apply parent))
        (chain ++ [⟨name, decl, s⟩])

/-- The ancestors of a name, the most specific first, in terms of its own type parameters. -/
def lineage (T : Table) (name : TypeName) : Except DeclError (List Ancestor) :=
  visit T (T.modules.length + 1) name .empty []

/-- The type that an ancestor is reached as. -/
def ancestorType (a : Ancestor) : Ty :=
  .named (if a.decl.kind = .interfaceDecl then .interfaceOf else .instanceOf) a.name
    (a.decl.typeParams.map fun p => a.subst.apply (.var p.name))

/-- The ancestors of a name as types. -/
def ancestorTypes (T : Table) (name : TypeName) : Except DeclError (List Ty) := do
  let chain ← T.lineage name
  return chain.map ancestorType

end Table
end TypeShape
