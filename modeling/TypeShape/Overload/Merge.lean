import TypeShape.Subst

/-!
# Merging overloads

Two overloads merge into one that takes what both take and returns what either returns.  They
must have the same type parameters, the same block and parameter lists of one layout.

Main definition: `Overload.merge?`.
-/

namespace TypeShape
namespace Overload

/-- A parameter that both overloads accept. -/
def mergeParam (a b : Ty) : Ty :=
  if a == b then a else Ty.interOf [a, b]

/-- The origins of two overloads together. -/
def mergeOrigins (a b : Overload) : List Origin :=
  Keyed.unionKeys a.origins b.origins

/-- The overload that stands for both, if their signatures fit. -/
def merge? (a b : Overload) : Option Overload :=
  if a == b then some { a with origins := mergeOrigins a b }
  else if a.typeParams == b.typeParams && a.block == b.block &&
      a.params.layout == b.params.layout then
    some
      { typeParams := a.typeParams
        callable :=
          { arrow :=
              { params := a.params.zipWith mergeParam b.params
                result := Ty.unionOf [a.result, b.result] }
            block := a.block }
        origins := mergeOrigins a b }
  else none

end Overload
end TypeShape
