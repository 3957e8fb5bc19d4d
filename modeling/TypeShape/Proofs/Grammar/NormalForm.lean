import TypeShape.Proofs.Grammar.Yields

/-!
# What is read is in normal form

Whatever text is read, the types that come out are in normal form: unions and intersections are only
made by joining types, and nothing is asked of the tokens.

Main results:

- Theorems `Ty.normal_of_parse`, `Overload.normal_of_parse` and `TypeParam.normal_of_parse`: what is
  read from a whole text is in normal form.
-/

namespace TypeShape

/-- Normal form is kept by everything that parses types. -/
theorem Parser.admits_normalHere : Admits (fun _ => True) Ty.normalHere where
  stable := Ty.stable_normalHere
  keyword {w t} h := by
    unfold wordType? at h
    split at h <;> first | (obtain rfl := Option.some.inj h; rfl) | cases h
  integer _ := rfl
  string _ := rfl
  symbol _ := rfl
  var _ _ := rfl
  singleton _ _ := rfl
  named _ _ _ := rfl
  tuple _ := rfl
  record _ _ := rfl
  proc _ := rfl

/-- A type that is read is in normal form. -/
theorem Ty.normal_of_parse {source : String} {t : Ty} (h : Ty.parse source = .ok t) : t.Normal :=
  (Parser.yields_type Parser.admits_normalHere).run (fun _ _ _ _ => trivial) h

/-- The types of an overload that is read are in normal form. -/
theorem Overload.normal_of_parse {source : String} {o : Overload}
    (h : Overload.parse source = .ok o) : o.Normal :=
  ((Parser.yields_overload Parser.admits_normalHere).run (fun _ _ _ _ => trivial) h).1

/-- The bound of a type parameter that is read is in normal form. -/
theorem TypeParam.normal_of_parse {source : String} {p : TypeParam}
    (h : TypeParam.parse source = .ok p) : ∀ t ∈ p.bound.toList, t.Normal :=
  ((Parser.yields_typeParam Parser.admits_normalHere).run (fun _ _ _ _ => trivial) h).2

end TypeShape
