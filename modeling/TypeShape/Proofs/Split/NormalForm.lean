import TypeShape.Proofs.Declaration.Members
import TypeShape.Proofs.Split.Parts

/-!
# Parts of types in normal form

Splitting a type in normal form, by truth, by `nil`, by class or by value, gives parts in normal
form: the members of a normal type are in normal form, its expansion is, and so is every union of
normal types.

Main results:

- Theorems `Table.Normal.splitByTruth`, `Table.Normal.splitByNil` and `Table.Normal.splitByClass`:
  both sides of a split are in normal form.
- Theorems `Table.Normal.equalPart` and `Table.Normal.belowPart`: so are parts by value and by
  ancestor.
-/

namespace TypeShape

/-- A type without parts is in normal form. -/
theorem Ty.normal_of_isAtom {t : Ty} (h : t.isAtom = true) : t.Normal := by
  cases t with
  | named => cases h
  | union => cases h
  | inter => cases h
  | tuple => cases h
  | record => cases h
  | proc => cases h
  | _ => rfl

namespace Table

variable {T : Table}

/-- Both sides of a split are in normal form. -/
def NormalSides (sides : Ty × Ty) : Prop :=
  sides.1.Normal ∧ sides.2.Normal

theorem Normal.handsDown (hT : T.Normal) : T.HandsDown Ty.Normal Ty.Normal where
  member h hm := h.part hm
  expansion h he := hT.expansion? h he
  whole h _ := h
  atom := Ty.normal_of_isAtom
  unionOf h := Ty.normal_unionOf h

variable (hT : T.Normal) {t : Ty} (ht : t.Normal)

include hT ht

theorem Normal.splitByTruth : NormalSides (T.splitByTruth t) :=
  hT.handsDown.splitByTruth ht

theorem Normal.splitByNil : NormalSides (T.splitByNil t) :=
  hT.handsDown.splitByNil ht

theorem Normal.splitByClass (name : TypeName) : NormalSides (T.splitByClass t name) :=
  hT.handsDown.splitByClass (normal_untypedInstance name) ht

theorem Normal.equalPart (value : Literal) : (T.equalPart t value).Normal :=
  hT.handsDown.equalPart ht value

theorem Normal.unfoldHead : (T.unfoldHead t).Normal :=
  hT.handsDown.unfoldHead ht

theorem Normal.belowPart {ancestor : Ty} (hancestor : ancestor.Normal) :
    (T.belowPart t ancestor).Normal :=
  hT.handsDown.belowPart ht hancestor

end Table
end TypeShape
