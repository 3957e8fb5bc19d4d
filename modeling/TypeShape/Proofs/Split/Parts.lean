import TypeShape.Proofs.Types.Equality
import TypeShape.Split.Class
import TypeShape.Split.Part
import TypeShape.Split.Truth

/-!
# What the parts of a type inherit

A split takes unions apart member by member and joins the parts again, splits aliases through their
expansion, and keeps all other types whole.  So a property of the parts follows from a property of
the types that a split comes across, for splits by truth, by `nil`, by class, by value and by
ancestor alike.

Main results:

- Theorems `Table.HandsDown.splitByTruth`, `Table.HandsDown.splitByNil` and
  `Table.HandsDown.splitByClass`: both sides of a split have the property.
- Theorems `Table.HandsDown.equalPart` and `Table.HandsDown.belowPart`: so do parts by value and by
  ancestor.
-/

namespace TypeShape
namespace Table

/-! ## Members, one by one -/

/-- The members of a union are split one by one. -/
theorem splitMembers_eq_map (onAlias : Ty → Ty × Ty) (placement : Ty → Placement) (ts : List Ty) :
    splitMembers onAlias placement ts =
      (ts.map fun t => (splitWith onAlias placement t).1,
        ts.map fun t => (splitWith onAlias placement t).2) := by
  induction ts with
  | nil => rfl
  | cons t ts ih => rw [splitMembers, ih, List.map_cons, List.map_cons]

/-- The same for a split by class. -/
theorem byClassMembers_eq_map (T : Table) (target : Ty) (onAlias : Ty → Ty × Ty) (ts : List Ty) :
    T.byClassMembers target onAlias ts =
      (ts.map fun t => (T.byClassWith target onAlias t).1,
        ts.map fun t => (T.byClassWith target onAlias t).2) := by
  induction ts with
  | nil => rfl
  | cons t ts ih => rw [byClassMembers, ih, List.map_cons, List.map_cons]

/-- The same for the part that can equal a literal. -/
theorem equalPartMembers_eq_map (T : Table) (value : Literal) (onAlias : Ty → Ty) (ts : List Ty) :
    T.equalPartMembers value onAlias ts = ts.map (T.equalPartWith value onAlias) := by
  induction ts with
  | nil => rfl
  | cons t ts ih => rw [equalPartMembers, ih, List.map_cons]

/-! ## Properties of parts -/

/-- Types with `I` are made of types with `I`, those kept whole have `P`, and unions keep `P`. -/
structure HandsDown (T : Table) (I P : Ty → Prop) : Prop where
  member : ∀ {ms : List Ty} {m : Ty}, I (.union ms) → m ∈ ms → I m
  expansion : ∀ {t e : Ty}, I t → T.expansion? t = some e → I e
  whole : ∀ {t : Ty}, I t → (∀ ms, t ≠ .union ms) → P t
  atom : ∀ {t : Ty}, t.isAtom = true → P t
  unionOf : ∀ {ts : List Ty}, (∀ t ∈ ts, P t) → P (Ty.unionOf ts)

/-- Both sides of a split have a property. -/
def BothSides (P : Ty → Prop) (sides : Ty × Ty) : Prop :=
  P sides.1 ∧ P sides.2

namespace HandsDown

variable {T : Table} {I P : Ty → Prop} (hP : T.HandsDown I P)

include hP

/-- The sides of members, each joined, have the property. -/
theorem bothSides_unionOf {split : Ty → Ty × Ty} {ms : List Ty}
    (h : ∀ m ∈ ms, BothSides P (split m)) :
    BothSides P (Ty.unionOf (ms.map fun m => (split m).1),
      Ty.unionOf (ms.map fun m => (split m).2)) := by
  constructor
  · refine hP.unionOf fun t ht => ?_
    obtain ⟨m, hm, rfl⟩ := List.mem_map.mp ht
    exact (h m hm).1
  · refine hP.unionOf fun t ht => ?_
    obtain ⟨m, hm, rfl⟩ := List.mem_map.mp ht
    exact (h m hm).2

/-! ## By truth -/

section Truth

variable {placement : Ty → Placement} {onAlias : Ty → Ty × Ty}

/-- A type that is placed keeps its property on both sides. -/
theorem bothSides_place (placement : Ty → Placement) {t : Ty} (ht : P t) :
    BothSides P (place placement t) := by
  have hbot : P .bot := hP.atom rfl
  unfold place
  split
  · exact ⟨ht, hbot⟩
  · exact ⟨hbot, ht⟩
  · exact ⟨ht, ht⟩

/-- Fusing booleans keeps a property of unions. -/
theorem fuseBool {t : Ty} (ht : P t) : P (fuseBool t) := by
  unfold Table.fuseBool
  split
  · split
    · exact hP.atom rfl
    · exact ht
  · exact ht

/-- A boolean that is placed has the property on both sides. -/
theorem bothSides_placeBool : BothSides P (placeBool placement) := by
  obtain ⟨htl, htr⟩ := hP.bothSides_place placement (t := .trueType) (hP.atom rfl)
  obtain ⟨hfl, hfr⟩ := hP.bothSides_place placement (t := .falseType) (hP.atom rfl)
  exact ⟨hP.fuseBool (hP.unionOf (by simp [htl, hfl])),
    hP.fuseBool (hP.unionOf (by simp [htr, hfr]))⟩

/-- A split has the property on both sides if it has on those of aliases. -/
theorem bothSides_splitWith (honAlias : ∀ t, I t → (∀ ms, t ≠ .union ms) → BothSides P (onAlias t))
    {t : Ty} (ht : I t) : BothSides P (splitWith onAlias placement t) := by
  induction t using Ty.inductionOnParts with
  | step t ih =>
    cases t with
    | union ms =>
      rw [splitWith, splitMembers_eq_map]
      exact hP.bothSides_unionOf fun m hm => ih m hm (hP.member ht hm)
    | named kind name args =>
      cases kind with
      | aliasOf => exact honAlias _ ht (by simp)
      | _ => exact hP.bothSides_place placement (hP.whole ht (by simp))
    | bool => exact hP.bothSides_placeBool
    | logic question => exact hP.bothSides_placeBool
    | _ => exact hP.bothSides_place placement (hP.whole ht (by simp))

/-- A split within so many steps has the property on both sides. -/
theorem bothSides_splitWithin (depth : Nat) {t : Ty} (ht : I t) :
    BothSides P (T.splitWithin placement depth t) := by
  induction depth generalizing t with
  | zero =>
    exact hP.bothSides_splitWith (fun u hu hne => hP.bothSides_place _ (hP.whole hu hne)) ht
  | succ depth ih =>
    refine hP.bothSides_splitWith (fun u hu hne => ?_) ht
    split
    · exact ih (hP.expansion hu ‹_›)
    · exact ⟨hP.whole hu hne, hP.whole hu hne⟩

/-- So has the split by truth. -/
theorem splitByTruth {t : Ty} (ht : I t) : BothSides P (T.splitByTruth t) :=
  hP.bothSides_splitWithin splitDepth ht

/-- So has the split by `nil`. -/
theorem splitByNil {t : Ty} (ht : I t) : BothSides P (T.splitByNil t) :=
  (hP.bothSides_splitWithin splitDepth ht).symm

end Truth

/-! ## By class -/

section Class

variable {target : Ty} (htarget : P target) {onAlias : Ty → Ty × Ty}

include htarget

/-- A leaf that is split by a class has the property on both sides. -/
theorem bothSides_leafByClass {t : Ty} (ht : P t) : BothSides P (T.leafByClass target t) := by
  have hbot : P .bot := hP.atom rfl
  unfold leafByClass
  split
  · exact ⟨ht, hbot⟩
  · split
    · exact ⟨htarget, ht⟩
    · exact ⟨hbot, ht⟩

/-- A split by a class has it if it has on those of aliases. -/
theorem bothSides_byClassWith
    (honAlias : ∀ t, I t → (∀ ms, t ≠ .union ms) → BothSides P (onAlias t)) {t : Ty} (ht : I t) :
    BothSides P (T.byClassWith target onAlias t) := by
  induction t using Ty.inductionOnParts with
  | step t ih =>
    cases t with
    | union ms =>
      rw [byClassWith, byClassMembers_eq_map]
      exact hP.bothSides_unionOf fun m hm => ih m hm (hP.member ht hm)
    | named kind name args =>
      cases kind with
      | aliasOf => exact honAlias _ ht (by simp)
      | _ => exact hP.bothSides_leafByClass htarget (hP.whole ht (by simp))
    | untyped => exact ⟨htarget, hP.atom rfl⟩
    | top => exact ⟨htarget, hP.atom rfl⟩
    | bot => exact ⟨hP.atom rfl, hP.atom rfl⟩
    | _ => exact hP.bothSides_leafByClass htarget (hP.whole ht (by simp))

/-- A split by a class within so many steps has the property on both sides. -/
theorem bothSides_byClassWithin (depth : Nat) {t : Ty} (ht : I t) :
    BothSides P (T.byClassWithin target depth t) := by
  have hbot : P .bot := hP.atom rfl
  induction depth generalizing t with
  | zero => exact hP.bothSides_byClassWith htarget (fun u hu hne => ⟨hbot, hP.whole hu hne⟩) ht
  | succ depth ih =>
    refine hP.bothSides_byClassWith htarget (fun u hu hne => ?_) ht
    split
    · have hsides := ih (hP.expansion hu ‹_›)
      unfold keepAlias
      split
      · exact ⟨hbot, hP.whole hu hne⟩
      · exact hsides
    · exact ⟨hbot, hP.whole hu hne⟩

omit htarget in
/-- So has the split by a class if the instance of the class has it. -/
theorem splitByClass {name : TypeName} (htarget : P (T.untypedInstance name)) {t : Ty} (ht : I t) :
    BothSides P (T.splitByClass t name) :=
  hP.bothSides_byClassWithin htarget _ ht

end Class

/-! ## By value and by ancestor -/

/-- The part that can equal a literal has the property if that of aliases has. -/
theorem equalPartWith {value : Literal} {onAlias : Ty → Ty} (honAlias : ∀ t, I t → P (onAlias t))
    {t : Ty} (ht : I t) : P (T.equalPartWith value onAlias t) := by
  have hliteral : P (.literal value) := hP.atom rfl
  have hleaf : ∀ u, P (if T.isSubtype (.literal value) u then .literal value else .bot) := by
    intro u
    split
    · exact hliteral
    · exact hP.atom rfl
  induction t using Ty.inductionOnParts with
  | step t ih =>
    cases t with
    | union ms =>
      rw [Table.equalPartWith, equalPartMembers_eq_map]
      refine hP.unionOf fun u hu => ?_
      obtain ⟨m, hm, rfl⟩ := List.mem_map.mp hu
      exact ih m hm (hP.member ht hm)
    | named kind name args =>
      cases kind with
      | aliasOf => exact honAlias _ ht
      | _ => exact hleaf _
    | untyped => exact hliteral
    | top => exact hliteral
    | _ =>
      unfold Table.equalPartWith
      exact hleaf _

/-- The same within so many steps. -/
theorem equalPartWithin {value : Literal} (depth : Nat) {t : Ty} (ht : I t) :
    P (T.equalPartWithin value depth t) := by
  have hbot : P .bot := hP.atom rfl
  induction depth generalizing t with
  | zero => exact hP.equalPartWith (fun _ _ => hbot) ht
  | succ depth ih =>
    refine hP.equalPartWith (fun u hu => ?_) ht
    split
    · exact ih (hP.expansion hu ‹_›)
    · exact hbot

/-- The part that can equal a literal has the property. -/
theorem equalPart {t : Ty} (ht : I t) (value : Literal) : P (T.equalPart t value) :=
  hP.equalPartWithin _ ht

/-- Unfolding some times keeps what is handed down. -/
theorem unfoldTimes {n : Nat} {t : Ty} (ht : I t) : I (T.unfoldTimes n t) := by
  induction n generalizing t with
  | zero => exact ht
  | succ n ih =>
    unfold Table.unfoldTimes
    split
    · exact ih (hP.expansion ht ‹_›)
    · exact ht

/-- So does unfolding to the end. -/
theorem unfoldHead {t : Ty} (ht : I t) : I (T.unfoldHead t) :=
  hP.unfoldTimes ht

/-- The part below an ancestor has the property, within so many steps. -/
theorem belowPartWithin {ancestor : Ty} (hancestor : P ancestor) (depth : Nat) {t : Ty} (ht : I t) :
    P (T.belowPartWithin ancestor depth t) := by
  induction depth generalizing t with
  | zero => exact hP.atom rfl
  | succ depth ih =>
    have hhead := hP.unfoldHead ht
    unfold Table.belowPartWithin
    split
    · rename_i ms hms
      rw [hms] at hhead
      refine hP.unionOf fun u hu => ?_
      obtain ⟨m, hm, rfl⟩ := List.mem_map.mp hu
      exact ih (hP.member hhead hm)
    · split
      · exact hP.whole hhead ‹_›
      · split
        · exact hancestor
        · exact hP.atom rfl

/-- The part below an ancestor has the property. -/
theorem belowPart {t ancestor : Ty} (ht : I t) (hancestor : P ancestor) :
    P (T.belowPart t ancestor) :=
  hP.belowPartWithin hancestor _ ht

end HandsDown
end Table
end TypeShape
