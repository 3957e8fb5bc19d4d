import TypeShape.Callable
import TypeShape.Literal

/-!
# Types

The types of a gradually typed object language: placeholders relative to a receiver, the
untyped, top, bottom, void, nil and boolean types, applications of named classes, interfaces and
aliases, class objects, unions, intersections, literals, tuples, records, procs, type variables
and the result types of predicates.

Two types are equal (`==`) when they have the same form, except that the members of a union or
intersection are compared as sets: the order in which they were found is kept for printing only.

Main definitions: `Ty`, `Ty.beq` and the `BEq` instances built from it.
-/

namespace TypeShape

/-- The three types that depend on the receiver of a call: the receiver itself, an instance of
its class, and its class. -/
inductive Slot where
  | selfType
  | instanceType
  | classType
deriving DecidableEq, Inhabited

/-- The word a placeholder is written with. -/
def Slot.word : Slot → String
  | selfType => "self"
  | instanceType => "instance"
  | classType => "class"

/-- What a named type is an application of: a class or module, an interface, or an alias. -/
inductive Nominal where
  | instanceOf
  | interfaceOf
  | aliasOf
deriving DecidableEq, Inhabited

/-- The question that a predicate answers about its receiver or argument. -/
inductive Question where
  | receiverIsArg
  | receiverIsNil
  | receiverIsNotNil
  | argIsReceiver
  | argEqualsReceiver
  | argIsAncestor
  | not
  | base
deriving DecidableEq, Inhabited

/-- The word for a question. -/
def Question.word : Question → String
  | receiverIsArg => "receiver_is_arg"
  | receiverIsNil => "receiver_is_nil"
  | receiverIsNotNil => "receiver_is_not_nil"
  | argIsReceiver => "arg_is_receiver"
  | argEqualsReceiver => "arg_equals_receiver"
  | argIsAncestor => "arg_is_ancestor"
  | not => "not"
  | base => "base"

/-- A type.  The fields of a record are listed in key order. -/
inductive Ty where
  | slot (slot : Slot)
  | untyped
  | top
  | bot
  | void
  | nil
  | bool
  | named (kind : Nominal) (name : TypeName) (args : List Ty)
  | singleton (name : TypeName)
  | union (members : List Ty)
  | inter (members : List Ty)
  | literal (value : Literal)
  | tuple (items : List Ty)
  | record (fields : List (Literal × Ty))
  | proc (callable : Callable Ty)
  | var (name : String)
  | logic (question : Question)
deriving Inhabited

namespace Ty

/-- An instance of a class without type arguments. -/
def ofClass (name : TypeName) : Ty :=
  named .instanceOf name []

/-- The type whose only value is `true`. -/
def trueType : Ty :=
  literal (.boolean true)

/-- The type whose only value is `false`. -/
def falseType : Ty :=
  literal (.boolean false)

/-- The type is `untyped`. -/
def isUntyped : Ty → Bool
  | untyped => true
  | _ => false

/-! ## Equality -/

mutual

/-- Equality of types; unions and intersections are compared as sets of members. -/
def beq : Ty → Ty → Bool
  | slot a, slot b => a == b
  | untyped, untyped => true
  | top, top => true
  | bot, bot => true
  | void, void => true
  | nil, nil => true
  | bool, bool => true
  | named k n as, named l m bs => k == l && n == m && beqList as bs
  | singleton a, singleton b => a == b
  | union as, union bs => as.length == bs.length && subset as bs
  | inter as, inter bs => as.length == bs.length && subset as bs
  | literal a, literal b => a == b
  | tuple as, tuple bs => beqList as bs
  | record as, record bs => beqFields as bs
  | proc a, proc b => beqCallable a b
  | var a, var b => a == b
  | logic a, logic b => a == b
  | _, _ => false
termination_by structural a => a

/-- Equality position by position. -/
def beqList : List Ty → List Ty → Bool
  | [], [] => true
  | a :: as, b :: bs => beq a b && beqList as bs
  | _, _ => false
termination_by structural as => as

/-- Every type of the first list is equal to one of the second. -/
def subset : List Ty → List Ty → Bool
  | [], _ => true
  | a :: as, bs => bs.any (beq a) && subset as bs
termination_by structural as => as

/-- Equality of record fields in key order. -/
def beqFields : List (Literal × Ty) → List (Literal × Ty) → Bool
  | [], [] => true
  | (k, a) :: as, (l, b) :: bs => k == l && beq a b && beqFields as bs
  | _, _ => false
termination_by structural as => as

/-- Equality of keyword parameters in the order of their names. -/
def beqKeywords : List (String × Ty) → List (String × Ty) → Bool
  | [], [] => true
  | (k, a) :: as, (l, b) :: bs => k == l && beq a b && beqKeywords as bs
  | _, _ => false
termination_by structural as => as

/-- Equality of types that may be missing. -/
def beqOption : Option Ty → Option Ty → Bool
  | none, none => true
  | some a, some b => beq a b
  | _, _ => false
termination_by structural a => a

/-- Equality of parameter lists. -/
def beqParams : Params Ty → Params Ty → Bool
  | ⟨ra, oa, sa, ka, pa, ta⟩, ⟨rb, ob, sb, kb, pb, tb⟩ =>
    beqList ra rb && beqList oa ob && beqOption sa sb && beqKeywords ka kb &&
      beqKeywords pa pb && beqOption ta tb
termination_by structural p => p

/-- Equality of arrows. -/
def beqArrow : Arrow Ty → Arrow Ty → Bool
  | ⟨p, a⟩, ⟨q, b⟩ => beqParams p q && beq a b
termination_by structural a => a

/-- Equality of blocks. -/
def beqBlock : Block Ty → Block Ty → Bool
  | ⟨a, o, r⟩, ⟨b, o', r'⟩ => beqArrow a b && o == o' && beqOption r r'
termination_by structural b => b

/-- Equality of blocks that may be missing. -/
def beqBlockOption : Option (Block Ty) → Option (Block Ty) → Bool
  | none, none => true
  | some a, some b => beqBlock a b
  | _, _ => false
termination_by structural b => b

/-- Equality of callables. -/
def beqCallable : Callable Ty → Callable Ty → Bool
  | ⟨a, b⟩, ⟨a', b'⟩ => beqArrow a a' && beqBlockOption b b'
termination_by structural c => c

end

instance : BEq Ty :=
  ⟨beq⟩

/-- One list of members is inside another when each member has an equal one there. -/
theorem subset_eq_all (as bs : List Ty) : subset as bs = as.all fun a => bs.any (a == ·) := by
  induction as with
  | nil => rfl
  | cons a as ih => simp only [subset, List.all_cons, ih]; rfl

instance : BEq (Params Ty) :=
  ⟨beqParams⟩

instance : BEq (Arrow Ty) :=
  ⟨beqArrow⟩

instance : BEq (Block Ty) :=
  ⟨beqBlock⟩

instance : BEq (Callable Ty) :=
  ⟨beqCallable⟩

end Ty
end TypeShape
