import TypeShape.Proofs.Types.Parts

/-!
# Properties of every node

Many properties of types say the same of every node: that members are distinct, that unions are in
normal form, that no placeholder occurs.  `Ty.all` runs one test at every node, so such properties
can be computed; proofs read it through the parts of a type.

Main results:

- Theorem `Ty.all_iff`: a test passes everywhere in a type when it passes at the type itself and
  everywhere in its parts.
- Theorem `Ty.all_mono`: a weaker test passes wherever a stronger one does.
-/

namespace TypeShape
namespace Ty

mutual

/-- A test passes at every node of a type. -/
def all (test : Ty → Bool) : Ty → Bool
  | named kind name args => test (named kind name args) && allList test args
  | union ms => test (union ms) && allList test ms
  | inter ms => test (inter ms) && allList test ms
  | tuple items => test (tuple items) && allList test items
  | record fields => test (record fields) && allFields test fields
  | proc c => test (proc c) && allCallable test c
  | slot s => test (slot s)
  | untyped => test untyped
  | top => test top
  | bot => test bot
  | void => test void
  | nil => test nil
  | bool => test bool
  | singleton name => test (singleton name)
  | literal value => test (literal value)
  | var name => test (var name)
  | logic question => test (logic question)
termination_by structural t => t

/-- A test passes everywhere in a list of types. -/
def allList (test : Ty → Bool) : List Ty → Bool
  | [] => true
  | t :: ts => all test t && allList test ts
termination_by structural ts => ts

/-- A test passes everywhere in the fields of a record. -/
def allFields (test : Ty → Bool) : List (Literal × Ty) → Bool
  | [] => true
  | (_, t) :: fs => all test t && allFields test fs
termination_by structural fs => fs

/-- A test passes everywhere in keyword parameters. -/
def allKeywords (test : Ty → Bool) : List (String × Ty) → Bool
  | [] => true
  | (_, t) :: ks => all test t && allKeywords test ks
termination_by structural ks => ks

/-- A test passes everywhere in a type that may be missing. -/
def allOption (test : Ty → Bool) : Option Ty → Bool
  | none => true
  | some t => all test t
termination_by structural t => t

/-- A test passes everywhere in a parameter list. -/
def allParams (test : Ty → Bool) : Params Ty → Bool
  | ⟨r, o, s, k, p, t⟩ =>
    allList test r && allList test o && allOption test s && allKeywords test k &&
      allKeywords test p && allOption test t
termination_by structural p => p

/-- A test passes everywhere in an arrow. -/
def allArrow (test : Ty → Bool) : Arrow Ty → Bool
  | ⟨p, t⟩ => allParams test p && all test t
termination_by structural a => a

/-- A test passes everywhere in a block. -/
def allBlock (test : Ty → Bool) : Block Ty → Bool
  | ⟨a, _, r⟩ => allArrow test a && allOption test r
termination_by structural b => b

/-- A test passes everywhere in a block that may be missing. -/
def allBlockOption (test : Ty → Bool) : Option (Block Ty) → Bool
  | none => true
  | some b => allBlock test b
termination_by structural b => b

/-- A test passes everywhere in a callable. -/
def allCallable (test : Ty → Bool) : Callable Ty → Bool
  | ⟨a, b⟩ => allArrow test a && allBlockOption test b
termination_by structural c => c

end

/-! ### Tests over containers -/

/-- A test on the types of a list, everywhere, is one on each of them. -/
theorem allList_eq_all (test : Ty → Bool) (ts : List Ty) : allList test ts = ts.all (all test) := by
  induction ts with
  | nil => rfl
  | cons t ts ih => simp only [allList, List.all_cons, ih]

/-- The same for record fields. -/
theorem allFields_eq_all (test : Ty → Bool) (fs : List (Literal × Ty)) :
    allFields test fs = (fs.map (·.2)).all (all test) := by
  induction fs with
  | nil => rfl
  | cons f fs ih => simp only [allFields, List.map_cons, List.all_cons, ih]

/-- The same for keywords. -/
theorem allKeywords_eq_all (test : Ty → Bool) (ks : List (String × Ty)) :
    allKeywords test ks = (ks.map (·.2)).all (all test) := by
  induction ks with
  | nil => rfl
  | cons k ks ih => simp only [allKeywords, List.map_cons, List.all_cons, ih]

/-- The same for an optional type. -/
theorem allOption_eq_all (test : Ty → Bool) (t : Option Ty) :
    allOption test t = t.toList.all (all test) := by
  cases t <;> simp [allOption]

/-- The same for an arrow. -/
theorem allArrow_eq_all (test : Ty → Bool) (a : Arrow Ty) :
    allArrow test a = a.toList.all (all test) := by
  obtain ⟨⟨r, o, s, k, p, t⟩, u⟩ := a
  simp only [allArrow, allParams, Arrow.toList, Params.toList, List.all_append, List.all_cons,
    List.all_nil, Bool.and_true, allList_eq_all, allKeywords_eq_all, allOption_eq_all]

/-- The same for a block. -/
theorem allBlock_eq_all (test : Ty → Bool) (b : Block Ty) :
    allBlock test b = b.toList.all (all test) := by
  cases b
  simp only [allBlock, Block.toList, List.all_append, allArrow_eq_all, allOption_eq_all]

/-- The same for a callable. -/
theorem allCallable_eq_all (test : Ty → Bool) (c : Callable Ty) :
    allCallable test c = c.toList.all (all test) := by
  obtain ⟨a, b⟩ := c
  cases b <;> simp [allCallable, allBlockOption, Callable.toList, allArrow_eq_all, allBlock_eq_all]

/-! ### Reading a test through the parts -/

/-- A test holds everywhere in a type if it holds of the type and everywhere in its parts. -/
theorem all_eq (test : Ty → Bool) (t : Ty) : t.all test = (test t && t.parts.all (all test)) := by
  cases t <;> simp [all, parts, allList_eq_all, allFields_eq_all, allCallable_eq_all]

/-- A test passes everywhere in a type when it passes at the type and everywhere in its parts. -/
theorem all_iff {test : Ty → Bool} {t : Ty} :
    t.all test = true ↔ test t = true ∧ ∀ u ∈ t.parts, u.all test = true := by
  rw [all_eq, Bool.and_eq_true, List.all_eq_true]

/-- A test that passes everywhere in a type passes at the type. -/
theorem all_here {test : Ty → Bool} {t : Ty} (h : t.all test = true) : test t = true :=
  (all_iff.mp h).1

/-- A test that passes everywhere in a type passes everywhere in its parts. -/
theorem all_part {test : Ty → Bool} {t u : Ty} (h : t.all test = true) (hu : u ∈ t.parts) :
    u.all test = true :=
  (all_iff.mp h).2 u hu

/-- A weaker test passes wherever a stronger one does. -/
theorem all_mono {strong weak : Ty → Bool} (himp : ∀ t, strong t = true → weak t = true) {t : Ty}
    (h : t.all strong = true) : t.all weak = true := by
  induction t using inductionOnParts with
  | step t ih =>
    refine all_iff.mpr ⟨himp t (all_here h), ?_⟩
    intro u hu
    exact ih u hu (all_part h hu)

/-- Two tests hold everywhere if each does. -/
theorem all_and_iff {left right : Ty → Bool} {t : Ty} :
    t.all (fun u => left u && right u) = true ↔ t.all left = true ∧ t.all right = true := by
  induction t using inductionOnParts with
  | step t ih =>
    rw [all_iff, all_iff, all_iff, Bool.and_eq_true]
    constructor
    · rintro ⟨⟨hleft, hright⟩, hparts⟩
      exact ⟨⟨hleft, fun u hu => ((ih u hu).mp (hparts u hu)).1⟩, hright,
        fun u hu => ((ih u hu).mp (hparts u hu)).2⟩
    · rintro ⟨⟨hleft, hpartsLeft⟩, hright, hpartsRight⟩
      exact ⟨⟨hleft, hright⟩, fun u hu => (ih u hu).mpr ⟨hpartsLeft u hu, hpartsRight u hu⟩⟩

end Ty
end TypeShape
