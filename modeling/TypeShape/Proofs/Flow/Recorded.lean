import TypeShape.Flow.Branches
import TypeShape.Proofs.Failure

/-!
# Where conditions fail

Following a condition asks for the recorded types of some of the expressions in it, in an order that
depends on the recorded types but not on the environment or the declarations.  It fails exactly if
one of them is not recorded, and it names the first such.

Main results:

- Theorem `Flow.asks_follow`: a condition fails at the first expression without a type that it asks
  about.
- Theorem `Flow.exists_node_of_mem_asked`: it asks only about expressions in it.
- Theorem `Flow.fails_only_unrecorded`: where conditions and case expressions fail.
-/

namespace TypeShape

/-! ## Expressions inside an expression -/

namespace Expr

mutual

/-- The expressions in the tree of an expression: itself, its assigned value, receiver, arguments,
operands, scrutinee or body, and what is in their trees.  The patterns and bodies of clauses are not
part of the condition. -/
def nodes : Expr → List Expr
  | .var id name => [.var id name]
  | .assign id name value => .assign id name value :: nodes value
  | .multiAssign id targets value => .multiAssign id targets value :: nodes value
  | .literal id value => [.literal id value]
  | .const id name => [.const id name]
  | .call id receiver method args =>
    .call id receiver method args :: (nodesOption receiver ++ nodesList args)
  | .and id left right => .and id left right :: (nodes left ++ nodes right)
  | .or id left right => .or id left right :: (nodes left ++ nodes right)
  | .case id scrutinee clauses otherwise =>
    .case id scrutinee clauses otherwise :: nodesOption scrutinee
  | .seq id body => .seq id body :: nodesList body
  | .other id => [.other id]
termination_by structural n => n

/-- The expressions in the tree of an expression that may be missing. -/
def nodesOption : Option Expr → List Expr
  | none => []
  | some n => nodes n
termination_by structural n => n

/-- The expressions in the trees of some expressions. -/
def nodesList : List Expr → List Expr
  | [] => []
  | n :: ns => nodes n ++ nodesList ns
termination_by structural ns => ns

end

/-- An expression is in its own tree. -/
theorem self_mem_nodes (n : Expr) : n ∈ n.nodes := by
  cases n <;> exact List.mem_cons_self

/-- The trees of some expressions hold the tree of each. -/
theorem mem_nodesList {ns : List Expr} {n m : Expr} (hn : n ∈ ns) (hm : m ∈ n.nodes) :
    m ∈ nodesList ns := by
  induction ns with
  | nil => cases hn
  | cons n' ns ih =>
    rcases List.mem_cons.mp hn with rfl | hn
    · exact List.mem_append_left _ hm
    · exact List.mem_append_right _ (ih hn)

end Expr

/-! ## Asking for recorded types -/

namespace Typing

/-- No type is recorded under the number. -/
def lacks (s : Typing) (id : Nat) : Bool :=
  (Keyed.get? id s.types).isNone

/-- A missing type is reported. -/
theorem typeOf_of_lacks {s : Typing} {id : Nat} (h : s.lacks id = true) :
    s.typeOf id = .error (.unrecorded id) := by
  rw [typeOf, Option.isNone_iff_eq_none.mp h]

/-- A type that is not missing is found. -/
theorem exists_typeOf_of_not_lacks {s : Typing} {id : Nat} (h : s.lacks id = false) :
    ∃ t, s.typeOf id = .ok t := by
  obtain ⟨t, ht⟩ := Option.isSome_iff_exists.mp (Option.isNone_eq_false_iff.mp h)
  exact ⟨t, by rw [typeOf, ht]⟩

/-- A type that is found is not missing. -/
theorem lacks_eq_false_of_typeOf {s : Typing} {id : Nat} {t : Ty} (h : s.typeOf id = .ok t) :
    s.lacks id = false := by
  rw [Bool.eq_false_iff]
  intro hlacks
  rw [typeOf_of_lacks hlacks] at h
  cases h

/-- A computation that fails exactly if one of some numbers has no recorded type, and then names the
first such number. -/
def Asks {α : Type} (s : Typing) (ids : List Nat) (x : Except FlowError α) : Prop :=
  (∀ id, ids.find? s.lacks = some id → x = .error (.unrecorded id)) ∧
    (ids.find? s.lacks = none → ∃ a, x = .ok a)

namespace Asks

variable {α β : Type} {s : Typing} {ids ids' : List Nat} {x : Except FlowError α}

/-- An answer asks for nothing. -/
theorem ok (a : α) : s.Asks [] (.ok a) :=
  ⟨by simp, fun _ => ⟨a, rfl⟩⟩

/-- A computation and one that uses its answer ask for what both ask for, in order. -/
theorem bind {f : α → Except FlowError β} (hx : s.Asks ids x)
    (hf : ∀ a, x = .ok a → s.Asks ids' (f a)) : s.Asks (ids ++ ids') (x >>= f) := by
  cases hfind : ids.find? s.lacks with
  | some id =>
    rw [hx.1 id hfind]
    simp [Asks, List.find?_append, hfind, Bind.bind, Except.bind]
  | none =>
    obtain ⟨a, ha⟩ := hx.2 hfind
    rw [Asks, List.find?_append, hfind, Option.none_or, ha]
    exact hf a ha

/-- What is made of an answer asks for nothing more. -/
theorem map {f : α → β} (hx : s.Asks ids x) : s.Asks ids (do return f (← x)) := by
  have h := hx.bind fun a _ => ok (f a)
  rwa [List.append_nil] at h

/-- Looking up a type asks for it. -/
theorem typeOf (id : Nat) : s.Asks [id] (s.typeOf id) := by
  cases hlacks : s.lacks id with
  | true => simp [Asks, hlacks, typeOf_of_lacks hlacks]
  | false => simpa [Asks, hlacks] using exists_typeOf_of_not_lacks hlacks

/-- What is asked next may depend on the type that is recorded. -/
theorem typeOf_bind {id : Nat} {f : Ty → Except FlowError α}
    (hf : ∀ t, s.typeOf id = .ok t → s.Asks ids (f t)) : s.Asks (id :: ids) (s.typeOf id >>= f) :=
  (typeOf id).bind hf

/-- The failure names the first number without a type. -/
theorem eq_error_iff (hx : s.Asks ids x) {e : FlowError} :
    x = .error e ↔ ∃ id, ids.find? s.lacks = some id ∧ e = .unrecorded id := by
  cases hfind : ids.find? s.lacks with
  | some id => simp [hx.1 id hfind, eq_comm]
  | none =>
    obtain ⟨a, ha⟩ := hx.2 hfind
    simp [ha]

/-- If everything that is asked for is recorded the computation succeeds. -/
theorem exists_ok (hx : s.Asks ids x) (h : ∀ id ∈ ids, ∃ t, s.typeOf id = .ok t) :
    ∃ a, x = .ok a := by
  refine hx.2 (List.find?_eq_none.mpr fun id hid => ?_)
  obtain ⟨t, ht⟩ := h id hid
  simp [lacks_eq_false_of_typeOf ht]

/-- If it fails, the number that it names was asked for and is not recorded. -/
theorem typeOf_eq_error (hx : s.Asks ids x) {id : Nat} (h : x = .error (.unrecorded id)) :
    id ∈ ids ∧ s.typeOf id = .error (.unrecorded id) := by
  obtain ⟨id', hfind, heq⟩ := hx.eq_error_iff.mp h
  obtain rfl := FlowError.unrecorded.inj heq
  exact ⟨List.mem_of_find?_eq_some hfind, typeOf_of_lacks (List.find?_some hfind)⟩

end Asks
end Typing

namespace Flow

open Typing (Asks)

variable {K : Flow}

/-! ## What is asked for -/

/-- A test against a class asks for the class, and for the subject if there is one. -/
def askedByClassTest (K : Flow) (subject other : Expr) : List Nat :=
  other.id ::
    match K.typing.typeOf other.id with
    | .ok (.singleton _) => [subject.id]
    | _ => []

/-- What a call of a predicate other than negation asks for. -/
def askedByPredicate (K : Flow) (question : Question) (receiver : Expr) (args : List Expr) :
    List Nat :=
  match question, args with
  | .receiverIsNil, _ => [receiver.id]
  | .receiverIsNotNil, _ => [receiver.id]
  | .receiverIsArg, arg :: _ => K.askedByClassTest receiver arg
  | .argIsReceiver, arg :: _ => K.askedByClassTest arg receiver
  | .argEqualsReceiver, arg :: _ => [receiver.id, arg.id]
  | .argIsAncestor, arg :: _ => K.askedByClassTest receiver arg
  | _, _ => []

mutual

/-- The numbers whose recorded types a condition asks for, in order. -/
def asked (K : Flow) : Expr → List Nat
  | .var id _ => [id]
  | .assign id _ value => asked K value ++ [id]
  | .multiAssign id _ value => asked K value ++ [id]
  | .call id none _ _ => [id]
  | .call id (some receiver) _ args =>
    id ::
      match K.typing.typeOf id with
      | .ok (.logic .not) => asked K receiver
      | .ok (.logic question) => K.askedByPredicate question receiver args
      | _ => []
  | .and _ left right => asked K left ++ asked K right
  | .or _ left right => asked K left ++ asked K right
  | .seq _ body => askedLast K body
  | .literal id _ => [id]
  | .const id _ => [id]
  | .case id _ _ _ => [id]
  | .other id => [id]
termination_by structural n => n

/-- What the last of some expressions asks for. -/
def askedLast (K : Flow) : List Expr → List Nat
  | [] => []
  | [n] => asked K n
  | _ :: n :: ns => askedLast K (n :: ns)
termination_by structural ns => ns

end

/-- What a case expression asks for. -/
def askedByCase : Expr → List Nat
  | .case _ (some scrutinee) _ _ => [scrutinee.id]
  | _ => []

/-! ## Predicates -/

/-- A class test asks for the class and the subject. -/
theorem asks_followClassTest (subject other : Expr) (env : Env) :
    K.typing.Asks (K.askedByClassTest subject other) (K.followClassTest subject other env) := by
  refine Asks.typeOf_bind fun t ht => ?_
  rw [ht]
  cases t with
  | singleton name => exact (Asks.typeOf subject.id).map
  | _ => exact Asks.ok _

/-- An equality asks for both sides. -/
theorem asks_followEquality (receiver arg : Expr) (env : Env) :
    K.typing.Asks [receiver.id, arg.id] (K.followEquality receiver arg env) :=
  Asks.typeOf_bind fun _ _ => (Asks.typeOf arg.id).map

/-- An ancestor test asks for what a class test does. -/
theorem asks_followAncestorTest (receiver arg : Expr) (env : Env) :
    K.typing.Asks (K.askedByClassTest receiver arg) (K.followAncestorTest receiver arg env) := by
  refine Asks.typeOf_bind fun t ht => ?_
  rw [ht]
  cases t with
  | singleton name => exact (Asks.typeOf receiver.id).map
  | _ => exact Asks.ok _

/-- A predicate asks for what its test does. -/
theorem asks_followPredicate (question : Question) (receiver : Expr) (args : List Expr)
    (env : Env) :
    K.typing.Asks (K.askedByPredicate question receiver args)
      (K.followPredicate question receiver args env) := by
  cases question with
  | receiverIsNil => exact (Asks.typeOf receiver.id).map
  | receiverIsNotNil => exact (Asks.typeOf receiver.id).map
  | receiverIsArg =>
    cases args with
    | nil => exact Asks.ok _
    | cons arg _ => exact asks_followClassTest receiver arg env
  | argIsReceiver =>
    cases args with
    | nil => exact Asks.ok _
    | cons arg _ => exact asks_followClassTest arg receiver env
  | argEqualsReceiver =>
    cases args with
    | nil => exact Asks.ok _
    | cons arg _ => exact asks_followEquality receiver arg env
  | argIsAncestor =>
    cases args with
    | nil => exact Asks.ok _
    | cons arg _ => exact asks_followAncestorTest receiver arg env
  | base => exact Asks.ok _
  | not => exact Asks.ok _

/-! ## Conditions -/

mutual

/-- A condition fails at the first expression without a type that it asks about. -/
theorem asks_follow : (n : Expr) → (env : Env) → K.typing.Asks (K.asked n) (K.follow n env)
  | .var id _, _ => (Asks.typeOf id).map
  | .assign id _ value, env => (asks_follow value env).bind fun _ _ => (Asks.typeOf id).map
  | .multiAssign id _ value, env => (asks_follow value env).bind fun _ _ => (Asks.typeOf id).map
  | .call id none _ _, _ => by
    refine Asks.typeOf_bind fun t _ => ?_
    cases t <;> exact Asks.ok _
  | .call id (some receiver) _ args, env => by
    refine Asks.typeOf_bind fun t ht => ?_
    rw [ht]
    cases t with
    | logic question =>
      cases question with
      | not => exact (asks_follow receiver env).map
      | _ => exact asks_followPredicate _ receiver args env
    | _ => exact Asks.ok _
  | .and _ left right, env =>
    (asks_follow left env).bind fun l _ => (asks_follow right l.truthyEnv).map
  | .or _ left right, env =>
    (asks_follow left env).bind fun l _ => (asks_follow right l.falsyEnv).map
  | .seq id body, env => asks_followLast id body env
  | .literal id _, _ => (Asks.typeOf id).map
  | .const id _, _ => (Asks.typeOf id).map
  | .case id _ _ _, _ => (Asks.typeOf id).map
  | .other id, _ => (Asks.typeOf id).map
termination_by structural n => n

/-- The last of some expressions asks for what is listed. -/
theorem asks_followLast (id : Nat) : (ns : List Expr) → (env : Env) →
    K.typing.Asks (K.askedLast ns) (K.followLast id ns env)
  | [], _ => Asks.ok _
  | [n], env => asks_follow n env
  | _ :: n :: ns, env => asks_followLast id (n :: ns) env
termination_by structural ns => ns

end

/-- A case expression asks for what is listed. -/
theorem asks_followCase (n : Expr) (env : Env) :
    K.typing.Asks (askedByCase n) (K.followCase env n) := by
  cases n with
  | case id scrutinee clauses otherwise =>
    cases scrutinee with
    | none => exact Asks.ok _
    | some scrutinee => exact (Asks.typeOf scrutinee.id).map
  | _ => exact Asks.ok _

/-! ## What is asked for is in the tree -/

/-- A class test asks for no other expressions. -/
theorem mem_askedByClassTest {subject other : Expr} {id : Nat}
    (h : id ∈ K.askedByClassTest subject other) : id = other.id ∨ id = subject.id := by
  rcases List.mem_cons.mp h with rfl | h
  · exact Or.inl rfl
  · split at h
    · exact Or.inr (List.mem_singleton.mp h)
    · cases h

/-- A predicate asks only for its receiver and its first argument. -/
theorem exists_of_mem_askedByPredicate {question : Question} {receiver : Expr} {args : List Expr}
    {id : Nat} (h : id ∈ K.askedByPredicate question receiver args) :
    ∃ c ∈ receiver :: args, c.id = id := by
  have hreceiver : id = receiver.id → ∃ c ∈ receiver :: args, c.id = id := fun heq =>
    ⟨receiver, List.mem_cons_self, heq.symm⟩
  have harg : ∀ arg ∈ args, id = arg.id → ∃ c ∈ receiver :: args, c.id = id := fun arg hmem heq =>
    ⟨arg, List.mem_cons_of_mem receiver hmem, heq.symm⟩
  unfold askedByPredicate at h
  split at h
  · exact hreceiver (List.mem_singleton.mp h)
  · exact hreceiver (List.mem_singleton.mp h)
  · exact (mem_askedByClassTest h).elim (harg _ List.mem_cons_self) hreceiver
  · exact (mem_askedByClassTest h).elim hreceiver (harg _ List.mem_cons_self)
  · rcases List.mem_cons.mp h with heq | h
    · exact hreceiver heq
    · exact harg _ List.mem_cons_self (List.mem_singleton.mp h)
  · exact (mem_askedByClassTest h).elim (harg _ List.mem_cons_self) hreceiver
  · cases h

/-- An expression is in its tree under its own number. -/
theorem exists_node_self {n : Expr} {id : Nat} (h : id ∈ [n.id]) : ∃ m ∈ n.nodes, m.id = id :=
  ⟨n, n.self_mem_nodes, (List.mem_singleton.mp h).symm⟩

/-- What is asked for inside is asked for in the tree. -/
theorem exists_node_inside {n : Expr} {ns : List Expr} {id : Nat} (hns : ∀ m ∈ ns, m ∈ n.nodes)
    (h : ∃ m ∈ ns, m.id = id) : ∃ m ∈ n.nodes, m.id = id := by
  obtain ⟨m, hm, hid⟩ := h
  exact ⟨m, hns m hm, hid⟩

mutual

/-- A condition asks only about expressions in its tree. -/
theorem exists_node_of_mem_asked : (n : Expr) → {id : Nat} → id ∈ K.asked n →
    ∃ m ∈ n.nodes, m.id = id
  | .var _ _, _, h => exists_node_self h
  | .assign _ _ value, _, h => by
    rcases List.mem_append.mp h with h | h
    · exact exists_node_inside (by simp +contextual [Expr.nodes]) (exists_node_of_mem_asked value h)
    · exact exists_node_self h
  | .multiAssign _ _ value, _, h => by
    rcases List.mem_append.mp h with h | h
    · exact exists_node_inside (by simp +contextual [Expr.nodes]) (exists_node_of_mem_asked value h)
    · exact exists_node_self h
  | .call _ none _ _, _, h => exists_node_self h
  | .call id (some receiver) method args, _, h => by
    have hinside : ∀ c ∈ receiver :: args, ∀ m ∈ c.nodes,
        m ∈ (Expr.call id (some receiver) method args).nodes := fun c hc m hm =>
      List.mem_cons_of_mem _ (Expr.mem_nodesList hc hm)
    rcases List.mem_cons.mp h with rfl | h
    · exact exists_node_self List.mem_cons_self
    · split at h
      · exact exists_node_inside (hinside receiver List.mem_cons_self)
          (exists_node_of_mem_asked receiver h)
      · obtain ⟨c, hc, hid⟩ := exists_of_mem_askedByPredicate h
        exact ⟨c, hinside c hc c c.self_mem_nodes, hid⟩
      · cases h
  | .and _ left right, _, h => by
    rcases List.mem_append.mp h with h | h
    · exact exists_node_inside (by simp +contextual [Expr.nodes]) (exists_node_of_mem_asked left h)
    · exact exists_node_inside (by simp +contextual [Expr.nodes]) (exists_node_of_mem_asked right h)
  | .or _ left right, _, h => by
    rcases List.mem_append.mp h with h | h
    · exact exists_node_inside (by simp +contextual [Expr.nodes]) (exists_node_of_mem_asked left h)
    · exact exists_node_inside (by simp +contextual [Expr.nodes]) (exists_node_of_mem_asked right h)
  | .seq _ body, _, h =>
    exists_node_inside (fun _ hm => List.mem_cons_of_mem _ hm) (exists_node_of_mem_askedLast body h)
  | .literal _ _, _, h => exists_node_self h
  | .const _ _, _, h => exists_node_self h
  | .case _ _ _ _, _, h => exists_node_self h
  | .other _, _, h => exists_node_self h
termination_by structural n => n

/-- The last of some expressions asks for nodes of their trees. -/
theorem exists_node_of_mem_askedLast : (ns : List Expr) → {id : Nat} → id ∈ K.askedLast ns →
    ∃ m ∈ Expr.nodesList ns, m.id = id
  | [], _, h => by cases h
  | [n], _, h => by
    obtain ⟨m, hm, hid⟩ := exists_node_of_mem_asked n h
    exact ⟨m, Expr.mem_nodesList List.mem_cons_self hm, hid⟩
  | _ :: n :: ns, _, h => by
    obtain ⟨m, hm, hid⟩ := exists_node_of_mem_askedLast (n :: ns) h
    exact ⟨m, List.mem_append_right _ hm, hid⟩
termination_by structural ns => ns

end

/-- A case expression asks for nodes of its tree. -/
theorem exists_node_of_mem_askedByCase {n : Expr} {id : Nat} (h : id ∈ askedByCase n) :
    ∃ m ∈ n.nodes, m.id = id := by
  unfold askedByCase at h
  split at h
  · rename_i scrutinee clauses otherwise
    exact ⟨scrutinee, List.mem_cons_of_mem _ scrutinee.self_mem_nodes,
      (List.mem_singleton.mp h).symm⟩
  · cases h

/-! ## Failures -/

/-- If a type is recorded for every expression in the tree, conditions and case expressions can be
followed in every environment, whatever is declared.  A failure names an expression in the tree for
which none is recorded: the first one of those that are asked about. -/
theorem fails_only_unrecorded (K : Flow) (env : Env) (n : Expr) :
    ((∀ m ∈ n.nodes, ∃ t, K.typing.typeOf m.id = .ok t) →
      (∃ e, K.follow n env = .ok e) ∧ ∃ c, K.followCase env n = .ok c) ∧
    (∀ id, K.follow n env = .error (.unrecorded id) ∨
        K.followCase env n = .error (.unrecorded id) →
      (∃ m ∈ n.nodes, m.id = id) ∧ K.typing.typeOf id = .error (.unrecorded id)) ∧
    (∀ e, K.follow n env = .error e ↔
      ∃ id, (K.asked n).find? K.typing.lacks = some id ∧ e = .unrecorded id) ∧
    ∀ e, K.followCase env n = .error e ↔
      ∃ id, (askedByCase n).find? K.typing.lacks = some id ∧ e = .unrecorded id := by
  have hfollow := asks_follow (K := K) n env
  have hcase := asks_followCase (K := K) n env
  refine ⟨fun hrecorded => ⟨?_, ?_⟩, ?_, fun e => hfollow.eq_error_iff,
    fun e => hcase.eq_error_iff⟩
  · refine hfollow.exists_ok fun id hid => ?_
    obtain ⟨m, hm, rfl⟩ := exists_node_of_mem_asked n hid
    exact hrecorded m hm
  · refine hcase.exists_ok fun id hid => ?_
    obtain ⟨m, hm, rfl⟩ := exists_node_of_mem_askedByCase hid
    exact hrecorded m hm
  · rintro id (h | h)
    · obtain ⟨hid, hmissing⟩ := hfollow.typeOf_eq_error h
      exact ⟨exists_node_of_mem_asked n hid, hmissing⟩
    · obtain ⟨hid, hmissing⟩ := hcase.typeOf_eq_error h
      exact ⟨exists_node_of_mem_askedByCase hid, hmissing⟩

/-- The condition `x.is_a?(::Array) && !y.nil?`. -/
def guardCondition : Expr :=
  .and 1 (.call 2 (some (.var 3 "x")) "is_a?" [.const 4 .array])
    (.call 5 (some (.call 6 (some (.var 7 "y")) "nil?" [])) "!" [])

/-- The recorded types of its expressions. -/
def guardTypes : List (Nat × Ty) :=
  [(1, .bool), (2, .logic .receiverIsArg), (3, .union [.nil, .var "T"]), (4, .singleton .array),
    (5, .logic .not), (6, .logic .receiverIsNil), (7, .nil)]

/-- With all types recorded the condition can be followed.  Without those of `x` and of the class it
fails at the class, which it asks about first; without that of `y` it fails there. -/
theorem guardCondition_fails_only :
    (∃ e, Flow.follow ⟨{}, ⟨guardTypes⟩⟩ guardCondition {} = .ok e) ∧
      Flow.follow ⟨{}, ⟨guardTypes.eraseIdx 3 |>.eraseIdx 2⟩⟩ guardCondition {} =
        .error (.unrecorded 4) ∧
      Flow.follow ⟨{}, ⟨guardTypes.take 6⟩⟩ guardCondition {} = .error (.unrecorded 7) := by
  have hrecorded : ∀ m ∈ guardCondition.nodes, Typing.lacks ⟨guardTypes⟩ m.id = false := by decide
  obtain ⟨hok, -⟩ := fails_only_unrecorded ⟨{}, ⟨guardTypes⟩⟩ {} guardCondition
  obtain ⟨-, -, hclass, -⟩ :=
    fails_only_unrecorded ⟨{}, ⟨guardTypes.eraseIdx 3 |>.eraseIdx 2⟩⟩ {} guardCondition
  obtain ⟨-, -, hlast, -⟩ := fails_only_unrecorded ⟨{}, ⟨guardTypes.take 6⟩⟩ {} guardCondition
  refine ⟨(hok fun m hm => Typing.exists_typeOf_of_not_lacks (hrecorded m hm)).1,
    (hclass _).mpr ⟨4, by decide, rfl⟩, (hlast _).mpr ⟨7, by decide, rfl⟩⟩

end Flow
end TypeShape
