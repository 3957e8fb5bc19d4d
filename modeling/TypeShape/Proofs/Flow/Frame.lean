import TypeShape.Proofs.Flow.Env
import TypeShape.Proofs.Flow.NormalForm
import TypeShape.Proofs.Types.Nesting

/-!
# What conditions leave alone

Following a condition changes no entry but those that it lists, and it lists no entry but those that
the condition speaks of: variables that it names, and calls that it makes.  No variable is
forgotten, and no call becomes or stops being pure.

Main results:

- Theorem `Env.Frame.join`: entries that two branches leave alone are left alone where they meet.
- Theorem `Flow.frame_narrow`: what narrowing an expression leaves alone.
- Theorem `Flow.frame_follow`: what a condition leaves alone on both branches.
- Theorem `Flow.follow_changes_only`: the same with all that is said about the entries that change.
-/

namespace TypeShape

/-! ## Entries that an expression speaks of -/

namespace Expr

/-- The expressions directly inside an expression. -/
def children : Expr → List Expr
  | .assign _ _ value => [value]
  | .multiAssign _ _ value => [value]
  | .call _ receiver _ args => receiver.toList ++ args
  | .and _ left right => [left, right]
  | .or _ left right => [left, right]
  | .case _ scrutinee clauses otherwise =>
    scrutinee.toList ++ (clauses.flatMap fun w => w.patterns ++ w.body.toList) ++ otherwise.toList
  | .seq _ body => body
  | _ => []

/-- The entries that an expression itself speaks of: the variables that it names, or the call that
it is. -/
def ownKeys : Expr → List EnvKey
  | .var _ name => [.var name]
  | .assign _ name _ => [.var name]
  | .multiAssign _ targets _ => targets.map .var
  | .call id _ _ _ => [.call id]
  | _ => []

/-- Some expression in the tree speaks of the entry. -/
inductive Mentions : Expr → EnvKey → Prop where
  | own {n : Expr} {key : EnvKey} (h : key ∈ n.ownKeys) : Mentions n key
  | child {n c : Expr} {key : EnvKey} (hc : c ∈ n.children) (h : Mentions c key) : Mentions n key

end Expr

/-! ## Frames -/

namespace Env

/-- An environment has become another one by changes to some entries: all other entries that are in
normal form are as they were, every variable is still there, and the same calls are pure. -/
structure Frame (changed : List EnvKey) (env env' : Env) : Prop where
  same : ∀ key, key ∉ changed → (∀ t, env.lookup key = some t → t.Normal) →
    env'.lookup key = env.lookup key
  vars : ∀ x, (env.lookup (.var x)).isSome → (env'.lookup (.var x)).isSome
  calls : ∀ i, (env'.lookup (.call i)).isSome = (env.lookup (.call i)).isSome
  ordered : env.Ordered → env'.Ordered

namespace Frame

variable {changed changed' : List EnvKey} {env env₁ env₂ : Env}

/-- An environment that is left as it is changes no entry. -/
theorem refl (env : Env) : Frame changed env env :=
  ⟨fun _ _ _ => rfl, fun _ h => h, fun _ => rfl, fun h => h⟩

/-- More entries may have changed. -/
theorem mono (h : Frame changed env env₁) (hsub : ∀ key ∈ changed, key ∈ changed') :
    Frame changed' env env₁ :=
  ⟨fun key hkey => h.same key fun hmem => hkey (hsub key hmem), h.vars, h.calls, h.ordered⟩

/-- What changes only these entries twice changes only these entries. -/
theorem trans (h : Frame changed env env₁) (h' : Frame changed env₁ env₂) :
    Frame changed env env₂ where
  same key hkey hnormal := by
    have heq := h.same key hkey hnormal
    rw [h'.same key hkey (heq ▸ hnormal), heq]
  vars x hx := h'.vars x (h.vars x hx)
  calls i := (h'.calls i).trans (h.calls i)
  ordered henv := h'.ordered (h.ordered henv)

/-- A variable may be set freely, a call only if it is known to be pure. -/
theorem refine {key : EnvKey} (t : Ty) (hmem : key ∈ changed)
    (hcall : ∀ i, key = .call i → (env.lookup key).isSome) :
    Frame changed env (env.refine key t) where
  same key' hkey' _ := by
    rw [lookup_refine, if_neg]
    rintro rfl
    exact hkey' hmem
  vars x hx := by
    rw [lookup_refine]
    split
    · rfl
    · exact hx
  calls i := by
    rw [lookup_refine]
    split
    · rename_i hkey
      subst hkey
      exact (hcall i rfl).symm
    · rfl
  ordered henv := henv.refine key t

/-- Refining a variable changes its entry only. -/
theorem refineVar {x : String} (t : Ty) (hmem : .var x ∈ changed) :
    Frame changed env (env.refine (.var x) t) :=
  .refine t hmem fun i h => by cases h

/-- A joined entry is there if one of the two is. -/
theorem isSome_joinKnown (a b : Option Ty) : (joinKnown a b).isSome = (a.isSome || b.isSome) := by
  cases a <;> cases b <;> rfl

/-- What both branches leave alone is left alone where they meet. -/
theorem join (henv : env.Ordered) (h₁ : Frame changed env env₁) (h₂ : Frame changed env env₂) :
    Frame changed env (env₁.join env₂) where
  same key hkey hnormal := by
    rw [lookup_join (h₂.ordered henv), h₁.same key hkey hnormal, h₂.same key hkey hnormal]
    cases hlookup : env.lookup key with
    | none => rfl
    | some t => exact congrArg some (Ty.unionOf_pair_self (hnormal t hlookup))
  vars x hx := by
    rw [lookup_join (h₂.ordered henv), isSome_joinKnown, h₁.vars x hx, Bool.true_or]
  calls i := by
    rw [lookup_join (h₂.ordered henv), isSome_joinKnown, h₁.calls, h₂.calls, Bool.or_self]
  ordered henv := (h₁.ordered henv).join env₂

end Frame
end Env

/-- What both branches of a condition leave alone, and where the changed entries come from. -/
structure Branches.Frame (env : Env) (mentioned : EnvKey → Prop) (e : Branches) : Prop where
  truthyEnv : Env.Frame e.changed env e.truthyEnv
  falsyEnv : Env.Frame e.changed env e.falsyEnv
  mentioned : ∀ key ∈ e.changed, mentioned key

namespace Branches.Frame

variable {env : Env} {P Q : EnvKey → Prop}

/-- More entries may be mentioned. -/
theorem mono {e : Branches} (h : e.Frame env P) (hPQ : ∀ key, P key → Q key) : e.Frame env Q :=
  ⟨h.truthyEnv, h.falsyEnv, fun key hkey => hPQ key (h.mentioned key hkey)⟩

/-- What an expression inside mentions is mentioned. -/
theorem ofChild {e : Branches} {n c : Expr} (hc : c ∈ n.children) (h : e.Frame env c.Mentions) :
    e.Frame env n.Mentions :=
  h.mono fun _ => .child hc

/-- A condition with one outcome leaves everything alone. -/
theorem alike (env : Env) (t : Ty) : (Branches.alike env t).Frame env P :=
  ⟨.refl env, .refl env, by simp [Branches.alike]⟩

/-- So does one that answers without a refinement. -/
theorem answering_nil : (Branches.answering env env []).Frame env P :=
  ⟨.refl env, .refl env, by simp [Branches.answering]⟩

/-- Negation changes no environment. -/
theorem negate {e : Branches} (h : e.Frame env P) : e.negate.Frame env P :=
  ⟨h.falsyEnv, h.truthyEnv, h.mentioned⟩

/-- A conjunction changes what its conditions change. -/
theorem conj {l r : Branches} (henv : env.Ordered) (hl : l.Frame env P)
    (hr : r.Frame l.truthyEnv P) :
    (l.conj r).Frame env P := by
  have hleft : ∀ key ∈ l.changed, key ∈ (l.conj r).changed := fun key h =>
    Keyed.mem_unionKeys.mpr (Or.inl h)
  have hright : ∀ key ∈ r.changed, key ∈ (l.conj r).changed := fun key h =>
    Keyed.mem_unionKeys.mpr (Or.inr h)
  have htruthy := hl.truthyEnv.mono hleft
  refine ⟨htruthy.trans (hr.truthyEnv.mono hright),
    .join henv (hl.falsyEnv.mono hleft) (htruthy.trans (hr.falsyEnv.mono hright)), ?_⟩
  intro key hkey
  exact (Keyed.mem_unionKeys.mp hkey).elim (hl.mentioned key) (hr.mentioned key)

/-- So does a disjunction. -/
theorem disj {l r : Branches} (henv : env.Ordered) (hl : l.Frame env P)
    (hr : r.Frame l.falsyEnv P) :
    (l.disj r).Frame env P := by
  have hleft : ∀ key ∈ l.changed, key ∈ (l.disj r).changed := fun key h =>
    Keyed.mem_unionKeys.mpr (Or.inl h)
  have hright : ∀ key ∈ r.changed, key ∈ (l.disj r).changed := fun key h =>
    Keyed.mem_unionKeys.mpr (Or.inr h)
  have hfalsy := hl.falsyEnv.mono hleft
  refine ⟨.join henv (hl.truthyEnv.mono hleft) (hfalsy.trans (hr.truthyEnv.mono hright)),
    hfalsy.trans (hr.falsyEnv.mono hright), ?_⟩
  intro key hkey
  exact (Keyed.mem_unionKeys.mp hkey).elim (hl.mentioned key) (hr.mentioned key)

end Branches.Frame

namespace Flow

open TypeShape.Expr (Mentions)

/-! ## Narrowing -/

mutual

/-- Narrowing an expression changes the entries that it lists, and the expression speaks of them. -/
theorem frame_narrow (t : Ty) : (n : Expr) → (env : Env) →
    Env.Frame (narrow n t env).2 env (narrow n t env).1 ∧
      ∀ key ∈ (narrow n t env).2, n.Mentions key
  | .var _ name, env => by
    exact ⟨.refineVar t List.mem_cons_self, fun key hkey => .own hkey⟩
  | .assign id name value, env => by
    obtain ⟨hframe, hmentions⟩ := frame_narrow t value (env.refine (.var name) t)
    constructor
    · exact Env.Frame.trans (.refineVar t List.mem_cons_self)
        (hframe.mono fun key h => List.mem_cons_of_mem _ h)
    · intro key hkey
      rcases List.mem_cons.mp hkey with rfl | hkey
      · exact .own List.mem_cons_self
      · exact .child List.mem_cons_self (hmentions key hkey)
  | .call id _ _ _, env => by
    unfold narrow
    split
    · rename_i hpure
      exact ⟨.refine t List.mem_cons_self fun i _ => hpure, fun key hkey => .own hkey⟩
    · exact ⟨.refl env, by simp⟩
  | .seq _ body, env => by
    obtain ⟨hframe, hmentions⟩ := frame_narrowLast t body env
    refine ⟨hframe, fun key hkey => ?_⟩
    obtain ⟨n, hn, hkey⟩ := hmentions key hkey
    exact .child hn hkey
  | .multiAssign _ _ _, env => ⟨.refl env, by simp [narrow]⟩
  | .literal _ _, env => ⟨.refl env, by simp [narrow]⟩
  | .const _ _, env => ⟨.refl env, by simp [narrow]⟩
  | .and _ _ _, env => ⟨.refl env, by simp [narrow]⟩
  | .or _ _ _, env => ⟨.refl env, by simp [narrow]⟩
  | .case _ _ _ _, env => ⟨.refl env, by simp [narrow]⟩
  | .other _, env => ⟨.refl env, by simp [narrow]⟩
termination_by structural n => n

/-- Narrowing the last expression changes entries that one of them mentions. -/
theorem frame_narrowLast (t : Ty) : (ns : List Expr) → (env : Env) →
    Env.Frame (narrowLast ns t env).2 env (narrowLast ns t env).1 ∧
      ∀ key ∈ (narrowLast ns t env).2, ∃ n ∈ ns, n.Mentions key
  | [], env => ⟨.refl env, by simp [narrowLast]⟩
  | [n], env => by
    obtain ⟨hframe, hmentions⟩ := frame_narrow t n env
    exact ⟨hframe, fun key hkey => ⟨n, List.mem_cons_self, hmentions key hkey⟩⟩
  | m :: n :: ns, env => by
    obtain ⟨hframe, hmentions⟩ := frame_narrowLast t (n :: ns) env
    refine ⟨hframe, fun key hkey => ?_⟩
    obtain ⟨n', hn', hkey⟩ := hmentions key hkey
    exact ⟨n', List.mem_cons_of_mem m hn', hkey⟩
termination_by structural ns => ns

end

/-- So does narrowing an expression in both branches. -/
theorem frame_narrowBoth (env : Env) (n : Expr) (truthy falsy : Ty) :
    (narrowBoth env n truthy falsy).Frame env n.Mentions := by
  obtain ⟨htrue, htrueKeys⟩ := frame_narrow truthy n env
  obtain ⟨hfalse, hfalseKeys⟩ := frame_narrow falsy n env
  refine ⟨htrue.mono fun key h => ?_, hfalse.mono fun key h => ?_, fun key h => ?_⟩
  · exact Keyed.mem_sortKeys.mpr (List.mem_append_left _ h)
  · exact Keyed.mem_sortKeys.mpr (List.mem_append_right _ h)
  · exact (List.mem_append.mp (Keyed.mem_sortKeys.mp h)).elim (htrueKeys key) (hfalseKeys key)

section Follow

variable {K : Flow}

/-- Refining one more entry after an evaluation. -/
theorem frame_branchOn {env : Env} {P : EnvKey → Prop} {key : EnvKey} {t : Ty} {inner : Branches}
    (hinner : inner.Frame env P) (hkey : P key)
    (hcall : ∀ i, key = .call i → (env.lookup key).isSome) :
    (K.branchOn key t inner.truthyEnv inner.falsyEnv inner.changed).Frame env P := by
  have hold : ∀ k ∈ inner.changed, k ∈ Keyed.addKey key inner.changed := fun k h =>
    Keyed.mem_addKey.mpr (Or.inr h)
  have hnew : key ∈ Keyed.addKey key inner.changed := Keyed.mem_addKey.mpr (Or.inl rfl)
  have hpure : ∀ {env' : Env}, Env.Frame inner.changed env env' →
      ∀ i, key = .call i → (env'.lookup key).isSome := by
    rintro env' hframe i rfl
    rw [hframe.calls]
    exact hcall i rfl
  refine ⟨(hinner.truthyEnv.mono hold).trans (.refine _ hnew (hpure hinner.truthyEnv)),
    (hinner.falsyEnv.mono hold).trans (.refine _ hnew (hpure hinner.falsyEnv)), fun k hk => ?_⟩
  rcases Keyed.mem_addKey.mp hk with rfl | hk
  · exact hkey
  · exact hinner.mentioned k hk

/-- A value that is only split leaves everything alone. -/
theorem frame_splitOnly {env : Env} {P : EnvKey → Prop} (t : Ty) :
    (K.splitOnly t env).Frame env P :=
  ⟨.refl env, .refl env, by simp [splitOnly, Branches.alike]⟩

/-! ## Predicates -/

section Predicates

variable {env : Env} {e : Branches}

/-- A class test changes entries that the subject mentions. -/
theorem frame_followClassTest {subject other : Expr}
    (h : K.followClassTest subject other env = .ok e) : e.Frame env subject.Mentions := by
  obtain ⟨u, -, h⟩ := exists_of_bind_ok h
  split at h
  · obtain rfl := Except.ok.inj h
    exact .answering_nil
  · obtain ⟨t, -, h⟩ := exists_of_bind_ok h
    obtain rfl := Except.ok.inj h
    exact frame_narrowBoth env subject _ _

/-- An equality changes entries that its argument mentions. -/
theorem frame_followEquality {receiver arg : Expr}
    (h : K.followEquality receiver arg env = .ok e) : e.Frame env arg.Mentions := by
  obtain ⟨receiverType, -, h⟩ := exists_of_bind_ok h
  obtain ⟨t, -, h⟩ := exists_of_bind_ok h
  obtain rfl := Except.ok.inj h
  exact frame_narrowBoth env arg _ _

/-- An ancestor test changes entries that its receiver mentions. -/
theorem frame_followAncestorTest {receiver arg : Expr}
    (h : K.followAncestorTest receiver arg env = .ok e) : e.Frame env receiver.Mentions := by
  obtain ⟨ancestor, -, h⟩ := exists_of_bind_ok h
  split at h
  · obtain ⟨t, -, h⟩ := exists_of_bind_ok h
    obtain rfl := Except.ok.inj h
    exact frame_narrowBoth env receiver _ _
  · obtain rfl := Except.ok.inj h
    exact .answering_nil

/-- A test that needs an argument changes what it does for each argument. -/
theorem frame_withArg {question : Question} {args : List Expr} {P : EnvKey → Prop}
    {use : Expr → Except FlowError Branches}
    (huse : ∀ arg ∈ args, use arg = .ok e → e.Frame env P)
    (h : withArg question args env use = .ok e) : e.Frame env P := by
  unfold withArg at h
  split at h
  · obtain rfl := Except.ok.inj h
    exact .alike _ _
  · exact huse _ List.mem_cons_self h

/-- A predicate narrows its receiver or its first argument. -/
theorem frame_followPredicate {question : Question} {receiver : Expr} {args : List Expr}
    (h : K.followPredicate question receiver args env = .ok e) :
    e.Frame env fun key => ∃ c ∈ receiver :: args, c.Mentions key := by
  have hreceiver : ∀ {e : Branches}, e.Frame env receiver.Mentions →
      e.Frame env fun key => ∃ c ∈ receiver :: args, c.Mentions key := fun h =>
    h.mono fun key hkey => ⟨receiver, List.mem_cons_self, hkey⟩
  have harg : ∀ {e : Branches}, ∀ arg ∈ args, e.Frame env arg.Mentions →
      e.Frame env fun key => ∃ c ∈ receiver :: args, c.Mentions key := fun arg harg h =>
    h.mono fun key hkey => ⟨arg, List.mem_cons_of_mem receiver harg, hkey⟩
  cases question with
  | receiverIsNil =>
    obtain ⟨t, -, h⟩ := exists_of_bind_ok h
    obtain rfl := Except.ok.inj h
    exact hreceiver (frame_narrowBoth env receiver _ _)
  | receiverIsNotNil =>
    obtain ⟨t, -, h⟩ := exists_of_bind_ok h
    obtain rfl := Except.ok.inj h
    exact hreceiver (frame_narrowBoth env receiver _ _)
  | receiverIsArg => exact frame_withArg (fun _ _ h => hreceiver (frame_followClassTest h)) h
  | argIsReceiver =>
    exact frame_withArg (fun arg hmem h => harg arg hmem (frame_followClassTest h)) h
  | argEqualsReceiver =>
    exact frame_withArg (fun arg hmem h => harg arg hmem (frame_followEquality h)) h
  | argIsAncestor => exact frame_withArg (fun _ _ h => hreceiver (frame_followAncestorTest h)) h
  | base =>
    obtain rfl := Except.ok.inj h
    exact frame_splitOnly _
  | not =>
    obtain rfl := Except.ok.inj h
    exact .alike _ _

/-- A call changes its own entry at most. -/
theorem frame_followCall (id : Nat) (t : Ty) {P : EnvKey → Prop} (hid : P (.call id)) :
    (K.followCall id t env).Frame env P := by
  unfold followCall
  split
  · rename_i pure hpure
    refine frame_branchOn (.alike env t) hid ?_
    rintro i -
    rw [hpure]
    rfl
  · exact .alike _ t

end Predicates

/-! ## Assignments -/

/-- Assigning variables changes their entries. -/
theorem frame_assignTargets {changed : List EnvKey} (env : Env) {targets : List String}
    (types : List Ty) (h : ∀ x ∈ targets, .var x ∈ changed) :
    Env.Frame changed env (assignTargets env targets types) := by
  refine List.foldlRecOn (motive := Env.Frame changed env) _ _ (.refl env) ?_
  intro env' henv' p hp
  exact henv'.trans (.refineVar p.2 (h p.1 (List.of_mem_zip hp).1))

/-- A condition on an assignment changes the entries of the variables and what the value changes. -/
theorem frame_followTargets {env : Env} {P : EnvKey → Prop} {targets : List String} (t : Ty)
    {inner : Branches} (hinner : inner.Frame env P) (htargets : ∀ x ∈ targets, P (.var x)) :
    (K.followTargets targets t inner).Frame env P := by
  have hold : ∀ k ∈ inner.changed, k ∈ (K.followTargets targets t inner).changed := fun k h =>
    Keyed.mem_unionKeys.mpr (Or.inl h)
  have hnew : ∀ x ∈ targets, .var x ∈ (K.followTargets targets t inner).changed := fun x h =>
    Keyed.mem_unionKeys.mpr (Or.inr (List.mem_map_of_mem h))
  refine ⟨(hinner.truthyEnv.mono hold).trans ?_,
    (hinner.falsyEnv.mono hold).trans (frame_assignTargets _ _ hnew), fun k hk => ?_⟩
  · simp only [followTargets] at hnew ⊢
    split
    · exact frame_assignTargets _ _ hnew
    · exact .refl _
  · rcases Keyed.mem_unionKeys.mp hk with hk | hk
    · exact hinner.mentioned k hk
    · obtain ⟨x, hx, rfl⟩ := List.mem_map.mp hk
      exact htargets x hx

/-! ## Evaluation -/

/-- A recorded type alone changes nothing. -/
theorem frame_alike {id : Nat} {env : Env} {P : EnvKey → Prop} {e : Branches}
    (h : (do return Branches.alike env (← K.typing.typeOf id)) = Except.ok e) : e.Frame env P := by
  obtain ⟨t, -, h⟩ := exists_of_bind_ok h
  obtain rfl := Except.ok.inj h
  exact .alike _ t

mutual

/-- A condition leaves alone what it does not list, and it speaks of what it lists. -/
theorem frame_follow : (n : Expr) → {env : Env} → {e : Branches} → env.Ordered →
    K.follow n env = .ok e → e.Frame env n.Mentions
  | .var id name, env, _, _, h => by
    obtain ⟨t, -, h⟩ := exists_of_bind_ok h
    obtain rfl := Except.ok.inj h
    exact frame_branchOn (.alike env t) (.own List.mem_cons_self) fun i h => by cases h
  | .assign id name value, _, _, henv, h => by
    obtain ⟨inner, hinner, h⟩ := exists_of_bind_ok h
    obtain ⟨t, -, h⟩ := exists_of_bind_ok h
    obtain rfl := Except.ok.inj h
    exact frame_branchOn (.ofChild List.mem_cons_self (frame_follow value henv hinner))
      (.own List.mem_cons_self) fun i h => by cases h
  | .multiAssign id targets value, _, _, henv, h => by
    obtain ⟨inner, hinner, h⟩ := exists_of_bind_ok h
    obtain ⟨t, -, h⟩ := exists_of_bind_ok h
    obtain rfl := Except.ok.inj h
    exact frame_followTargets t (.ofChild List.mem_cons_self (frame_follow value henv hinner))
      fun x hx => .own (List.mem_map_of_mem hx)
  | .call id none _ _, env, _, _, h => by
    obtain ⟨t, -, h⟩ := exists_of_bind_ok h
    split at h
    · obtain rfl := Except.ok.inj h
      exact .alike _ _
    · obtain rfl := Except.ok.inj h
      exact frame_followCall id _ (.own List.mem_cons_self)
  | .call id (some receiver) method args, env, _, henv, h => by
    obtain ⟨t, -, h⟩ := exists_of_bind_ok h
    split at h
    · obtain ⟨inner, hinner, h⟩ := exists_of_bind_ok h
      obtain rfl := Except.ok.inj h
      exact .negate (.ofChild List.mem_cons_self (frame_follow receiver henv hinner))
    · refine (frame_followPredicate h).mono ?_
      rintro key ⟨c, hc, hkey⟩
      exact .child hc hkey
    · obtain rfl := Except.ok.inj h
      exact frame_followCall id _ (.own List.mem_cons_self)
  | .and id left right, _, _, henv, h => by
    obtain ⟨l, hl, h⟩ := exists_of_bind_ok h
    obtain ⟨r, hr, h⟩ := exists_of_bind_ok h
    obtain rfl := Except.ok.inj h
    have hleft := frame_follow left henv hl
    have hright := frame_follow right (hleft.truthyEnv.ordered henv) hr
    exact .conj henv (.ofChild List.mem_cons_self hleft)
      (.ofChild (List.mem_cons_of_mem _ List.mem_cons_self) hright)
  | .or id left right, _, _, henv, h => by
    obtain ⟨l, hl, h⟩ := exists_of_bind_ok h
    obtain ⟨r, hr, h⟩ := exists_of_bind_ok h
    obtain rfl := Except.ok.inj h
    have hleft := frame_follow left henv hl
    have hright := frame_follow right (hleft.falsyEnv.ordered henv) hr
    exact .disj henv (.ofChild List.mem_cons_self hleft)
      (.ofChild (List.mem_cons_of_mem _ List.mem_cons_self) hright)
  | .seq id body, _, _, henv, h => by
    refine (frame_followLast id body henv h).mono ?_
    rintro key ⟨n, hn, hkey⟩
    exact .child hn hkey
  | .literal _ _, _, _, _, h => by
    obtain ⟨t, -, h⟩ := exists_of_bind_ok h
    obtain rfl := Except.ok.inj h
    exact frame_splitOnly t
  | .const _ _, _, _, _, h => frame_alike h
  | .case _ _ _ _, _, _, _, h => frame_alike h
  | .other _, _, _, _, h => frame_alike h
termination_by structural n => n

/-- The last of some expressions changes entries that one of them mentions. -/
theorem frame_followLast (id : Nat) : (ns : List Expr) → {env : Env} → {e : Branches} →
    env.Ordered → K.followLast id ns env = .ok e →
    e.Frame env fun key => ∃ n ∈ ns, n.Mentions key
  | [], _, _, _, h => by
    obtain rfl := Except.ok.inj h
    exact .alike _ _
  | [n], _, _, henv, h =>
    (frame_follow n henv h).mono fun key hkey => ⟨n, List.mem_cons_self, hkey⟩
  | m :: n :: ns, _, _, henv, h => by
    refine (frame_followLast id (n :: ns) henv h).mono ?_
    rintro key ⟨n', hn', hkey⟩
    exact ⟨n', List.mem_cons_of_mem m hn', hkey⟩
termination_by structural ns => ns

end

end Follow

/-- A condition leaves every entry that it does not list as it was, on both branches.  What it lists
is a variable that it names or a call that it makes.  Every variable is still there on both
branches, and the same calls are pure. -/
theorem follow_changes_only {K : Flow} {n : Expr} {env : Env} {e : Branches} (henv : env.Ordered)
    (hnormal : env.Normal) (h : K.follow n env = .ok e) :
    (∀ key, key ∉ e.changed → e.truthyEnv.lookup key = env.lookup key ∧
      e.falsyEnv.lookup key = env.lookup key) ∧
    (∀ key ∈ e.changed, n.Mentions key) ∧
    (∀ x, (env.lookup (.var x)).isSome →
      (e.truthyEnv.lookup (.var x)).isSome ∧ (e.falsyEnv.lookup (.var x)).isSome) ∧
    ∀ i, (e.truthyEnv.lookup (.call i)).isSome = (env.lookup (.call i)).isSome ∧
      (e.falsyEnv.lookup (.call i)).isSome = (env.lookup (.call i)).isSome := by
  obtain ⟨htruthy, hfalsy, hmentioned⟩ := frame_follow n henv h
  refine ⟨fun key hkey => ?_, hmentioned, fun x hx => ⟨htruthy.vars x hx, hfalsy.vars x hx⟩,
    fun i => ⟨htruthy.calls i, hfalsy.calls i⟩⟩
  have hlookup : ∀ t, env.lookup key = some t → t.Normal := fun t => hnormal.lookup
  exact ⟨htruthy.same key hkey hlookup, hfalsy.same key hkey hlookup⟩

/-! ### A condition with an assignment and a pure call -/

/-- Types for an assignment, a pure call and a test for `nil`. -/
def lampTyping : Typing :=
  ⟨[(1, .union [.ofClass ⟨"::Lamp"⟩, .nil]), (2, .union [.ofClass ⟨"::Lamp"⟩, .nil]), (4, .bool),
    (5, .logic .receiverIsNil), (6, .union [.ofClass ⟨"::Lamp"⟩, .nil])]⟩

/-- Two variables that are assigned and tested, one that is not, and a pure call. -/
def lampEnv : Env where
  vars := [("lamp", .nil), ("room", .union [.nil, .ofClass ⟨"::Room"⟩]), ("switch", .nil)]
  calls := [(4, .bool)]

/-- An assignment, and then a pure call or a test of the assigned variable. -/
def lampCondition : Expr :=
  .and 0 (.assign 1 "lamp" (.var 2 "switch"))
    (.or 3 (.call 4 none "lit" []) (.call 5 (some (.var 6 "lamp")) "nil?" []))

/-- The condition on the lamp changes the two variables and the call, and leaves the room alone. -/
theorem follow_lampCondition :
    lampEnv.Ordered ∧ lampEnv.Normal ∧
    ∃ e, Flow.follow ⟨{}, lampTyping⟩ lampCondition lampEnv = .ok e ∧
      e.changed = [.var "lamp", .var "switch", .call 4] ∧
      e.truthyEnv.lookup (.var "room") = some (.union [.nil, .ofClass ⟨"::Room"⟩]) ∧
      e.falsyEnv.lookup (.var "room") = some (.union [.nil, .ofClass ⟨"::Room"⟩]) ∧
      lampCondition.Mentions (.call 4) ∧ (e.falsyEnv.lookup (.var "switch")).isSome ∧
      (e.falsyEnv.lookup (.call 5)).isSome = false := by
  have henv : lampEnv.Ordered := by decide
  have hnormal : lampEnv.Normal := ⟨by decide, by decide⟩
  obtain ⟨e, he⟩ : ∃ e, Flow.follow ⟨{}, lampTyping⟩ lampCondition lampEnv = .ok e := ⟨_, rfl⟩
  have hchanged : e.changed = [.var "lamp", .var "switch", .call 4] := by
    obtain rfl := Except.ok.inj he
    rfl
  obtain ⟨hsame, hmentions, hvars, hcalls⟩ := follow_changes_only henv hnormal he
  obtain ⟨htruthy, hfalsy⟩ := hsame (.var "room") (by simp [hchanged])
  exact ⟨henv, hnormal, e, he, hchanged, htruthy, hfalsy, hmentions (.call 4) (by simp [hchanged]),
    (hvars "switch" rfl).2, (hcalls 5).2⟩

end Flow
end TypeShape
