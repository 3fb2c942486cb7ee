import MonkeyLang.Proofs.Eval.Preservation
import MonkeyLang.Proofs.Scope.Store

/-!
# The lexical frame

Evaluation writes to the scope of its own environment and to scopes that it creates. Read
`eval_writesOnly` first: whatever its outcome, an evaluation leaves the other scopes as they were,
no name becomes unbound and no scope moves to another place, and a call leaves every scope alone
that was there before.
-/

namespace MonkeyLang

/-- The state in which an evaluation ended, if it did. -/
def Outcome.machine? {α : Type} : Outcome α → Option Machine
  | done _ machine | stopped _ machine => some machine
  | tooDeep => none

/-- Of the scopes that were there before, all are still there, at most `own` differs, no name became
unbound and every scope still lies in the same one. -/
structure Store.WritesOnly (before : Store) (own : Option ScopeId) (after : Store) : Prop where
  size_le : before.scopes.size ≤ after.scopes.size
  scope_eq : ∀ id < before.scopes.size, some id ≠ own → after.scope id = before.scope id
  isSome_get? : ∀ id < before.scopes.size, ∀ name,
    ((before.scope id).get? name).isSome → ((after.scope id).get? name).isSome
  outer_eq : ∀ id < before.scopes.size, (after.scope id).outer = (before.scope id).outer

namespace Store.WritesOnly

variable {before store : Store} {own : Option ScopeId}

/-- A store is reached from itself without writing. -/
theorem refl (before : Store) (own : Option ScopeId) : before.WritesOnly own before where
  size_le := Nat.le_refl _
  scope_eq _ _ _ := rfl
  isSome_get? _ _ _ hbound := hbound
  outer_eq _ _ := rfl

/-- Where no scope that was there has changed, names are looked up from there as before. -/
theorem lookup?_eq {env : Env} (hwrites : before.WritesOnly none store)
    (henv : env.scope < before.scopes.size) (name : String) :
    store.lookup? env name = before.lookup? env name :=
  find?_of_scope_eq name fun older hle =>
    hwrites.scope_eq older (Nat.lt_of_le_of_lt hle henv) nofun

/-- A step that changes no older scope. -/
theorem of_scope_eq {after : Store} (hwrites : before.WritesOnly own store)
    (hsize : store.scopes.size ≤ after.scopes.size)
    (hscope : ∀ id < before.scopes.size, after.scope id = store.scope id) :
    before.WritesOnly own after where
  size_le := Nat.le_trans hwrites.size_le hsize
  scope_eq id hid hown := (hscope id hid).trans (hwrites.scope_eq id hid hown)
  isSome_get? id hid name hbound := by
    rw [hscope id hid]
    exact hwrites.isSome_get? id hid name hbound
  outer_eq id hid := by
    rw [hscope id hid]
    exact hwrites.outer_eq id hid

/-- Entering a scope changes no older scope. -/
theorem enter (hwrites : before.WritesOnly own store) (outer : Option Env) (scope : Scope) :
    before.WritesOnly own (store.enter outer scope).2 := by
  have hsize := store.size_enter outer scope
  refine hwrites.of_scope_eq (by omega) fun id hid => ?_
  exact Store.scope_enter_of_lt outer scope (Nat.lt_of_lt_of_le hid hwrites.size_le)

/-- A binding in a scope that was not there before changes no older scope. -/
theorem bind_new {env : Env} (hwrites : before.WritesOnly own store) (name : String)
    (value : Value) (hnew : before.scopes.size ≤ env.scope) :
    before.WritesOnly own (store.bind env name value) := by
  refine hwrites.of_scope_eq (Nat.le_of_eq (store.size_bind env name value).symm) fun id hid => ?_
  exact Store.scope_bind_of_ne name value (Nat.ne_of_lt (Nat.lt_of_lt_of_le hid hnew))

/-- A binding in the own scope changes that scope alone. -/
theorem bind_own {env : Env} (hwrites : before.WritesOnly own store) (name : String)
    (value : Value) (hown : some env.scope = own) :
    before.WritesOnly own (store.bind env name value) := by
  have hself : ∀ id, id < before.scopes.size → id = env.scope →
      (store.bind env name value).scope id = (store.scope id).bind name value := by
    intro id hid heq
    subst heq
    exact Store.scope_bind_self name value (Nat.lt_of_lt_of_le hid hwrites.size_le)
  constructor
  · rw [store.size_bind env name value]
    exact hwrites.size_le
  · intro id hid hother
    have hne : id ≠ env.scope := by
      intro heq
      exact hother (heq ▸ hown)
    rw [Store.scope_bind_of_ne name value hne]
    exact hwrites.scope_eq id hid hother
  · intro id hid other hbound
    have hbound' := hwrites.isSome_get? id hid other hbound
    by_cases heq : id = env.scope
    · rw [hself id hid heq]
      exact Scope.isSome_get?_bind name value hbound'
    · rw [Store.scope_bind_of_ne name value heq]
      exact hbound'
  · intro id hid
    by_cases heq : id = env.scope
    · rw [hself id hid heq]
      exact hwrites.outer_eq id hid
    · rw [Store.scope_bind_of_ne name value heq]
      exact hwrites.outer_eq id hid

end Store.WritesOnly

/-- The invariant of an evaluation that started with the scopes of `before`: code runs in the scope
`own` or in a new one, and at most `own` has changed. -/
def frame (before : Store) (own : Option ScopeId) : Invariant where
  World := Unit
  grows _ _ := True
  env _ env := some env.scope = own ∨ before.scopes.size ≤ env.scope
  closure _ _ := True
  value _ _ := True
  store _ store := before.WritesOnly own store

/-- A call may run against any environment, because it enters a new scope first. -/
theorem lawful_frame (before : Store) (own : Option ScopeId) : (frame before own).Lawful where
  grows_refl _ := trivial
  grows_trans _ _ := trivial
  env_mono _ henv := henv
  value_mono _ _ := trivial
  closure_of_env _ := trivial
  value_atom _ := trivial
  value_array := ⟨fun _ _ _ => trivial, fun _ => trivial⟩
  value_hash := ⟨fun _ _ _ => ⟨trivial, trivial⟩, fun _ => trivial⟩
  value_function := Iff.rfl
  value_macroFn := Iff.rfl
  value_lookup _ _ _ := trivial
  store_bind := by
    intro _ store env value name hwrites henv _
    rcases henv with hown | hnew
    · exact Store.WritesOnly.bind_own hwrites name value hown
    · exact Store.WritesOnly.bind_new hwrites name value hnew
  store_enter := by
    intro _ store outer params args scope hwrites _ _ _
    -- The new scope takes the next number, so it is none of the scopes of `before`.
    refine ⟨(), trivial, Or.inr ?_, Store.WritesOnly.enter hwrites (some outer) scope⟩
    show before.scopes.size ≤ store.scopes.size
    exact Store.WritesOnly.size_le hwrites

/-- Evaluation keeps the frame. -/
theorem evaluates_frame (before : Store) (own : Option ScopeId) (depth : Nat) :
    (frame before own).Evaluates (eval depth) :=
  Invariant.evaluates_eval (lawful_frame before own)
    (Invariant.quotes_of_value_quote (lawful_frame before own) fun _ _ => trivial) depth

/-- An evaluation that keeps the frame ends in a store that differs in `own` alone. -/
theorem writesOnly_of_runs {α : Type} {machine machine' : Machine} {own : Option ScopeId}
    {good : (frame machine.store own).World → α → Prop}
    {returned : (frame machine.store own).World → Value → Prop} {action : Eval α}
    (hruns : (frame machine.store own).Runs () good returned action)
    (hend : (action machine).machine? = some machine') :
    machine.store.WritesOnly own machine'.store := by
  have hends := hruns machine (Store.WritesOnly.refl machine.store own)
  cases hout : action machine with
  | tooDeep =>
      rw [hout] at hend
      cases hend
  | done value final | stopped interrupt final =>
      rw [hout] at hend hends
      cases hend
      obtain ⟨_, _, _, hwrites⟩ := hends
      exact hwrites

/-- A program ends in the state in which its statements end. -/
theorem machine?_of_settle {outcome : Outcome (Option Value)} {result : Option Value}
    {machine : Machine} (hsettle : settle outcome = some (result, machine)) :
    outcome.machine? = some machine := by
  cases outcome with
  | tooDeep => cases hsettle
  | done value final =>
      cases hsettle
      rfl
  | stopped interrupt final =>
      cases interrupt with
      | fault cause | returned value =>
          cases hsettle
          rfl

/-- An expression, a block and a program write to the scope of their environment alone, and a call
writes to no scope that was there before. -/
theorem eval_writesOnly (depth : Nat) (machine machine' : Machine) :
    (∀ env expr, (eval depth env expr machine).machine? = some machine' →
      machine.store.WritesOnly (some env.scope) machine'.store) ∧
    (∀ env block, (evalBlock (eval depth) env block machine).machine? = some machine' →
      machine.store.WritesOnly (some env.scope) machine'.store) ∧
    (∀ env program result, evalProgram depth env program machine = some (result, machine') →
      machine.store.WritesOnly (some env.scope) machine'.store) ∧
    (∀ callee args, (applyValue (eval depth) callee args machine).machine? = some machine' →
      machine.store.WritesOnly none machine'.store) := by
  have hlawful := lawful_frame machine.store
  have heval := fun own => evaluates_frame machine.store own depth
  refine ⟨?_, ?_, ?_, ?_⟩
  · intro env expr hend
    exact writesOnly_of_runs (heval _ expr (Or.inl rfl)) hend
  · intro env block hend
    exact writesOnly_of_runs
      (Invariant.runs_evalBlock (hlawful _) (heval _) (Or.inl rfl) block) hend
  · intro env program result hend
    exact writesOnly_of_runs
      (Invariant.runs_evalStmts (hlawful _) (heval _) program (Or.inl rfl) Invariant.optional_none)
      (machine?_of_settle hend)
  · intro callee args hend
    exact writesOnly_of_runs
      (Invariant.runs_applyValue (hlawful _) (heval _) (fun _ _ _ _ => trivial)
        fun _ _ => trivial) hend

/-- An inner scope binds `x` where an outer one does too. The expression has a value, the block
returns, the program fails, and the call is of a function that the outer scope defines. -/
theorem eval_writesOnly_shadowing :
    let machine : Machine := ⟨⟨#[⟨none, [("x", .int 1)]⟩, ⟨some 0, []⟩]⟩, []⟩
    let shadow : Stmt := .bind "x" (.int 2)
    (∃ machine', (eval 3 ⟨1⟩ (.cond (.bool true) [shadow] none) machine).machine? = some machine' ∧
      machine.store.WritesOnly (some 1) machine'.store) ∧
    (∃ machine', (evalBlock (eval 3) ⟨1⟩ [shadow, .ret (.int 3)] machine).machine? =
        some machine' ∧
      machine.store.WritesOnly (some 1) machine'.store) ∧
    (∃ result machine', evalProgram 3 ⟨1⟩ [shadow, .expr (.unary .negate (.bool true))] machine =
        some (result, machine') ∧
      machine.store.WritesOnly (some 1) machine'.store) ∧
    (∃ machine', (applyValue (eval 3) (.function [] [shadow] ⟨0⟩) [] machine).machine? =
        some machine' ∧
      machine.store.WritesOnly none machine'.store) := by
  intro machine shadow
  refine ⟨⟨_, rfl, ?_⟩, ⟨_, rfl, ?_⟩, ⟨_, _, rfl, ?_⟩, ⟨_, rfl, ?_⟩⟩
  · exact (eval_writesOnly 3 machine _).1 ⟨1⟩ (.cond (.bool true) [shadow] none) rfl
  · exact (eval_writesOnly 3 machine _).2.1 ⟨1⟩ [shadow, .ret (.int 3)] rfl
  · exact (eval_writesOnly 3 machine _).2.2.1 ⟨1⟩ [shadow, .expr (.unary .negate (.bool true))] _
      rfl
  · exact (eval_writesOnly 3 machine _).2.2.2 (.function [] [shadow] ⟨0⟩) [] rfl

end MonkeyLang
