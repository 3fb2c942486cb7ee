import Mathlib
import MonkeyLang.Proofs.Eval.Preservation
import MonkeyLang.Proofs.Scope.Store
import MonkeyLang.Proofs.Session.Basic
import MonkeyLang.Proofs.Value.Parts

/-!
# Returns and errors are no data

A `returned` value or an `error` marks how an evaluation stopped. It is never bound to a name and
never part of another value. Read `session_sentinelFree` first.
-/

namespace MonkeyLang

namespace Value

/-- Whether a value neither is nor contains a return or an error. -/
def SentinelFree (value : Value) : Prop :=
  ∀ part : Value, part.PartOf value → part.kind ≠ .returned ∧ part.kind ≠ .error

/-- Whether a value is the report of a failed evaluation. -/
def IsError (value : Value) : Prop :=
  ∃ message, value = .error message

/-- Whether a value marks one return of a value that is free of returns and errors. -/
def IsReturn (value : Value) : Prop :=
  ∃ content, value = .returned content ∧ content.SentinelFree

/-- An array is free of returns and errors if its elements are. -/
theorem sentinelFree_array {elements : List Value} :
    (array elements).SentinelFree ↔ ∀ element ∈ elements, element.SentinelFree := by
  constructor
  · intro hfree element hmem part hpart
    exact hfree part (.element hmem hpart)
  · intro hfree part hpart
    cases hpart with
    | self => simp [kind]
    | element hmem hpart => exact hfree _ hmem part hpart

/-- A hash is free of returns and errors if its keys and values are. -/
theorem sentinelFree_hash {entries : List (Entry Value)} :
    (hash entries).SentinelFree ↔
      ∀ entry ∈ entries, entry.key.SentinelFree ∧ entry.value.SentinelFree := by
  constructor
  · intro hfree entry hmem
    exact ⟨fun part hpart => hfree part (.key hmem hpart),
      fun part hpart => hfree part (.value hmem hpart)⟩
  · intro hfree part hpart
    cases hpart with
    | self => simp [kind]
    | key hmem hpart => exact (hfree _ hmem).1 part hpart
    | value hmem hpart => exact (hfree _ hmem).2 part hpart

/-- Atoms contain nothing. -/
theorem IsAtom.sentinelFree {value : Value} (hatom : value.IsAtom) : value.SentinelFree := by
  intro part hpart
  cases value with
  | int | bool | null | str | builtin =>
      cases hpart
      simp [kind]
  | array | hash | function | returned | error | quote | macroFn => exact hatom.elim

/-- A function contains code and no values. -/
theorem sentinelFree_function (params : List String) (body : Block) (env : Env) :
    (function params body env).SentinelFree := by
  intro part hpart
  cases hpart
  simp [kind]

/-- A macro contains code and no values. -/
theorem sentinelFree_macroFn (params : List String) (body : Block) (env : Env) :
    (macroFn params body env).SentinelFree := by
  intro part hpart
  cases hpart
  simp [kind]

/-- Quoted code contains no values. -/
theorem sentinelFree_quote (expr : Expr) : (quote expr).SentinelFree := by
  intro part hpart
  cases hpart
  simp [kind]

end Value

/-- Whether no scope binds a name to a value with a return or an error in it. -/
def Store.SentinelFree (store : Store) : Prop :=
  store.BindsOnly Value.SentinelFree

/-- Whether an evaluation ends with a good result, or stops with a value that may escape, and leaves
no return or error in the scopes. -/
def Outcome.Settles {α : Type} (good : α → Prop) (escapes : Value → Prop) : Outcome α → Prop
  | done value machine => good value ∧ machine.store.SentinelFree
  | stopped interrupt machine => escapes interrupt.toValue ∧ machine.store.SentinelFree
  | tooDeep => True

/-- The invariant that values and scopes are free of returns and errors. -/
def sentinelFree : Invariant where
  World := Unit
  grows _ _ := True
  env _ _ := True
  closure _ _ := True
  value _ value := value.SentinelFree
  store _ store := store.SentinelFree

/-- Neither the store operations nor the building of values make a return or an error. -/
theorem lawful_sentinelFree : sentinelFree.Lawful where
  grows_refl _ := trivial
  grows_trans _ _ := trivial
  env_mono _ henv := henv
  value_mono _ hvalue := hvalue
  closure_of_env _ := trivial
  value_atom hatom := hatom.sentinelFree
  value_array := Value.sentinelFree_array
  value_hash := Value.sentinelFree_hash
  value_function := ⟨fun _ => trivial, fun _ => Value.sentinelFree_function _ _ _⟩
  value_macroFn := ⟨fun _ => trivial, fun _ => Value.sentinelFree_macroFn _ _ _⟩
  value_lookup hstore _ hlookup := Store.BindsOnly.lookup? hstore hlookup
  store_bind name hstore _ hvalue := Store.BindsOnly.bind hstore _ name hvalue
  store_enter := by
    intro _ store outer params args scope hstore _ hargs hscope
    refine ⟨(), trivial, trivial, Store.BindsOnly.enter hstore (some outer) fun binding hmem => ?_⟩
    exact hargs binding.2 (Scope.mem_of_mem_bindings_ofArgs hscope hmem)

/-- Evaluation keeps values and scopes free of returns and errors. -/
theorem evaluates_sentinelFree (depth : Nat) : sentinelFree.Evaluates (eval depth) :=
  Invariant.evaluates_eval lawful_sentinelFree
    (Invariant.quotes_of_value_quote lawful_sentinelFree fun _ => Value.sentinelFree_quote) depth

/-- What an evaluation that keeps the invariant ends with. -/
theorem settles_of_runs {α : Type} {good : α → Prop} {returned escapes : Value → Prop}
    {action : Eval α} {machine : Machine}
    (hruns : sentinelFree.Runs () (fun _ => good) (fun _ => returned) action)
    (hstore : machine.store.SentinelFree) (herror : ∀ message, escapes (.error message))
    (hreturned : ∀ value, returned value → escapes (.returned value)) :
    (action machine).Settles good escapes := by
  have hends := hruns machine hstore
  cases hout : action machine with
  | tooDeep => trivial
  | done value final =>
      rw [hout] at hends
      obtain ⟨_, _, hgood, hstore'⟩ := hends
      exact ⟨hgood, hstore'⟩
  | stopped interrupt final =>
      rw [hout] at hends
      obtain ⟨_, _, hstops, hstore'⟩ := hends
      cases interrupt with
      | fault cause => exact ⟨herror cause.message, hstore'⟩
      | returned value => exact ⟨hreturned value hstops, hstore'⟩

/-! ## Programs and sessions -/

/-- A program evaluated with clean scopes leaves clean scopes, and its value is clean or an
error. -/
theorem evalProgram_sentinelFree {depth : Nat} {env : Env} {program : Program}
    {machine final : Machine} {result : Option Value} (hstore : machine.store.SentinelFree)
    (hprogram : evalProgram depth env program machine = some (result, final)) :
    final.store.SentinelFree ∧
      ∀ value, result = some value → value.SentinelFree ∨ value.IsError := by
  have hruns : sentinelFree.Runs () sentinelFree.optional sentinelFree.value
      (evalStmts (eval depth) env none program) :=
    Invariant.runs_evalStmts lawful_sentinelFree (evaluates_sentinelFree depth) program trivial
      Invariant.optional_none
  have hends := hruns machine hstore
  unfold evalProgram at hprogram
  cases hout : evalStmts (eval depth) env none program machine with
  | tooDeep =>
      rw [hout] at hprogram
      cases hprogram
  | done value final' =>
      rw [hout] at hprogram hends
      cases hprogram
      obtain ⟨_, _, hvalue, hstore'⟩ := hends
      exact ⟨hstore', fun value hsome => Or.inl (hvalue value hsome)⟩
  | stopped interrupt final' =>
      rw [hout] at hprogram hends
      obtain ⟨_, _, hstops, hstore'⟩ := hends
      cases interrupt with
      | fault cause =>
          cases hprogram
          refine ⟨hstore', fun value hsome => Or.inr ⟨cause.message, ?_⟩⟩
          exact (Option.some.inj hsome).symm
      | returned value =>
          cases hprogram
          refine ⟨hstore', fun other hsome => Or.inl ?_⟩
          exact Option.some.inj hsome ▸ hstops

/-- The expansion of macros with clean scopes stops only with an error. -/
theorem settles_expandMacros (depth : Nat) (macros : Env) (program : Program) {machine : Machine}
    (hstore : machine.store.SentinelFree) :
    (expandMacros depth macros program machine).Settles (fun _ => True) Value.IsError := by
  have hruns : sentinelFree.Runs () Invariant.anyResult Invariant.noReturn
      (expandMacros depth macros program) :=
    Invariant.runs_expandMacros lawful_sentinelFree (fun _ => Value.sentinelFree_quote) depth
      trivial program
  exact settles_of_runs hruns hstore (fun message => ⟨message, rfl⟩) fun _ hfalse => hfalse.elim

/-- Defining macros binds no return or error. -/
theorem Store.SentinelFree.defineMacros {store : Store} (hstore : store.SentinelFree)
    (macros : Env) (definitions : List MacroDefinition) :
    (store.defineMacros macros definitions).SentinelFree := by
  induction definitions generalizing store with
  | nil => exact hstore
  | cons definition definitions ih =>
      have hmacro := Value.sentinelFree_macroFn definition.params definition.body macros
      exact ih (BindsOnly.bind hstore macros definition.name hmacro)

/-- A program expanded and evaluated with clean scopes leaves clean scopes, and its value is clean
or an error. -/
theorem Session.evalUnit_sentinelFree {session : Session} {depth : Nat} {program : Program}
    {machine final : Machine} {result : Option Value} (hstore : machine.store.SentinelFree)
    (hunit : session.evalUnit depth program machine = some (result, final)) :
    final.store.SentinelFree ∧
      ∀ value, result = some value → value.SentinelFree ∨ value.IsError := by
  have hexpand := settles_expandMacros depth session.macros program hstore
  obtain ⟨expanded, middle, hdone, hprogram⟩ | ⟨interrupt, hstopped, rfl⟩ :=
    evalUnit_eq_some hunit
  · rw [hdone] at hexpand
    exact evalProgram_sentinelFree hexpand.2 hprogram
  · rw [hstopped] at hexpand
    exact ⟨hexpand.2, fun value hsome => Or.inr (Option.some.inj hsome ▸ hexpand.1)⟩

/-- A unit taken with clean scopes leaves clean scopes, and its value is clean or an error. -/
theorem Session.run_sentinelFree {session : Session} {depth : Nat} {source : String}
    {answer : Answer} (hstore : session.store.SentinelFree)
    (hrun : session.run depth source = some answer) :
    answer.session.store.SentinelFree ∧
      ∀ value, answer.reply = .value value → value.SentinelFree ∨ value.IsError := by
  obtain ⟨errors, _, rfl⟩ | ⟨program, result, final, _, hunit, rfl⟩ := run_eq_some hrun
  · exact ⟨hstore, fun _ hreply => nomatch hreply⟩
  · have hdefined := hstore.defineMacros session.macros (macroDefinitions program)
    have hresult := evalUnit_sentinelFree hdefined hunit
    refine ⟨hresult.1, fun value hreply => hresult.2 value ?_⟩
    cases result with
    | none => cases hreply
    | some found =>
        cases hreply
        rfl

/-- A session starts with clean scopes. -/
theorem Session.sentinelFree_new : Session.new.store.SentinelFree := by
  have hempty : ∀ binding ∈ Scope.empty.bindings, binding.2.SentinelFree :=
    fun _ hnone => nomatch hnone
  exact (Store.bindsOnly_empty.enter none hempty).enter none hempty

/-- Every session that units lead to has clean scopes. -/
theorem Session.Reachable.sentinelFree {session : Session} (hreach : session.Reachable) :
    session.store.SentinelFree := by
  induction hreach with
  | new => exact sentinelFree_new
  | run _ hrun ih => exact (run_sentinelFree ih hrun).1

/-- Returns and errors are never bound or contained in another value. In every session that units
lead to, no scope binds one, and a unit is answered with a value that is free of them or is itself
an error. With such scopes, expressions, blocks and calls result in values that are free of them;
expressions and blocks stop with an error or with one return of such a value, and calls and the
expansion of macros stop with an error. -/
theorem session_sentinelFree {session : Session} (hreach : session.Reachable) (depth : Nat) :
    session.store.SentinelFree ∧
    (∀ source answer, session.run depth source = some answer →
      answer.session.store.SentinelFree ∧
        ∀ value, answer.reply = .value value → value.SentinelFree ∨ value.IsError) ∧
    ∀ machine : Machine, machine.store.SentinelFree →
      (∀ env expr, (eval depth env expr machine).Settles Value.SentinelFree
        fun value => value.IsError ∨ value.IsReturn) ∧
      (∀ env block, (evalBlock (eval depth) env block machine).Settles Value.SentinelFree
        fun value => value.IsError ∨ value.IsReturn) ∧
      (∀ callee args, (∀ arg ∈ args, arg.SentinelFree) →
        (applyValue (eval depth) callee args machine).Settles Value.SentinelFree Value.IsError) ∧
      ∀ macros program, (expandMacros depth macros program machine).Settles (fun _ => True)
        Value.IsError := by
  have heval := evaluates_sentinelFree depth
  have hclean := hreach.sentinelFree
  refine ⟨hclean, fun source answer => Session.run_sentinelFree hclean, ?_⟩
  intro machine hstore
  have herror : ∀ message, (Value.error message).IsError := fun message => ⟨message, rfl⟩
  refine ⟨?_, ?_, ?_, fun macros program => settles_expandMacros depth macros program hstore⟩
  · intro env expr
    exact settles_of_runs (heval expr trivial) hstore (fun message => Or.inl (herror message))
      fun value hvalue => Or.inr ⟨value, rfl, hvalue⟩
  · intro env block
    exact settles_of_runs (Invariant.runs_evalBlock lawful_sentinelFree heval trivial block) hstore
      (fun message => Or.inl (herror message)) fun value hvalue => Or.inr ⟨value, rfl, hvalue⟩
  · intro callee args hargs
    exact settles_of_runs
      (Invariant.runs_applyValue lawful_sentinelFree heval (fun _ _ _ _ => trivial) hargs) hstore
      herror fun _ hfalse => hfalse.elim

/-- A function returns early out of an array literal. The session after it takes a further unit, and
its scopes serve a call. -/
theorem session_sentinelFree_early_return :
    ∃ answer, Session.new.run 9 "fn(x) \x7b [if (true) \x7b return x \x7d] \x7d(1)" =
        some answer ∧
      answer.reply = .value (.int 1) ∧ ((Value.int 1).SentinelFree ∨ (Value.int 1).IsError) ∧
      answer.session.Reachable ∧ answer.session.store.SentinelFree ∧
      (applyValue (eval 9) (.builtin .first) [.null] ⟨answer.session.store, []⟩).Settles
        Value.SentinelFree Value.IsError := by
  have hanswer : ∃ answer,
      Session.new.run 9 "fn(x) \x7b [if (true) \x7b return x \x7d] \x7d(1)" = some answer ∧
      answer.reply = .value (.int 1) := by
    refine ⟨?answer, ?run, ?reply⟩
    case run =>
      cbv
      rfl
    case reply => rfl
  obtain ⟨answer, hrun, hreply⟩ := hanswer
  have hreach := Session.Reachable.run .new hrun
  have hclean := session_sentinelFree hreach 9
  have hvalue := ((session_sentinelFree .new 9).2.1 _ answer hrun).2 _ hreply
  refine ⟨answer, hrun, hreply, hvalue, hreach, hclean.1, ?_⟩
  refine (hclean.2.2 ⟨answer.session.store, []⟩ hclean.1).2.2.1 _ _ fun arg hmem => ?_
  rw [List.mem_singleton.mp hmem]
  exact Value.IsAtom.sentinelFree trivial

end MonkeyLang
