import MonkeyLang.Eval.Expansion
import MonkeyLang.Proofs.Expr.Transform
import MonkeyLang.Proofs.Scope.Alike

/-!
# Evaluations side by side

A simulation says which two stores and which two environments may stand side by side, given what is
known of the scopes so far: a world, which grows as scopes are entered on both sides.
`Simulation.Lawful` lists what the evaluator relies on. Two evaluations match if the second one ends
like the first, with values that are alike; where the first one nests too deeply nothing is said, so
the second one may go deeper. The rules below are those of the operations that evaluations are made
of; read `Simulation.matches_bind` first.
-/

namespace MonkeyLang

/-- What may stand side by side in each world. -/
structure Simulation where
  World : Type
  grows : World → World → Prop
  /-- The environments that code is evaluated in. -/
  env : World → Env → Env → Prop
  /-- The environments that functions and macros remember. -/
  closure : World → Env → Env → Prop
  store : World → Store → Store → Prop
  /-- The values printed so far. -/
  printed : List Value → List Value → Prop

namespace Simulation

/-- The values are alike in a world. -/
def value (sim : Simulation) (world : sim.World) : Value → Value → Prop :=
  Value.Alike (sim.closure world)

/-- The lists of values are alike in a world. -/
def values (sim : Simulation) (world : sim.World) : List Value → List Value → Prop :=
  AlikeValues (sim.closure world)

/-- The values are alike if there are any. -/
def optional (sim : Simulation) (world : sim.World) : Option Value → Option Value → Prop :=
  Option.Rel (sim.value world)

/-- The entries are alike in a world. -/
def entries (sim : Simulation) (world : sim.World) :
    List (Entry Value) → List (Entry Value) → Prop :=
  AlikeEntries (sim.closure world)

/-- The results are the same. -/
def equal {α : Type} {sim : Simulation} (_ : sim.World) (value value' : α) : Prop :=
  value = value'

/-- What evaluation relies on: names have values that are alike, and the store operations keep both
sides together. Names of builtins are never looked up. -/
structure Lawful (sim : Simulation) : Prop where
  grows_refl : ∀ world, sim.grows world world
  grows_trans : ∀ {first second third}, sim.grows first second → sim.grows second third →
    sim.grows first third
  env_mono : ∀ {world world' env env'}, sim.grows world world' → sim.env world env env' →
    sim.env world' env env'
  closure_mono : ∀ {world world' env env'}, sim.grows world world' → sim.closure world env env' →
    sim.closure world' env env'
  closure_of_env : ∀ {world env env'}, sim.env world env env' → sim.closure world env env'
  lookup : ∀ {world store store' env env' name}, sim.store world store store' →
    sim.env world env env' → Builtin.ofName? name = none →
    sim.optional world (store.lookup? env name) (store'.lookup? env' name)
  store_bind : ∀ {world store store' env env' value value'} (name : String),
    sim.store world store store' → sim.env world env env' → sim.value world value value' →
    sim.store world (store.bind env name value) (store'.bind env' name value')
  store_enter : ∀ {world store store' outer outer' scope scope'},
    sim.store world store store' → sim.closure world outer outer' →
    scope.Alike (sim.closure world) scope' → ∃ world', sim.grows world world' ∧
      sim.env world' (store.enter (some outer) scope).1 (store'.enter (some outer') scope').1 ∧
      sim.store world' (store.enter (some outer) scope).2 (store'.enter (some outer') scope').2
  printed_append : ∀ {world printed printed' values values'}, sim.printed printed printed' →
    sim.values world values values' → sim.printed (printed ++ values) (printed' ++ values')

variable {sim : Simulation} {α β : Type}

/-- The machines have stores that may stand side by side, and so may what they printed. -/
def machine (sim : Simulation) (world : sim.World) (machine machine' : Machine) : Prop :=
  sim.store world machine.store machine'.store ∧ sim.printed machine.printed machine'.printed

/-- The interrupts are the same fault, or returns of values that are alike. -/
inductive Interrupts (sim : Simulation) (world : sim.World) : Interrupt → Interrupt → Prop where
  | fault (cause : Fault) : Interrupts sim world (.fault cause) (.fault cause)
  | returned {value value' : Value} : sim.value world value value' →
      Interrupts sim world (.returned value) (.returned value')

/-- The second outcome is like the first one, in a world that `world` grew into. -/
inductive Ends (sim : Simulation) (world : sim.World) (good : sim.World → α → α → Prop) :
    Outcome α → Outcome α → Prop where
  | done {world' : sim.World} {value value' : α} {machine machine' : Machine} :
      sim.grows world world' → good world' value value' → sim.machine world' machine machine' →
      Ends sim world good (.done value machine) (.done value' machine')
  | stopped {world' : sim.World} {interrupt interrupt' : Interrupt} {machine machine' : Machine} :
      sim.grows world world' → sim.Interrupts world' interrupt interrupt' →
      sim.machine world' machine machine' →
      Ends sim world good (.stopped interrupt machine) (.stopped interrupt' machine')
  | tooDeep (outcome : Outcome α) : Ends sim world good .tooDeep outcome

/-- Evaluations match if they end alike from all machines that may stand side by side. -/
def Matches (sim : Simulation) (world : sim.World) (good : sim.World → α → α → Prop)
    (action action' : Eval α) : Prop :=
  ∀ machine machine', sim.machine world machine machine' →
    sim.Ends world good (action machine) (action' machine')

variable {world : sim.World} {good : sim.World → α → α → Prop} {good' : sim.World → β → β → Prop}

/-- Values stay alike as scopes are entered. -/
theorem Lawful.value_mono (h : sim.Lawful) {world' : sim.World} {value value' : Value}
    (hgrows : sim.grows world world') (hvalue : sim.value world value value') :
    sim.value world' value value' :=
  Value.Alike.mono hvalue fun _ _ => h.closure_mono hgrows

/-! ## Rules for the operations of evaluation -/

/-- Results that may stand side by side. -/
theorem matches_pure (h : sim.Lawful) {value value' : α} (hgood : good world value value') :
    sim.Matches world good (pure value) (pure value') :=
  fun _ _ hmachine => .done (h.grows_refl world) hgood hmachine

/-- Evaluations in sequence: the second ones start in a world that the first ones grew. -/
theorem matches_bind (h : sim.Lawful) {first first' : Eval α} {next next' : α → Eval β}
    (hfirst : sim.Matches world good first first')
    (hnext : ∀ world' value value', sim.grows world world' → good world' value value' →
      sim.Matches world' good' (next value) (next' value')) :
    sim.Matches world good' (first >>= next) (first' >>= next') := by
  intro machine machine' hmachine
  have hends := hfirst machine machine' hmachine
  show sim.Ends world good' (Eval.andThen first next machine) (Eval.andThen first' next' machine')
  unfold Eval.andThen
  generalize first machine = outcome at hends ⊢
  generalize first' machine' = outcome' at hends ⊢
  cases hends with
  | tooDeep => exact .tooDeep _
  | stopped hgrows hinterrupt hmachine' => exact .stopped hgrows hinterrupt hmachine'
  | @done world₁ value value' middle middle' hgrows hvalue hmachine' =>
      have hends' := hnext world₁ value value' hgrows hvalue middle middle' hmachine'
      show sim.Ends world good' (next value middle) (next' value' middle')
      generalize next value middle = outcome at hends' ⊢
      generalize next' value' middle' = outcome' at hends' ⊢
      -- The whole sequence grows the world by both steps.
      cases hends' with
      | tooDeep => exact .tooDeep _
      | stopped hgrows' hinterrupt hmachine'' =>
          exact .stopped (h.grows_trans hgrows hgrows') hinterrupt hmachine''
      | done hgrows' hvalue' hmachine'' =>
          exact .done (h.grows_trans hgrows hgrows') hvalue' hmachine''

/-- Returns on their way out with values that are alike. -/
theorem matches_stop_returned (h : sim.Lawful) {value value' : Value}
    (hvalue : sim.value world value value') :
    sim.Matches world good (Eval.stop (.returned value)) (Eval.stop (.returned value')) :=
  fun _ _ hmachine => .stopped (h.grows_refl world) (.returned hvalue) hmachine

/-- The same fault on both sides. -/
theorem matches_fail (h : sim.Lawful) (cause : Fault) :
    sim.Matches world good (Eval.fail cause) (Eval.fail cause) :=
  fun _ _ hmachine => .stopped (h.grows_refl world) (.fault cause) hmachine

/-- Pure operations are compared by their results. -/
theorem matches_ofExcept (h : sim.Lawful) {result result' : Except Fault α}
    (hresult : Except.Alike (good world) result result') :
    sim.Matches world good (Eval.ofExcept result) (Eval.ofExcept result') := by
  cases hresult with
  | ok hgood => exact matches_pure h hgood
  | error fault => exact matches_fail h fault

/-- The value of a name that is no builtin. -/
theorem matches_lookup (h : sim.Lawful) {env env' : Env} (henv : sim.env world env env')
    {name : String} (hname : Builtin.ofName? name = none) :
    sim.Matches world sim.value (Eval.lookup env name) (Eval.lookup env' name) := by
  intro machine machine' hmachine
  refine matches_ofExcept h ?_ machine machine' hmachine
  unfold Store.lookup
  obtain ⟨hnone, hnone'⟩ | ⟨value, value', hsome, hsome', hvalue⟩ :=
    rel_cases (h.lookup hmachine.1 henv hname)
  · rw [hnone, hnone']
    exact .error _
  · rw [hsome, hsome']
    exact .ok hvalue

/-- Values that are alike may be bound. -/
theorem matches_assign (h : sim.Lawful) {env env' : Env} {value value' : Value}
    (henv : sim.env world env env') (name : String) (hvalue : sim.value world value value') :
    sim.Matches world equal (Eval.assign env name value) (Eval.assign env' name value') :=
  fun _ _ hmachine => .done (h.grows_refl world) rfl
    ⟨h.store_bind name hmachine.1 henv hvalue, hmachine.2⟩

/-- New scopes with arguments that are alike may be entered. -/
theorem matches_enter (h : sim.Lawful) {outer outer' : Env} {args args' : List Value}
    (params : List String) (houter : sim.closure world outer outer')
    (hargs : sim.values world args args') :
    sim.Matches world sim.env (Eval.enter outer params args) (Eval.enter outer' params args') := by
  intro machine machine' hmachine
  unfold Eval.enter
  have hscope := Scope.ofArgs_alike params hargs
  generalize Scope.ofArgs params args = result at hscope ⊢
  generalize Scope.ofArgs params args' = result' at hscope ⊢
  cases hscope with
  | error fault => exact .stopped (h.grows_refl world) (.fault fault) hmachine
  | ok hscope =>
      obtain ⟨world', hgrows, henv, hstore⟩ := h.store_enter hmachine.1 houter hscope
      exact .done hgrows henv ⟨hstore, hmachine.2⟩

/-- Values that are alike may be printed. -/
theorem matches_print (h : sim.Lawful) {values values' : List Value}
    (hvalues : sim.values world values values') :
    sim.Matches world equal (Eval.print values) (Eval.print values') :=
  fun _ _ hmachine => .done (h.grows_refl world) rfl
    ⟨hmachine.1, h.printed_append hmachine.2 hvalues⟩

/-- Where returns end, their values are the results. -/
theorem matches_catchReturn {body body' : Eval Value}
    (hbody : sim.Matches world sim.value body body') :
    sim.Matches world sim.value (Eval.catchReturn body) (Eval.catchReturn body') := by
  intro machine machine' hmachine
  have hends := hbody machine machine' hmachine
  unfold Eval.catchReturn
  generalize body machine = outcome at hends ⊢
  generalize body' machine' = outcome' at hends ⊢
  cases hends with
  | tooDeep => exact .tooDeep _
  | done hgrows hvalue hmachine' => exact .done hgrows hvalue hmachine'
  | stopped hgrows hinterrupt hmachine' =>
      cases hinterrupt with
      | fault cause => exact .stopped hgrows (.fault cause) hmachine'
      | returned hvalue => exact .done hgrows hvalue hmachine'

end Simulation

end MonkeyLang
