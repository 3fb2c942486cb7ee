import MonkeyLang.Eval.Expansion
import MonkeyLang.Proofs.Expr.Transform
import MonkeyLang.Proofs.Value.Parts

/-!
# Invariants of evaluation

An invariant says which environments, values and stores evaluation may meet, given what is known of
the scopes so far: a world, which grows as scopes are entered. `Invariant.Lawful` lists what the
evaluator relies on, and `Invariant.Runs` says that an evaluation keeps the invariant, whatever its
outcome. The rules below are those of the operations that evaluations are made of; read
`Invariant.runs_bind` first.
-/

namespace MonkeyLang

/-- What evaluation may meet in each world. -/
structure Invariant where
  World : Type
  grows : World → World → Prop
  /-- The environments that code is evaluated in. -/
  env : World → Env → Prop
  /-- The environments that functions and macros remember. -/
  closure : World → Env → Prop
  value : World → Value → Prop
  store : World → Store → Prop

namespace Invariant

/-- What evaluation relies on: values are good by their parts, and the store operations keep to the
invariant. -/
structure Lawful (inv : Invariant) : Prop where
  grows_refl : ∀ world, inv.grows world world
  grows_trans : ∀ {first second third}, inv.grows first second → inv.grows second third →
    inv.grows first third
  env_mono : ∀ {world world' env}, inv.grows world world' → inv.env world env → inv.env world' env
  value_mono : ∀ {world world' value}, inv.grows world world' → inv.value world value →
    inv.value world' value
  closure_of_env : ∀ {world env}, inv.env world env → inv.closure world env
  value_atom : ∀ {world value}, value.IsAtom → inv.value world value
  value_array : ∀ {world elements},
    inv.value world (.array elements) ↔ ∀ element ∈ elements, inv.value world element
  value_hash : ∀ {world entries}, inv.value world (.hash entries) ↔
    ∀ entry ∈ entries, inv.value world entry.key ∧ inv.value world entry.value
  value_function : ∀ {world params body env},
    inv.value world (.function params body env) ↔ inv.closure world env
  value_macroFn : ∀ {world params body env},
    inv.value world (.macroFn params body env) ↔ inv.closure world env
  value_lookup : ∀ {world store env name value}, inv.store world store → inv.env world env →
    store.lookup? env name = some value → inv.value world value
  store_bind : ∀ {world store env value} (name : String), inv.store world store →
    inv.env world env → inv.value world value → inv.store world (store.bind env name value)
  store_enter : ∀ {world store outer params args scope}, inv.store world store →
    inv.closure world outer → (∀ arg ∈ args, inv.value world arg) →
    Scope.ofArgs params args = .ok scope → ∃ world', inv.grows world world' ∧
      inv.env world' (store.enter (some outer) scope).1 ∧
      inv.store world' (store.enter (some outer) scope).2

variable {inv : Invariant} {α β : Type}

/-- Whether an interrupt is allowed: a fault always is, and a `return` by the value it carries. -/
def Stops (returned : Value → Prop) : Interrupt → Prop
  | .fault _ => True
  | .returned value => returned value

/-- Whether an outcome keeps the invariant in a world that `world` grew into. -/
def Ends (inv : Invariant) (world : inv.World) (good : inv.World → α → Prop)
    (returned : inv.World → Value → Prop) : Outcome α → Prop
  | .done value machine =>
      ∃ world', inv.grows world world' ∧ good world' value ∧ inv.store world' machine.store
  | .stopped interrupt machine =>
      ∃ world', inv.grows world world' ∧ Stops (returned world') interrupt ∧
        inv.store world' machine.store
  | .tooDeep => True

/-- Whether an evaluation keeps the invariant, results in a good value and returns only what is
allowed. -/
def Runs (inv : Invariant) (world : inv.World) (good : inv.World → α → Prop)
    (returned : inv.World → Value → Prop) (action : Eval α) : Prop :=
  ∀ machine, inv.store world machine.store → inv.Ends world good returned (action machine)

/-- No result of an evaluation is excluded. -/
def anyResult (_ : inv.World) (_ : α) : Prop := True

/-- No `return` may leave the evaluation. -/
def noReturn (_ : inv.World) (_ : Value) : Prop := False

/-- The values of a list are good. -/
def values (inv : Invariant) (world : inv.World) (values : List Value) : Prop :=
  ∀ value ∈ values, inv.value world value

/-- A value is good if there is one. -/
def optional (inv : Invariant) (world : inv.World) (value? : Option Value) : Prop :=
  ∀ value, value? = some value → inv.value world value

/-- The keys and values of entries are good. -/
def entries (inv : Invariant) (world : inv.World) (entries : List (Entry Value)) : Prop :=
  ∀ entry ∈ entries, inv.value world entry.key ∧ inv.value world entry.value

/-! ## Rules for the operations of evaluation -/

variable {world : inv.World} {good : inv.World → α → Prop} {good' : inv.World → β → Prop}
  {returned : inv.World → Value → Prop}

/-- A result is an evaluation that changes nothing. -/
theorem runs_pure (h : inv.Lawful) {value : α} (hgood : good world value) :
    inv.Runs world good returned (pure value) := by
  intro machine hstore
  exact ⟨world, h.grows_refl world, hgood, hstore⟩

/-- Evaluations in sequence: the second starts in a world that the first one grew. -/
theorem runs_bind (h : inv.Lawful) {first : Eval α} {next : α → Eval β}
    (hfirst : inv.Runs world good returned first)
    (hnext : ∀ world' value, inv.grows world world' → good world' value →
      inv.Runs world' good' returned (next value)) :
    inv.Runs world good' returned (first >>= next) := by
  intro machine hstore
  have hends := hfirst machine hstore
  show inv.Ends world good' returned (Eval.andThen first next machine)
  unfold Eval.andThen
  cases hout : first machine with
  | tooDeep => trivial
  | stopped interrupt machine' =>
      rw [hout] at hends
      exact hends
  | done value machine' =>
      rw [hout] at hends
      obtain ⟨world', hgrows, hvalue, hstore'⟩ := hends
      -- The second evaluation starts in the world in which the first one ended.
      have hends' := hnext world' value hgrows hvalue machine' hstore'
      show inv.Ends world good' returned (next value machine')
      cases hout' : next value machine' with
      | tooDeep => trivial
      | stopped interrupt machine'' | done value' machine'' =>
          rw [hout'] at hends'
          obtain ⟨world'', hgrows', hrest⟩ := hends'
          exact ⟨world'', h.grows_trans hgrows hgrows', hrest⟩

/-- Allowing more results and more returns. -/
theorem Runs.mono {good' : inv.World → α → Prop} {returned' : inv.World → Value → Prop}
    {action : Eval α} (hruns : inv.Runs world good returned action)
    (hgood : ∀ world' value, good world' value → good' world' value)
    (hreturned : ∀ world' value, returned world' value → returned' world' value) :
    inv.Runs world good' returned' action := by
  intro machine hstore
  have hends := hruns machine hstore
  cases hout : action machine with
  | tooDeep => trivial
  | done value machine' =>
      rw [hout] at hends
      obtain ⟨world', hgrows, hvalue, hstore'⟩ := hends
      exact ⟨world', hgrows, hgood world' value hvalue, hstore'⟩
  | stopped interrupt machine' =>
      rw [hout] at hends
      obtain ⟨world', hgrows, hstops, hstore'⟩ := hends
      refine ⟨world', hgrows, ?_, hstore'⟩
      cases interrupt with
      | fault cause => trivial
      | returned value => exact hreturned world' value hstops

/-- A `return` is on its way out with an allowed value. -/
theorem runs_stop_returned (h : inv.Lawful) {value : Value} (hvalue : returned world value) :
    inv.Runs world good returned (Eval.stop (.returned value)) := by
  intro machine hstore
  exact ⟨world, h.grows_refl world, hvalue, hstore⟩

/-- A fault is always allowed. -/
theorem runs_fail (h : inv.Lawful) (cause : Fault) :
    inv.Runs world good returned (Eval.fail cause) := by
  intro machine hstore
  exact ⟨world, h.grows_refl world, trivial, hstore⟩

/-- A pure operation is judged by its result. -/
theorem runs_ofExcept (h : inv.Lawful) {result : Except Fault α}
    (hgood : ∀ value, result = .ok value → good world value) :
    inv.Runs world good returned (Eval.ofExcept result) := by
  cases result with
  | ok value => exact runs_pure h (hgood value rfl)
  | error cause => exact runs_fail h cause

/-- What a name is looked up as in an environment is good, from a world on. -/
def Reads (inv : Invariant) (world : inv.World) (env : Env) : Prop :=
  ∀ ⦃world' store name value⦄, inv.grows world world' → inv.store world' store →
    store.lookup? env name = some value → inv.value world' value

/-- Environments that code is evaluated in can be read. -/
theorem reads_of_env (h : inv.Lawful) {env : Env} (henv : inv.env world env) :
    inv.Reads world env :=
  fun _ _ _ _ hgrows hstore hlookup => h.value_lookup hstore (h.env_mono hgrows henv) hlookup

/-- What a scope in reach binds is good. -/
theorem runs_lookup? (h : inv.Lawful) {env : Env} (hreads : inv.Reads world env) (name : String) :
    inv.Runs world inv.optional returned (Eval.lookup? env name) := by
  intro machine hstore
  have hrefl := h.grows_refl world
  exact ⟨world, hrefl, fun value hfound => hreads hrefl hstore hfound, hstore⟩

/-- The value of a name is good. -/
theorem runs_lookup (h : inv.Lawful) {env : Env} (henv : inv.env world env) (name : String) :
    inv.Runs world inv.value returned (Eval.lookup env name) := by
  intro machine hstore
  refine runs_ofExcept h ?_ machine hstore
  intro value hfound
  unfold Store.lookup at hfound
  split at hfound
  · next bound hbound =>
      cases hfound
      exact h.value_lookup hstore henv hbound
  · cases hfound

/-- A good value may be bound. -/
theorem runs_assign (h : inv.Lawful) {env : Env} {value : Value} (henv : inv.env world env)
    (name : String) (hvalue : inv.value world value) :
    inv.Runs world anyResult returned (Eval.assign env name value) := by
  intro machine hstore
  exact ⟨world, h.grows_refl world, trivial, h.store_bind name hstore henv hvalue⟩

/-- A new scope with good arguments may be entered. -/
theorem runs_enter (h : inv.Lawful) {outer : Env} {args : List Value} (params : List String)
    (houter : inv.closure world outer) (hargs : inv.values world args) :
    inv.Runs world inv.env returned (Eval.enter outer params args) := by
  intro machine hstore
  unfold Eval.enter
  cases hscope : Scope.ofArgs params args with
  | ok scope => exact h.store_enter hstore houter hargs hscope
  | error cause => exact ⟨world, h.grows_refl world, trivial, hstore⟩

/-- Printing leaves the scopes alone. -/
theorem runs_print (h : inv.Lawful) (values : List Value) :
    inv.Runs world anyResult returned (Eval.print values) := by
  intro machine hstore
  exact ⟨world, h.grows_refl world, trivial, hstore⟩

/-- Where a `return` ends, its value is the result and none leaves. -/
theorem runs_catchReturn {body : Eval Value} (hbody : inv.Runs world inv.value inv.value body) :
    inv.Runs world inv.value noReturn (Eval.catchReturn body) := by
  intro machine hstore
  have hends := hbody machine hstore
  unfold Eval.catchReturn
  cases hout : body machine with
  | tooDeep => trivial
  | done value machine' =>
      rw [hout] at hends
      exact hends
  | stopped interrupt machine' =>
      rw [hout] at hends
      cases interrupt with
      | fault cause => exact hends
      | returned value =>
          -- What a `return` may carry here is what a result may be.
          exact hends

end Invariant

end MonkeyLang
