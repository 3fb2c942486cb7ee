import MonkeyLang.Scope.Store

/-!
# Outcomes of evaluation

Evaluation reads and extends a store of scopes and prints values. It ends with a result, or it is
interrupted by a fault or by a `return` on its way to the call it leaves, or it nests more deeply
than it was allowed to. Only the last says nothing about the program: with more depth there may be
another outcome.
-/

namespace MonkeyLang

/-- What ends an evaluation early. -/
inductive Interrupt where
  | fault (cause : Fault)
  | returned (value : Value)

/-- An interrupt that nothing caught, as a value. -/
def Interrupt.toValue : Interrupt → Value
  | fault cause => .error cause.message
  | returned value => .returned value

/-- What evaluation acts on: the scopes, and the values printed so far. -/
structure Machine where
  store : Store
  printed : List Value

/-- How an evaluation ends. -/
inductive Outcome (α : Type) where
  | done (value : α) (machine : Machine)
  | stopped (interrupt : Interrupt) (machine : Machine)
  | tooDeep

/-- An evaluation that results in an `α`. -/
def Eval (α : Type) : Type :=
  Machine → Outcome α

namespace Eval

variable {α β : Type}

/-- Evaluate one thing and then, unless that was interrupted, the next. -/
@[always_inline, inline]
def andThen (first : Eval α) (next : α → Eval β) : Eval β := fun machine =>
  match first machine with
  | .done value machine' => next value machine'
  | .stopped interrupt machine' => .stopped interrupt machine'
  | .tooDeep => .tooDeep

instance : Monad Eval where
  pure value := fun machine => .done value machine
  bind := andThen

/-- Evaluations in sequence obey the monad laws. -/
instance : LawfulMonad Eval := LawfulMonad.mk' Eval
  (fun evaluation => by
    funext machine
    change (match evaluation machine with
      | .done value machine' => Outcome.done value machine'
      | .stopped interrupt machine' => .stopped interrupt machine'
      | .tooDeep => .tooDeep) = evaluation machine
    cases evaluation machine <;> rfl)
  (fun _ _ => rfl)
  (fun evaluation first second => by
    funext machine
    change andThen (andThen evaluation first) second machine =
      andThen evaluation (fun value => andThen (first value) second) machine
    unfold andThen
    cases evaluation machine <;> rfl)

/-- Stop with an interrupt. -/
def stop (interrupt : Interrupt) : Eval α := fun machine =>
  .stopped interrupt machine

/-- Stop because evaluation nests too deeply. -/
def tooDeep : Eval α := fun _ => .tooDeep

/-- Stop with a fault. -/
def fail (fault : Fault) : Eval α :=
  stop (.fault fault)

/-- Go on with a result, or stop with a fault. -/
def ofExcept : Except Fault α → Eval α
  | .ok value => pure value
  | .error fault => fail fault

/-- The value of a name, if a scope in reach binds it. -/
def lookup? (env : Env) (name : String) : Eval (Option Value) := fun machine =>
  .done (machine.store.lookup? env name) machine

/-- The value of a name, which a scope in reach has to bind. -/
def lookup (env : Env) (name : String) : Eval Value := fun machine =>
  ofExcept (machine.store.lookup env name) machine

/-- Bind a name in the environment's own scope. -/
def assign (env : Env) (name : String) (value : Value) : Eval Unit := fun machine =>
  .done () { machine with store := machine.store.bind env name value }

/-- Enter a new scope inside `outer` that binds parameters to arguments. -/
def enter (outer : Env) (params : List String) (args : List Value) : Eval Env := fun machine =>
  match Scope.ofArgs params args with
  | .ok scope =>
      let (env, store) := machine.store.enter (some outer) scope
      .done env { machine with store := store }
  | .error fault => .stopped (.fault fault) machine

/-- Print values. -/
def print (values : List Value) : Eval Unit := fun machine =>
  .done () { machine with printed := machine.printed ++ values }

/-- End a `return` here: its value becomes the result. -/
def catchReturn (body : Eval Value) : Eval Value := fun machine =>
  match body machine with
  | .stopped (.returned value) machine' => .done value machine'
  | outcome => outcome

end Eval

end MonkeyLang
