import MonkeyLang.Eval.Expansion
import MonkeyLang.Program.Parser

/-!
# Sessions

A session takes one input unit after the other and keeps what they bind: values in one environment
and macros in another. Each unit is parsed, its macros are defined and its macro calls expanded, and
what remains is evaluated.
-/

namespace MonkeyLang

/-- The bindings that outlive an input unit. -/
structure Session where
  store : Store
  values : Env
  macros : Env

/-- What a session says to an input unit. -/
inductive Reply where
  | value (result : Value)
  | nothing
  | rejected (errors : List ParseError)

/-- The reply to a unit, the values that the unit printed, and the session after it. -/
structure Answer where
  reply : Reply
  printed : List Value
  session : Session

namespace Session

/-- A session in which nothing is bound. -/
def new : Session :=
  let (values, store) := Store.empty.enter none .empty
  let (macros, store') := store.enter none .empty
  ⟨store', values, macros⟩

/-- Expand the macro calls of a program and evaluate it. A fault in the expansion is the value, and
then nothing is evaluated. -/
def evalUnit (session : Session) (depth : Nat) (program : Program) (machine : Machine) :
    Option (Option Value × Machine) :=
  match expandMacros depth session.macros program machine with
  | .done expanded machine' => evalProgram depth session.values expanded machine'
  | .stopped interrupt machine' => some (some interrupt.toValue, machine')
  | .tooDeep => none

/-- Take one input unit. There is no answer if evaluation nests more deeply than `depth`. -/
def run (session : Session) (depth : Nat) (source : String) : Option Answer :=
  match parse source with
  | .error errors => some ⟨.rejected errors, [], session⟩
  | .ok program =>
      let store := session.store.defineMacros session.macros (macroDefinitions program)
      match session.evalUnit depth (withoutDefinitions program) ⟨store, []⟩ with
      | some (some value, machine) =>
          some ⟨.value value, machine.printed, { session with store := machine.store }⟩
      | some (none, machine) =>
          some ⟨.nothing, machine.printed, { session with store := machine.store }⟩
      | none => none

/-- The summary of a session: how many values and how many macros it binds. -/
def summary (session : Session) : String :=
  "Session \x7b env: " ++ session.store.summary session.values ++ ", macro_env: " ++
    session.store.summary session.macros ++ " \x7d"

end Session

end MonkeyLang
