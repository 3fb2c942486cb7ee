import MonkeyLang.Eval.Operators
import MonkeyLang.Eval.Quotation

/-!
# Evaluating expressions

`evalStep` evaluates one expression given a way to evaluate the expressions inside it, and `eval`
closes the recursion at a given depth. Operands, arguments, elements and pairs are evaluated from
left to right, and the first interrupt ends the evaluation. The names of builtins always mean the
builtins.
-/

namespace MonkeyLang

/-- Evaluate expressions from the first to the last. -/
def evalAll (evaluate : Evaluator) (env : Env) : List Expr → Eval (List Value)
  | [] => pure []
  | expr :: exprs => do
      let value ← evaluate env expr
      let values ← evalAll evaluate env exprs
      return value :: values

/-- Evaluate the pairs of a hash literal into entries. Each key has to be hashable before its value
is evaluated, and a later pair takes the place of an earlier one with the same hash key. -/
def evalPairs (evaluate : Evaluator) (env : Env) (entries : List (Entry Value)) :
    List (Expr × Expr) → Eval (List (Entry Value))
  | [] => pure entries
  | (keyExpr, valueExpr) :: pairs => do
      let key ← evaluate env keyExpr
      let hashKey ← Eval.ofExcept key.hashKey
      let value ← evaluate env valueExpr
      evalPairs evaluate env (insertEntry ⟨hashKey, key, value⟩ entries) pairs

/-- The value of a name: the builtin of that name, or what the environment binds it to. -/
def evalName (env : Env) (name : String) : Eval Value :=
  match Builtin.ofName? name with
  | some builtin => pure (.builtin builtin)
  | none => Eval.lookup env name

/-- Evaluate an expression by way of an evaluator for the expressions inside it. -/
def evalStep (evaluate : Evaluator) (env : Env) : Expr → Eval Value
  | .ident name => evalName env name
  | .int value => pure (.int value)
  | .bool value => pure (.bool value)
  | .str text => pure (.str text)
  | .unary op operand => do
      let value ← evaluate env operand
      Eval.ofExcept (op.apply value)
  | .binary left op right => do
      let leftValue ← evaluate env left
      let rightValue ← evaluate env right
      Eval.ofExcept (op.apply leftValue rightValue)
  | .cond condition consequence alternative => do
      let value ← evaluate env condition
      if value.truthy then
        evalBlock evaluate env consequence
      else
        match alternative with
        | some block => evalBlock evaluate env block
        | none => pure .null
  | .function params body => pure (.function params body env)
  | .macroLit params body => pure (.macroFn params body env)
  | .call callee args =>
      if callee.name? = some "quote" then
        quoteArgs evaluate env args
      else do
        let function ← evaluate env callee
        let values ← evalAll evaluate env args
        applyValue evaluate function values
  | .array elements => do
      let values ← evalAll evaluate env elements
      return .array values
  | .hash pairs => do
      let entries ← evalPairs evaluate env [] pairs
      return .hash entries
  | .index collection position => do
      let collectionValue ← evaluate env collection
      let positionValue ← evaluate env position
      Eval.ofExcept (collectionValue.indexBy positionValue)

/-- Evaluate an expression to a nesting depth of at most `depth`. -/
def eval : (depth : Nat) → Evaluator
  | 0 => fun _ _ => Eval.tooDeep
  | depth + 1 => fun env expr => evalStep (eval depth) env expr

/-- What a program comes to when nothing is left to catch an interrupt: a `return` gives its value,
and a fault is reported as an error value. -/
def settle : Outcome (Option Value) → Option (Option Value × Machine)
  | .done value machine => some (value, machine)
  | .stopped (.returned value) machine => some (some value, machine)
  | .stopped (.fault cause) machine => some (some (.error cause.message), machine)
  | .tooDeep => none

/-- Evaluate a program. It has no value if its last statement is a binding or it has no statement.
The outcome is missing if evaluation nests more deeply than `depth`. -/
def evalProgram (depth : Nat) (env : Env) (program : Program) (machine : Machine) :
    Option (Option Value × Machine) :=
  settle (evalStmts (eval depth) env none program machine)

end MonkeyLang
