import MonkeyLang.Eval.Builtins
import MonkeyLang.Eval.Outcome

/-!
# Evaluating statements and calls

Statements, blocks and calls are evaluated by way of an evaluator for the expressions in them, which
is a parameter here. A block evaluates in the environment it is given. Only a call enters a new
scope, and only a call ends a `return`.
-/

namespace MonkeyLang

/-- A way to evaluate expressions. -/
abbrev Evaluator := Env → Expr → Eval Value

/-- Evaluate a statement. A binding has no value. -/
def evalStmt (evaluate : Evaluator) (env : Env) : Stmt → Eval (Option Value)
  | .expr expr => do
      let value ← evaluate env expr
      return some value
  | .ret expr => do
      let value ← evaluate env expr
      Eval.stop (.returned value)
  | .bind name expr => do
      let value ← evaluate env expr
      Eval.assign env name value
      return none

/-- Evaluate statements in order. The value is that of the last one, or `last` if there is none. -/
def evalStmts (evaluate : Evaluator) (env : Env) (last : Option Value) :
    List Stmt → Eval (Option Value)
  | [] => pure last
  | statement :: statements => do
      let value ← evalStmt evaluate env statement
      evalStmts evaluate env value statements

/-- Evaluate a block. It has a value in any case: null if its last statement has none. -/
def evalBlock (evaluate : Evaluator) (env : Env) (block : Block) : Eval Value := do
  let value ← evalStmts evaluate env none block
  return value.getD .null

/-- Evaluate a body in a new scope that binds parameters to arguments. A `return` in the body ends
here. -/
def evalBody (evaluate : Evaluator) (params : List String) (body : Block) (env : Env)
    (args : List Value) : Eval Value := do
  let inner ← Eval.enter env params args
  Eval.catchReturn (evalBlock evaluate inner body)

/-- Call a builtin. -/
def callBuiltin (builtin : Builtin) (args : List Value) : Eval Value := do
  let (value, printed) ← Eval.ofExcept (builtin.apply args)
  Eval.print printed
  return value

/-- Call a value with arguments. -/
def applyValue (evaluate : Evaluator) (callee : Value) (args : List Value) : Eval Value :=
  match callee with
  | .function params body env => evalBody evaluate params body env args
  | .builtin builtin => callBuiltin builtin args
  | other => Eval.fail (.notAFunction other.kind)

end MonkeyLang
