import MonkeyLang.Eval.Statements
import MonkeyLang.Expr.Transform

/-!
# Quotation

`quote` makes a value of an expression without evaluating it, except that each call of `unquote` in
it is evaluated and replaced by an expression that stands for the result.
-/

namespace MonkeyLang

/-- The expression that stands for a value: a literal, or the code that was quoted. -/
def Value.reify : Value → Except Fault Expr
  | int value => .ok (.int value)
  | bool value => .ok (.bool value)
  | quote expr => .ok expr
  | other => .error (.notReifiable other.kind)

/-- Replace a call of `unquote` by the expression that stands for its argument's value. Other
expressions stay. -/
def unquote (evaluate : Evaluator) (env : Env) (expr : Expr) : Eval Expr :=
  match expr with
  | .call callee args =>
      if callee.name? = some "unquote" then
        match args with
        | [arg] => do
            let value ← evaluate env arg
            Eval.ofExcept value.reify
        | args => Eval.fail (.argCount "unquote" args.length 1)
      else
        pure expr
  | _ => pure expr

/-- Quote the only argument of a call of `quote`. -/
def quoteArgs (evaluate : Evaluator) (env : Env) (args : List Expr) : Eval Value :=
  match args with
  | [arg] => do
      let expr ← arg.transformM (unquote evaluate env)
      return .quote expr
  | args => Eval.fail (.argCount "quote" args.length 1)

end MonkeyLang
