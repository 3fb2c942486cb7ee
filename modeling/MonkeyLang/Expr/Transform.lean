import MonkeyLang.Expr.Basic

/-!
# Transforming programs bottom up

The walk rebuilds every expression from its transformed children and then hands it to `visit`, which
may have effects and may fail. Children are visited from left to right before their parent, and
what `visit` returns is not visited again.
-/

namespace MonkeyLang

variable {m : Type → Type} [Monad m]

mutual

/-- Transform an expression and everything inside it. -/
def Expr.transformM (visit : Expr → m Expr) : Expr → m Expr
  | .ident name => visit (.ident name)
  | .int value => visit (.int value)
  | .bool value => visit (.bool value)
  | .str text => visit (.str text)
  | .unary op operand => do
      let operand' ← operand.transformM visit
      visit (.unary op operand')
  | .binary left op right => do
      let left' ← left.transformM visit
      let right' ← right.transformM visit
      visit (.binary left' op right')
  | .cond condition consequence none => do
      let condition' ← condition.transformM visit
      let consequence' ← transformStmtsM visit consequence
      visit (.cond condition' consequence' none)
  | .cond condition consequence (some alternative) => do
      let condition' ← condition.transformM visit
      let consequence' ← transformStmtsM visit consequence
      let alternative' ← transformStmtsM visit alternative
      visit (.cond condition' consequence' (some alternative'))
  | .function params body => do
      let body' ← transformStmtsM visit body
      visit (.function params body')
  | .macroLit params body => do
      let body' ← transformStmtsM visit body
      visit (.macroLit params body')
  | .call callee args => do
      let callee' ← callee.transformM visit
      let args' ← transformExprsM visit args
      visit (.call callee' args')
  | .array elements => do
      let elements' ← transformExprsM visit elements
      visit (.array elements')
  | .hash pairs => do
      let pairs' ← transformPairsM visit pairs
      visit (.hash pairs')
  | .index collection position => do
      let collection' ← collection.transformM visit
      let position' ← position.transformM visit
      visit (.index collection' position')

/-- Transform the expressions of a statement. -/
def Stmt.transformM (visit : Expr → m Expr) : Stmt → m Stmt
  | .bind name value => do
      let value' ← value.transformM visit
      pure (.bind name value')
  | .ret value => do
      let value' ← value.transformM visit
      pure (.ret value')
  | .expr value => do
      let value' ← value.transformM visit
      pure (.expr value')

/-- Transform statements from the first to the last. -/
def transformStmtsM (visit : Expr → m Expr) : List Stmt → m (List Stmt)
  | [] => pure []
  | statement :: statements => do
      let statement' ← statement.transformM visit
      let statements' ← transformStmtsM visit statements
      pure (statement' :: statements')

/-- Transform expressions from the first to the last. -/
def transformExprsM (visit : Expr → m Expr) : List Expr → m (List Expr)
  | [] => pure []
  | expr :: exprs => do
      let expr' ← expr.transformM visit
      let exprs' ← transformExprsM visit exprs
      pure (expr' :: exprs')

/-- Transform pairs from the first to the last, each key before its value. -/
def transformPairsM (visit : Expr → m Expr) : List (Expr × Expr) → m (List (Expr × Expr))
  | [] => pure []
  | (key, value) :: pairs => do
      let key' ← key.transformM visit
      let value' ← value.transformM visit
      let pairs' ← transformPairsM visit pairs
      pure ((key', value') :: pairs')

end

/-- Transform every expression of a program. -/
def transformProgramM (visit : Expr → m Expr) (program : Program) : m Program :=
  transformStmtsM visit program

end MonkeyLang
