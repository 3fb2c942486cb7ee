import MonkeyLang.Proofs.Expr.All
import MonkeyLang.Value.Basic

/-!
# Templates

A template is the code of a macro that only quotes: a tree in which calls of `unquote` on parameters
are the holes. `Expr.fill` puts trees into the holes, all at once. `rewriteProgram` is what the
expansion of macros comes to if all macros are templates: every call of one is replaced by its
filled code, innermost calls first. Both are defined here on their own. They are compared with the
evaluation of macros in `Proofs.Macro.Substitution`.
-/

namespace MonkeyLang

/-- The parameters of a macro and the code that it quotes. -/
structure Template where
  params : List String
  code : Expr

/-- The macro whose body is a quotation of the code. -/
def Template.toMacro (template : Template) (env : Env) : Value :=
  .macroFn template.params [.expr (.call (.ident "quote") [template.code])] env

/-! ## Filling holes -/

/-- The name in a hole: a call of `unquote` on a name. -/
def hole? (callee : Expr) (args : List Expr) : Option String :=
  match args with
  | [.ident name] => if callee.name? = some "unquote" then some name else none
  | _ => none

mutual

/-- Put trees into the holes of an expression, by the names in the holes. The trees are not looked
at. -/
def Expr.fill (trees : List (String × Expr)) : Expr → Expr
  | .ident name => .ident name
  | .int value => .int value
  | .bool value => .bool value
  | .str text => .str text
  | .unary op operand => .unary op (operand.fill trees)
  | .binary left op right => .binary (left.fill trees) op (right.fill trees)
  | .cond condition consequence none =>
      .cond (condition.fill trees) (fillStmts trees consequence) none
  | .cond condition consequence (some alternative) =>
      .cond (condition.fill trees) (fillStmts trees consequence)
        (some (fillStmts trees alternative))
  | .function params body => .function params (fillStmts trees body)
  | .macroLit params body => .macroLit params (fillStmts trees body)
  | .call callee args =>
      match (hole? callee args).bind fun name => trees.lookup name with
      | some tree => tree
      | none => .call (callee.fill trees) (fillExprs trees args)
  | .array elements => .array (fillExprs trees elements)
  | .hash pairs => .hash (fillPairs trees pairs)
  | .index collection position => .index (collection.fill trees) (position.fill trees)

/-- Put trees into the holes of a statement. -/
def Stmt.fill (trees : List (String × Expr)) : Stmt → Stmt
  | .bind name value => .bind name (value.fill trees)
  | .ret value => .ret (value.fill trees)
  | .expr value => .expr (value.fill trees)

/-- Put trees into the holes of statements. -/
def fillStmts (trees : List (String × Expr)) : List Stmt → List Stmt
  | [] => []
  | statement :: statements => statement.fill trees :: fillStmts trees statements

/-- Put trees into the holes of expressions. -/
def fillExprs (trees : List (String × Expr)) : List Expr → List Expr
  | [] => []
  | expr :: exprs => expr.fill trees :: fillExprs trees exprs

/-- Put trees into the holes of pairs. -/
def fillPairs (trees : List (String × Expr)) : List (Expr × Expr) → List (Expr × Expr)
  | [] => []
  | (key, value) :: pairs => (key.fill trees, value.fill trees) :: fillPairs trees pairs

end

/-- Whether a template may contain the expression: a call of `unquote` has one parameter as its only
argument, and what is called is no call of `unquote`. -/
def Expr.FitsTemplate (params : List String) : Expr → Prop
  | .call callee args => callee.calledName? ≠ some "unquote" ∧
      (callee.name? = some "unquote" → ∃ name ∈ params, args = [.ident name])
  | _ => True

/-- The parameters are distinct and none is the name of a builtin, and the code may stand in the
template. -/
structure Template.WellFormed (template : Template) : Prop where
  nodup : template.params.Nodup
  notBuiltin : ∀ name ∈ template.params, Builtin.ofName? name = none
  code : template.code.All (Expr.FitsTemplate template.params) fun _ => True

/-! ## Rewriting calls of templates -/

/-- A call of a template. -/
structure TemplateCall where
  template : Template
  args : List Expr

/-- Whether a call has as many arguments as the template has parameters. -/
def TemplateCall.fits (call : TemplateCall) : Bool :=
  call.template.params.length = call.args.length

/-- The code that a call is replaced by. -/
def TemplateCall.result (call : TemplateCall) : Expr :=
  call.template.code.fill (call.template.params.zip call.args)

/-- A rewritten tree, and the calls of templates that were met on the way, in order. -/
structure Rewriting (α : Type) where
  calls : List TemplateCall
  result : α

instance : Monad Rewriting where
  pure result := ⟨[], result⟩
  bind first next := ⟨first.calls ++ (next first.result).calls, (next first.result).result⟩

/-- Rewrite a call whose callee and arguments are rewritten already. -/
def rewriteCall (templates : String → Option Template) (callee : Expr) (args : List Expr) :
    Rewriting Expr :=
  match callee.name?.bind templates with
  | some template =>
      let call : TemplateCall := ⟨template, args⟩
      ⟨[call], call.result⟩
  | none => pure (.call callee args)

section Rewrite

variable (templates : String → Option Template)

mutual

/-- Rewrite the calls of templates in an expression, innermost calls first. -/
def Expr.rewrite : Expr → Rewriting Expr
  | .ident name => pure (.ident name)
  | .int value => pure (.int value)
  | .bool value => pure (.bool value)
  | .str text => pure (.str text)
  | .unary op operand => do
      let operand' ← operand.rewrite
      return .unary op operand'
  | .binary left op right => do
      let left' ← left.rewrite
      let right' ← right.rewrite
      return .binary left' op right'
  | .cond condition consequence none => do
      let condition' ← condition.rewrite
      let consequence' ← rewriteStmts consequence
      return .cond condition' consequence' none
  | .cond condition consequence (some alternative) => do
      let condition' ← condition.rewrite
      let consequence' ← rewriteStmts consequence
      let alternative' ← rewriteStmts alternative
      return .cond condition' consequence' (some alternative')
  | .function params body => do
      let body' ← rewriteStmts body
      return .function params body'
  | .macroLit params body => do
      let body' ← rewriteStmts body
      return .macroLit params body'
  | .call callee args => do
      let callee' ← callee.rewrite
      let args' ← rewriteExprs args
      rewriteCall templates callee' args'
  | .array elements => do
      let elements' ← rewriteExprs elements
      return .array elements'
  | .hash pairs => do
      let pairs' ← rewritePairs pairs
      return .hash pairs'
  | .index collection position => do
      let collection' ← collection.rewrite
      let position' ← position.rewrite
      return .index collection' position'

/-- Rewrite the calls of templates in a statement. -/
def Stmt.rewrite : Stmt → Rewriting Stmt
  | .bind name value => do
      let value' ← value.rewrite
      return .bind name value'
  | .ret value => do
      let value' ← value.rewrite
      return .ret value'
  | .expr value => do
      let value' ← value.rewrite
      return .expr value'

/-- Rewrite the calls of templates in statements, from the first to the last. -/
def rewriteStmts : List Stmt → Rewriting (List Stmt)
  | [] => pure []
  | statement :: statements => do
      let statement' ← statement.rewrite
      let statements' ← rewriteStmts statements
      return statement' :: statements'

/-- Rewrite the calls of templates in expressions, from the first to the last. -/
def rewriteExprs : List Expr → Rewriting (List Expr)
  | [] => pure []
  | expr :: exprs => do
      let expr' ← expr.rewrite
      let exprs' ← rewriteExprs exprs
      return expr' :: exprs'

/-- Rewrite the calls of templates in pairs, from the first to the last, each key before its
value. -/
def rewritePairs : List (Expr × Expr) → Rewriting (List (Expr × Expr))
  | [] => pure []
  | (key, value) :: pairs => do
      let key' ← key.rewrite
      let value' ← value.rewrite
      let pairs' ← rewritePairs pairs
      return (key', value') :: pairs'

end

/-- Rewrite the calls of templates in a program. -/
def rewriteProgram (program : Program) : Rewriting Program :=
  rewriteStmts templates program

end Rewrite

end MonkeyLang
