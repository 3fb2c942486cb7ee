/-!
# Expressions and statements

The tree of a program. Parentheses leave no node: the nesting of the tree carries them. A program
and the body of a block are lists of statements.
-/

namespace MonkeyLang

/-- The operators that stand before one operand. -/
inductive UnaryOp where
  | not
  | negate
  deriving DecidableEq, Repr

/-- The operators that stand between two operands. -/
inductive BinaryOp where
  | add
  | subtract
  | multiply
  | divide
  | less
  | greater
  | equal
  | notEqual
  deriving DecidableEq, Repr

mutual

/-- An expression. The alternative of `cond` is absent when there is no `else`. The pairs of `hash`
are in source order. -/
inductive Expr where
  | ident (name : String)
  | int (value : Int64)
  | bool (value : Bool)
  | str (text : String)
  | unary (op : UnaryOp) (operand : Expr)
  | binary (left : Expr) (op : BinaryOp) (right : Expr)
  | cond (condition : Expr) (consequence : List Stmt) (alternative : Option (List Stmt))
  | function (params : List String) (body : List Stmt)
  | macroLit (params : List String) (body : List Stmt)
  | call (callee : Expr) (args : List Expr)
  | array (elements : List Expr)
  | hash (pairs : List (Expr × Expr))
  | index (collection : Expr) (position : Expr)

/-- A statement: a binding `let name = value`, a `return`, or an expression. -/
inductive Stmt where
  | bind (name : String) (value : Expr)
  | ret (value : Expr)
  | expr (value : Expr)

end

instance : Inhabited Expr := ⟨.bool false⟩

instance : Inhabited Stmt := ⟨.expr default⟩

/-- The statements between braces. -/
abbrev Block := List Stmt

/-- The statements of one input unit. -/
abbrev Program := List Stmt

/-- The name of an expression that is a plain identifier. -/
def Expr.name? : Expr → Option String
  | .ident name => some name
  | _ => none

/-- The name that an expression calls, if it is a call of a plain identifier. -/
def Expr.calledName? : Expr → Option String
  | .call callee _ => callee.name?
  | _ => none

end MonkeyLang
