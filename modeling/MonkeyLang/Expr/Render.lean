import MonkeyLang.Expr.Basic
import MonkeyLang.Text.Decimal

/-!
# Printing expressions and statements

Every operator application is printed in parentheses, so that the printed text shows how operands
group. Statements are separated by single blanks and only bindings and returns end in a semicolon.
-/

namespace MonkeyLang

/-- The symbol of a unary operator. -/
def UnaryOp.symbol : UnaryOp → String
  | not => "!"
  | negate => "-"

/-- The symbol of a binary operator. -/
def BinaryOp.symbol : BinaryOp → String
  | add => "+"
  | subtract => "-"
  | multiply => "*"
  | divide => "/"
  | less => "<"
  | greater => ">"
  | equal => "=="
  | notEqual => "!="

/-- A block of already printed statements in its braces. -/
def braced (statements : List String) : String :=
  "\x7b " ++ " ".intercalate statements ++ " \x7d"

/-- A printed parameter list and body after the word that introduces them. -/
def renderClosure (keyword : String) (params : List String) (statements : List String) : String :=
  keyword ++ "(" ++ ", ".intercalate params ++ ") " ++ braced statements

mutual

/-- The printed form of an expression. -/
def Expr.render : Expr → String
  | .ident name => name
  | .int value => decimal value.toInt
  | .bool value => if value then "true" else "false"
  | .str text => "\"" ++ text ++ "\""
  | .unary op operand => "(" ++ op.symbol ++ operand.render ++ ")"
  | .binary left op right => "(" ++ left.render ++ " " ++ op.symbol ++ " " ++ right.render ++ ")"
  | .cond condition consequence none =>
      "if " ++ condition.render ++ " " ++ braced (renderStmts consequence)
  | .cond condition consequence (some alternative) =>
      "if " ++ condition.render ++ " " ++ braced (renderStmts consequence) ++ " else " ++
        braced (renderStmts alternative)
  | .function params body => renderClosure "fn" params (renderStmts body)
  | .macroLit params body => renderClosure "macro" params (renderStmts body)
  | .call callee args => callee.render ++ "(" ++ ", ".intercalate (renderExprs args) ++ ")"
  | .array elements => "[" ++ ", ".intercalate (renderExprs elements) ++ "]"
  | .hash pairs => "\x7b" ++ ", ".intercalate (renderPairs pairs) ++ "\x7d"
  | .index collection position => "(" ++ collection.render ++ "[" ++ position.render ++ "])"

/-- The printed form of a statement. -/
def Stmt.render : Stmt → String
  | .bind name value => "let " ++ name ++ " = " ++ value.render ++ ";"
  | .ret value => "return " ++ value.render ++ ";"
  | .expr value => value.render

/-- The printed forms of statements. -/
def renderStmts : List Stmt → List String
  | [] => []
  | statement :: statements => statement.render :: renderStmts statements

/-- The printed forms of expressions. -/
def renderExprs : List Expr → List String
  | [] => []
  | expr :: exprs => expr.render :: renderExprs exprs

/-- The printed forms of the pairs of a hash literal. -/
def renderPairs : List (Expr × Expr) → List String
  | [] => []
  | (key, value) :: pairs => (key.render ++ ": " ++ value.render) :: renderPairs pairs

end

/-- The printed form of a program or of the inside of a block. -/
def renderProgram (program : Program) : String :=
  " ".intercalate (renderStmts program)

/-- Statements are printed one by one. -/
theorem renderStmts_eq_map (statements : List Stmt) :
    renderStmts statements = statements.map Stmt.render := by
  induction statements with
  | nil => rfl
  | cons statement statements ih => rw [renderStmts, ih, List.map_cons]

/-- Expressions are printed one by one. -/
theorem renderExprs_eq_map (exprs : List Expr) : renderExprs exprs = exprs.map Expr.render := by
  induction exprs with
  | nil => rfl
  | cons expr exprs ih => rw [renderExprs, ih, List.map_cons]

/-- Pairs are printed one by one. -/
theorem renderPairs_eq_map (pairs : List (Expr × Expr)) :
    renderPairs pairs = pairs.map fun pair => pair.1.render ++ ": " ++ pair.2.render := by
  induction pairs with
  | nil => rfl
  | cons pair pairs ih => rw [renderPairs, ih, List.map_cons]

end MonkeyLang
