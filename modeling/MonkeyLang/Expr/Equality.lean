import MonkeyLang.Expr.Basic

/-!
# Equality of expressions

Expressions are compared structurally. The comparison decides equality of trees
(`Expr.same_iff`, `Stmt.same_iff`).
-/

namespace MonkeyLang

mutual

/-- Whether two expressions are the same tree. -/
def Expr.same : Expr → Expr → Bool
  | .ident name, .ident name' => name == name'
  | .int value, .int value' => value == value'
  | .bool value, .bool value' => value == value'
  | .str text, .str text' => text == text'
  | .unary op operand, .unary op' operand' => op == op' && operand.same operand'
  | .binary left op right, .binary left' op' right' =>
      left.same left' && op == op' && right.same right'
  | .cond condition consequence none, .cond condition' consequence' none =>
      condition.same condition' && sameStmts consequence consequence'
  | .cond condition consequence (some alternative),
      .cond condition' consequence' (some alternative') =>
      condition.same condition' && sameStmts consequence consequence' &&
        sameStmts alternative alternative'
  | .function params body, .function params' body' => params == params' && sameStmts body body'
  | .macroLit params body, .macroLit params' body' => params == params' && sameStmts body body'
  | .call callee args, .call callee' args' => callee.same callee' && sameExprs args args'
  | .array elements, .array elements' => sameExprs elements elements'
  | .hash pairs, .hash pairs' => samePairs pairs pairs'
  | .index collection position, .index collection' position' =>
      collection.same collection' && position.same position'
  | _, _ => false

/-- Whether two statements are the same tree. -/
def Stmt.same : Stmt → Stmt → Bool
  | .bind name value, .bind name' value' => name == name' && value.same value'
  | .ret value, .ret value' => value.same value'
  | .expr value, .expr value' => value.same value'
  | _, _ => false

/-- Whether two statement lists are the same. -/
def sameStmts : List Stmt → List Stmt → Bool
  | [], [] => true
  | statement :: statements, statement' :: statements' =>
      statement.same statement' && sameStmts statements statements'
  | _, _ => false

/-- Whether two expression lists are the same. -/
def sameExprs : List Expr → List Expr → Bool
  | [], [] => true
  | expr :: exprs, expr' :: exprs' => expr.same expr' && sameExprs exprs exprs'
  | _, _ => false

/-- Whether two lists of pairs are the same. -/
def samePairs : List (Expr × Expr) → List (Expr × Expr) → Bool
  | [], [] => true
  | (key, value) :: pairs, (key', value') :: pairs' =>
      key.same key' && value.same value' && samePairs pairs pairs'
  | _, _ => false

end

mutual

/-- Two expressions compare as the same exactly if they are equal. -/
theorem Expr.same_iff : ∀ left right : Expr, left.same right = true ↔ left = right
  | .ident _, right | .int _, right | .bool _, right | .str _, right => by
      cases right <;> simp [Expr.same]
  | .unary _ operand, right => by
      cases right <;> simp [Expr.same, Expr.same_iff operand]
  | .binary left _ right, other => by
      cases other <;> simp [Expr.same, Expr.same_iff left, Expr.same_iff right, and_assoc]
  | .cond condition consequence none, right => by
      cases right with
      | cond condition' consequence' alternative' =>
          cases alternative' <;>
            simp [Expr.same, Expr.same_iff condition, sameStmts_iff consequence]
      | _ => simp [Expr.same]
  | .cond condition consequence (some alternative), right => by
      cases right with
      | cond condition' consequence' alternative' =>
          cases alternative' <;>
            simp [Expr.same, Expr.same_iff condition, sameStmts_iff consequence,
              sameStmts_iff alternative, and_assoc]
      | _ => simp [Expr.same]
  | .function _ body, right => by
      cases right <;> simp [Expr.same, sameStmts_iff body]
  | .macroLit _ body, right => by
      cases right <;> simp [Expr.same, sameStmts_iff body]
  | .call callee args, right => by
      cases right <;> simp [Expr.same, Expr.same_iff callee, sameExprs_iff args]
  | .array elements, right => by
      cases right <;> simp [Expr.same, sameExprs_iff elements]
  | .hash pairs, right => by
      cases right <;> simp [Expr.same, samePairs_iff pairs]
  | .index collection position, right => by
      cases right <;> simp [Expr.same, Expr.same_iff collection, Expr.same_iff position]

/-- Two statements compare as the same exactly if they are equal. -/
theorem Stmt.same_iff : ∀ left right : Stmt, left.same right = true ↔ left = right
  | .bind _ value, right | .ret value, right | .expr value, right => by
      cases right <;> simp [Stmt.same, Expr.same_iff value]

/-- Two statement lists compare as the same exactly if they are equal. -/
theorem sameStmts_iff : ∀ left right : List Stmt, sameStmts left right = true ↔ left = right
  | [], right => by cases right <;> simp [sameStmts]
  | statement :: statements, right => by
      cases right <;> simp [sameStmts, Stmt.same_iff statement, sameStmts_iff statements]

/-- Two expression lists compare as the same exactly if they are equal. -/
theorem sameExprs_iff : ∀ left right : List Expr, sameExprs left right = true ↔ left = right
  | [], right => by cases right <;> simp [sameExprs]
  | expr :: exprs, right => by
      cases right <;> simp [sameExprs, Expr.same_iff expr, sameExprs_iff exprs]

/-- Two lists of pairs compare as the same exactly if they are equal. -/
theorem samePairs_iff :
    ∀ left right : List (Expr × Expr), samePairs left right = true ↔ left = right
  | [], right => by cases right <;> simp [samePairs]
  | (key, value) :: pairs, right => by
      cases right with
      | nil => simp [samePairs]
      | cons pair' pairs' =>
          obtain ⟨key', value'⟩ := pair'
          simp [samePairs, Expr.same_iff key, Expr.same_iff value, samePairs_iff pairs, and_assoc]

end

instance : DecidableEq Expr := fun left right =>
  decidable_of_iff _ (Expr.same_iff left right)

instance : DecidableEq Stmt := fun left right =>
  decidable_of_iff _ (Stmt.same_iff left right)

end MonkeyLang
