import MonkeyLang.Expr.Transform

/-!
# What a bottom-up walk keeps

A walk does nothing but visit expressions and sequence the visits. A relation of actions that
sequencing keeps therefore holds of two whole walks as soon as it holds of every two visits, even if
the walks have different effects: read `Expr.transformM_related`. A property of actions is the
special case in which the second walk does not matter (`transformProgramM_holds`). A walk whose
visits change nothing changes nothing (`transformProgramM_pure`).
-/

namespace MonkeyLang

variable {m m' : Type → Type} [Monad m] [Monad m']

/-- A relation of actions that relates equal results and actions in sequence. -/
structure Parallel (related : ∀ ⦃α : Type⦄, m α → m' α → Prop) : Prop where
  pure : ∀ ⦃α : Type⦄ (value : α), related (Pure.pure value : m α) (Pure.pure value : m' α)
  bind : ∀ ⦃α β : Type⦄ {first : m α} {first' : m' α} {next : α → m β} {next' : α → m' β},
    related first first' → (∀ value, related (next value) (next' value)) →
    related (first >>= next) (first' >>= next')

section Related

variable {related : ∀ ⦃α : Type⦄, m α → m' α → Prop} {visit : Expr → m Expr}
  {visit' : Expr → m' Expr}

mutual

/-- Walks over an expression are related if every visit is. -/
theorem Expr.transformM_related (hseq : Parallel related)
    (hvisit : ∀ expr, related (visit expr) (visit' expr)) :
    ∀ expr : Expr, related (expr.transformM visit) (expr.transformM visit')
  | .ident _ => hvisit _
  | .int _ => hvisit _
  | .bool _ => hvisit _
  | .str _ => hvisit _
  | .unary _ operand => by
      refine hseq.bind (operand.transformM_related hseq hvisit) fun operand' => ?_
      exact hvisit _
  | .binary left _ right => by
      refine hseq.bind (left.transformM_related hseq hvisit) fun left' => ?_
      refine hseq.bind (right.transformM_related hseq hvisit) fun right' => ?_
      exact hvisit _
  | .cond condition consequence none => by
      refine hseq.bind (condition.transformM_related hseq hvisit) fun condition' => ?_
      refine hseq.bind (transformStmtsM_related hseq hvisit consequence) fun consequence' => ?_
      exact hvisit _
  | .cond condition consequence (some alternative) => by
      refine hseq.bind (condition.transformM_related hseq hvisit) fun condition' => ?_
      refine hseq.bind (transformStmtsM_related hseq hvisit consequence) fun consequence' => ?_
      refine hseq.bind (transformStmtsM_related hseq hvisit alternative) fun alternative' => ?_
      exact hvisit _
  | .function _ body => by
      refine hseq.bind (transformStmtsM_related hseq hvisit body) fun body' => ?_
      exact hvisit _
  | .macroLit _ body => by
      refine hseq.bind (transformStmtsM_related hseq hvisit body) fun body' => ?_
      exact hvisit _
  | .call callee args => by
      refine hseq.bind (callee.transformM_related hseq hvisit) fun callee' => ?_
      refine hseq.bind (transformExprsM_related hseq hvisit args) fun args' => ?_
      exact hvisit _
  | .array elements => by
      refine hseq.bind (transformExprsM_related hseq hvisit elements) fun elements' => ?_
      exact hvisit _
  | .hash pairs => by
      refine hseq.bind (transformPairsM_related hseq hvisit pairs) fun pairs' => ?_
      exact hvisit _
  | .index collection position => by
      refine hseq.bind (collection.transformM_related hseq hvisit) fun collection' => ?_
      refine hseq.bind (position.transformM_related hseq hvisit) fun position' => ?_
      exact hvisit _

/-- Walks over a statement are related if every visit is. -/
theorem Stmt.transformM_related (hseq : Parallel related)
    (hvisit : ∀ expr, related (visit expr) (visit' expr)) :
    ∀ statement : Stmt, related (statement.transformM visit) (statement.transformM visit')
  | .bind _ value => by
      refine hseq.bind (value.transformM_related hseq hvisit) fun value' => ?_
      exact hseq.pure _
  | .ret value => by
      refine hseq.bind (value.transformM_related hseq hvisit) fun value' => ?_
      exact hseq.pure _
  | .expr value => by
      refine hseq.bind (value.transformM_related hseq hvisit) fun value' => ?_
      exact hseq.pure _

/-- Walks over statements are related if every visit is. -/
theorem transformStmtsM_related (hseq : Parallel related)
    (hvisit : ∀ expr, related (visit expr) (visit' expr)) :
    ∀ statements : List Stmt,
      related (transformStmtsM visit statements) (transformStmtsM visit' statements)
  | [] => hseq.pure _
  | statement :: statements => by
      refine hseq.bind (statement.transformM_related hseq hvisit) fun statement' => ?_
      refine hseq.bind (transformStmtsM_related hseq hvisit statements) fun statements' => ?_
      exact hseq.pure _

/-- Walks over expressions are related if every visit is. -/
theorem transformExprsM_related (hseq : Parallel related)
    (hvisit : ∀ expr, related (visit expr) (visit' expr)) :
    ∀ exprs : List Expr, related (transformExprsM visit exprs) (transformExprsM visit' exprs)
  | [] => hseq.pure _
  | expr :: exprs => by
      refine hseq.bind (expr.transformM_related hseq hvisit) fun expr' => ?_
      refine hseq.bind (transformExprsM_related hseq hvisit exprs) fun exprs' => ?_
      exact hseq.pure _

/-- Walks over pairs are related if every visit is. -/
theorem transformPairsM_related (hseq : Parallel related)
    (hvisit : ∀ expr, related (visit expr) (visit' expr)) :
    ∀ pairs : List (Expr × Expr),
      related (transformPairsM visit pairs) (transformPairsM visit' pairs)
  | [] => hseq.pure _
  | (key, value) :: pairs => by
      refine hseq.bind (key.transformM_related hseq hvisit) fun key' => ?_
      refine hseq.bind (value.transformM_related hseq hvisit) fun value' => ?_
      refine hseq.bind (transformPairsM_related hseq hvisit pairs) fun pairs' => ?_
      exact hseq.pure _

end

/-- Walks over a program are related if every visit is. -/
theorem transformProgramM_related (hseq : Parallel related)
    (hvisit : ∀ expr, related (visit expr) (visit' expr)) (program : Program) :
    related (transformProgramM visit program) (transformProgramM visit' program) :=
  transformStmtsM_related hseq hvisit program

end Related

/-- A property of actions that holds of every result and of actions in sequence. -/
structure Sequential (holds : ∀ ⦃α : Type⦄, m α → Prop) : Prop where
  pure : ∀ ⦃α : Type⦄ (value : α), holds (Pure.pure value : m α)
  bind : ∀ ⦃α β : Type⦄ {first : m α} {next : α → m β},
    holds first → (∀ value, holds (next value)) → holds (first >>= next)

variable {holds : ∀ ⦃α : Type⦄, m α → Prop} {visit : Expr → m Expr}

/-- A property of actions relates them to any action without effects. -/
theorem Sequential.parallel (hseq : Sequential holds) :
    Parallel fun α (action : m α) (_ : Id α) => holds action where
  pure _ value := hseq.pure value
  bind _ _ _ _ _ _ hfirst hnext := hseq.bind hfirst hnext

/-- A walk over an expression keeps what every visit keeps. -/
theorem Expr.transformM_holds (hseq : Sequential holds) (hvisit : ∀ expr, holds (visit expr))
    (expr : Expr) : holds (expr.transformM visit) :=
  @Expr.transformM_related m Id _ _ _ visit pure hseq.parallel hvisit expr

/-- A walk over a program keeps what every visit keeps. -/
theorem transformProgramM_holds (hseq : Sequential holds) (hvisit : ∀ expr, holds (visit expr))
    (program : Program) : holds (transformProgramM visit program) :=
  @transformProgramM_related m Id _ _ _ visit pure hseq.parallel hvisit program

/-! ## Walks without changes -/

section Unchanged

variable [LawfulMonad m]

mutual

/-- A walk that leaves every expression as it is leaves the whole expression as it is. -/
theorem Expr.transformM_pure : ∀ expr : Expr, expr.transformM (pure : Expr → m Expr) = pure expr
  | .ident _ | .int _ | .bool _ | .str _ => by rw [Expr.transformM]
  | .unary _ operand => by rw [Expr.transformM, operand.transformM_pure, pure_bind]
  | .binary left _ right => by
      rw [Expr.transformM, left.transformM_pure, pure_bind, right.transformM_pure, pure_bind]
  | .cond condition consequence none => by
      rw [Expr.transformM, condition.transformM_pure, pure_bind, transformStmtsM_pure consequence,
        pure_bind]
  | .cond condition consequence (some alternative) => by
      rw [Expr.transformM, condition.transformM_pure, pure_bind, transformStmtsM_pure consequence,
        pure_bind, transformStmtsM_pure alternative, pure_bind]
  | .function _ body => by rw [Expr.transformM, transformStmtsM_pure body, pure_bind]
  | .macroLit _ body => by rw [Expr.transformM, transformStmtsM_pure body, pure_bind]
  | .call callee args => by
      rw [Expr.transformM, callee.transformM_pure, pure_bind, transformExprsM_pure args, pure_bind]
  | .array elements => by rw [Expr.transformM, transformExprsM_pure elements, pure_bind]
  | .hash pairs => by rw [Expr.transformM, transformPairsM_pure pairs, pure_bind]
  | .index collection position => by
      rw [Expr.transformM, collection.transformM_pure, pure_bind, position.transformM_pure,
        pure_bind]

/-- A walk that leaves every expression as it is leaves a statement as it is. -/
theorem Stmt.transformM_pure : ∀ statement : Stmt,
    statement.transformM (pure : Expr → m Expr) = pure statement
  | .bind _ value => by rw [Stmt.transformM, value.transformM_pure, pure_bind]
  | .ret value => by rw [Stmt.transformM, value.transformM_pure, pure_bind]
  | .expr value => by rw [Stmt.transformM, value.transformM_pure, pure_bind]

/-- A walk that leaves every expression as it is leaves statements as they are. -/
theorem transformStmtsM_pure : ∀ statements : List Stmt,
    transformStmtsM (pure : Expr → m Expr) statements = pure statements
  | [] => by rw [transformStmtsM]
  | statement :: statements => by
      rw [transformStmtsM, statement.transformM_pure, pure_bind, transformStmtsM_pure statements,
        pure_bind]

/-- A walk that leaves every expression as it is leaves expressions as they are. -/
theorem transformExprsM_pure : ∀ exprs : List Expr,
    transformExprsM (pure : Expr → m Expr) exprs = pure exprs
  | [] => by rw [transformExprsM]
  | expr :: exprs => by
      rw [transformExprsM, expr.transformM_pure, pure_bind, transformExprsM_pure exprs, pure_bind]

/-- A walk that leaves every expression as it is leaves pairs as they are. -/
theorem transformPairsM_pure : ∀ pairs : List (Expr × Expr),
    transformPairsM (pure : Expr → m Expr) pairs = pure pairs
  | [] => by rw [transformPairsM]
  | (key, value) :: pairs => by
      rw [transformPairsM, key.transformM_pure, pure_bind, value.transformM_pure, pure_bind,
        transformPairsM_pure pairs, pure_bind]

end

/-- A walk that leaves every expression as it is leaves a program as it is. -/
theorem transformProgramM_pure (program : Program) :
    transformProgramM (pure : Expr → m Expr) program = pure program :=
  transformStmtsM_pure program

end Unchanged

end MonkeyLang
