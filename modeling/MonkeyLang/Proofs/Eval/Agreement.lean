import MonkeyLang.Proofs.Eval.Simulation

/-!
# Evaluation on both sides of a simulation

One rule for each function of the evaluator, on top of the rules for the operations. Read
`Simulation.agrees_eval` first: the same code, evaluated at least as deeply on the second side,
matches on both sides of a lawful simulation. `Simulation.matches_expandMacros` adds that the same
program is expanded to the same program on both sides.
-/

namespace MonkeyLang

namespace Simulation

variable {sim : Simulation} {world : sim.World} {evaluate evaluate' : Evaluator} {env env' : Env}

/-! ## Statements and calls -/

/-- Evaluators agree if every expression matches in environments that may stand side by side. -/
def Agrees (sim : Simulation) (evaluate evaluate' : Evaluator) : Prop :=
  ∀ ⦃world env env'⦄ (expr : Expr), sim.env world env env' →
    sim.Matches world sim.value (evaluate env expr) (evaluate' env' expr)

/-- A statement matches. -/
theorem matches_evalStmt (h : sim.Lawful) (hagrees : sim.Agrees evaluate evaluate')
    (henv : sim.env world env env') (statement : Stmt) :
    sim.Matches world sim.optional (evalStmt evaluate env statement)
      (evalStmt evaluate' env' statement) := by
  cases statement with
  | expr expr =>
      refine matches_bind h (hagrees expr henv) fun world' value value' _ hvalue => ?_
      exact matches_pure h (.some hvalue)
  | ret expr =>
      refine matches_bind h (hagrees expr henv) fun world' value value' _ hvalue => ?_
      exact matches_stop_returned h hvalue
  | bind name expr =>
      refine matches_bind h (hagrees expr henv) fun world' value value' hgrows hvalue => ?_
      refine matches_bind h (matches_assign h (h.env_mono hgrows henv) name hvalue)
        fun _ _ _ _ _ => ?_
      exact matches_pure h .none

/-- Statements in order match. -/
theorem matches_evalStmts (h : sim.Lawful) (hagrees : sim.Agrees evaluate evaluate')
    (statements : List Stmt) :
    ∀ {world env env' last last'}, sim.env world env env' → sim.optional world last last' →
      sim.Matches world sim.optional (evalStmts evaluate env last statements)
        (evalStmts evaluate' env' last' statements) := by
  induction statements with
  | nil =>
      intro world env env' last last' _ hlast
      exact matches_pure h hlast
  | cons statement statements ih =>
      intro world env env' last last' henv _
      refine matches_bind h (matches_evalStmt h hagrees henv statement)
        fun world' value value' hgrows hvalue => ?_
      exact ih (h.env_mono hgrows henv) hvalue

/-- A block matches. -/
theorem matches_evalBlock (h : sim.Lawful) (hagrees : sim.Agrees evaluate evaluate')
    (henv : sim.env world env env') (block : Block) :
    sim.Matches world sim.value (evalBlock evaluate env block)
      (evalBlock evaluate' env' block) := by
  refine matches_bind h (matches_evalStmts h hagrees block henv .none)
    fun world' value value' _ hvalue => ?_
  refine matches_pure h ?_
  cases hvalue with
  | none => exact .atom trivial
  | some hvalue => exact hvalue

/-- A body run in new scopes matches. -/
theorem matches_evalBody (h : sim.Lawful) (hagrees : sim.Agrees evaluate evaluate')
    {args args' : List Value} (params : List String) (body : Block)
    (henv : sim.closure world env env') (hargs : sim.values world args args') :
    sim.Matches world sim.value (evalBody evaluate params body env args)
      (evalBody evaluate' params body env' args') := by
  refine matches_bind h (matches_enter h params henv hargs) fun world' inner inner' _ hinner => ?_
  exact matches_catchReturn (matches_evalBlock h hagrees hinner body)

/-- A builtin called on arguments that are alike matches. -/
theorem matches_callBuiltin (h : sim.Lawful) {args args' : List Value} (builtin : Builtin)
    (hargs : sim.values world args args') :
    sim.Matches world sim.value (callBuiltin builtin args) (callBuiltin builtin args') := by
  have hanswer : sim.Matches world (fun world' => AlikeAnswers (sim.closure world'))
      (Eval.ofExcept (builtin.apply args)) (Eval.ofExcept (builtin.apply args')) :=
    matches_ofExcept h (Builtin.apply_alike builtin hargs)
  refine matches_bind h hanswer fun world' answer answer' _ hanswer' => ?_
  obtain ⟨value, printed⟩ := answer
  obtain ⟨value', printed'⟩ := answer'
  obtain ⟨hvalue, hprinted⟩ := hanswer'
  refine matches_bind h (matches_print h hprinted) fun world'' _ _ hgrows _ => ?_
  exact matches_pure h (h.value_mono hgrows hvalue)

/-- A call of values that are alike matches. -/
theorem matches_applyValue (h : sim.Lawful) (hagrees : sim.Agrees evaluate evaluate')
    {callee callee' : Value} {args args' : List Value} (hcallee : sim.value world callee callee')
    (hargs : sim.values world args args') :
    sim.Matches world sim.value (applyValue evaluate callee args)
      (applyValue evaluate' callee' args') := by
  cases hcallee with
  | function henv => exact matches_evalBody h hagrees _ _ henv hargs
  | atom hatom =>
      cases callee with
      | builtin builtin => exact matches_callBuiltin h builtin hargs
      | int | bool | null | str => exact matches_fail h _
      | array | hash | function | returned | error | quote | macroFn => exact hatom.elim
  | error | quote | arrayNil | arrayCons | hashNil | hashCons | macroFn | returned =>
      exact matches_fail h _

/-! ## Expressions -/

/-- Expressions in order match. -/
theorem matches_evalAll (h : sim.Lawful) (hagrees : sim.Agrees evaluate evaluate')
    (exprs : List Expr) :
    ∀ {world env env'}, sim.env world env env' →
      sim.Matches world sim.values (evalAll evaluate env exprs)
        (evalAll evaluate' env' exprs) := by
  induction exprs with
  | nil =>
      intro world env env' _
      exact matches_pure h .nil
  | cons expr exprs ih =>
      intro world env env' henv
      refine matches_bind h (hagrees expr henv) fun world' value value' hgrows hvalue => ?_
      refine matches_bind h (ih (h.env_mono hgrows henv))
        fun world'' values values' hgrows' hvalues => ?_
      exact matches_pure h (.cons (h.value_mono hgrows' hvalue) hvalues)

/-- Pairs in order match. -/
theorem matches_evalPairs (h : sim.Lawful) (hagrees : sim.Agrees evaluate evaluate')
    (pairs : List (Expr × Expr)) :
    ∀ {world env env' entries entries'}, sim.env world env env' →
      sim.entries world entries entries' →
      sim.Matches world sim.entries (evalPairs evaluate env entries pairs)
        (evalPairs evaluate' env' entries' pairs) := by
  induction pairs with
  | nil =>
      intro world env env' entries entries' _ hentries
      exact matches_pure h hentries
  | cons pair pairs ih =>
      intro world env env' entries entries' henv hentries
      obtain ⟨keyExpr, valueExpr⟩ := pair
      refine matches_bind h (hagrees keyExpr henv) fun world₁ key key' hgrows₁ hkey => ?_
      have hhashKey : sim.Matches world₁ equal (Eval.ofExcept key.hashKey)
          (Eval.ofExcept key'.hashKey) := by
        rw [Value.Alike.hashKey_eq hkey]
        refine matches_ofExcept h ?_
        cases key'.hashKey with
        | ok hashKey => exact .ok rfl
        | error fault => exact .error fault
      refine matches_bind h hhashKey fun world₂ hashKey hashKey' hgrows₂ hsame => ?_
      cases hsame
      have hgrows : sim.grows world world₂ := h.grows_trans hgrows₁ hgrows₂
      refine matches_bind h (hagrees valueExpr (h.env_mono hgrows henv))
        fun world₃ value value' hgrows₃ hvalue => ?_
      -- The keys are as old as `world₁` and the other entries are as old as `world`.
      have hentry : Entry.Alike (sim.closure world₃) ⟨hashKey, key, value⟩
          ⟨hashKey, key', value'⟩ :=
        ⟨rfl, h.value_mono hgrows₃ (h.value_mono hgrows₂ hkey), hvalue⟩
      have hold : AlikeEntries (sim.closure world₃) entries entries' :=
        List.Forall₂.imp (fun _ _ halike => halike.mono fun _ _ hclosure =>
          h.closure_mono hgrows₃ (h.closure_mono hgrows hclosure)) hentries
      exact ih (h.env_mono hgrows₃ (h.env_mono hgrows henv)) (hold.insertEntry hentry)

/-- A name matches. -/
theorem matches_evalName (h : sim.Lawful) (henv : sim.env world env env') (name : String) :
    sim.Matches world sim.value (evalName env name) (evalName env' name) := by
  unfold evalName
  cases hname : Builtin.ofName? name with
  | some builtin => exact matches_pure h (.atom trivial)
  | none => exact matches_lookup h henv hname

/-! ## Quotation -/

/-- Evaluations match from a world on, with the same results. -/
def MatchesFrom (sim : Simulation) (world : sim.World) ⦃α : Type⦄ (action action' : Eval α) :
    Prop :=
  ∀ world', sim.grows world world' → sim.Matches world' equal action action'

/-- Matching from a world on is a matter of each evaluation in a sequence. -/
theorem parallel_matchesFrom (h : sim.Lawful) (world : sim.World) :
    Parallel (sim.MatchesFrom world) where
  pure := by
    intro α value world' _
    exact matches_pure h rfl
  bind := by
    intro α β first first' next next' hfirst hnext world' hgrows
    refine matches_bind h (hfirst world' hgrows) fun world'' value value' hgrows' hsame => ?_
    cases hsame
    exact hnext value world'' (h.grows_trans hgrows hgrows')

/-- Replacing a call of `unquote` matches with the same code. -/
theorem matches_unquote (h : sim.Lawful) (hagrees : sim.Agrees evaluate evaluate')
    (henv : sim.env world env env') (expr : Expr) :
    sim.Matches world equal (unquote evaluate env expr) (unquote evaluate' env' expr) := by
  unfold unquote
  split
  · split
    · split
      · next arg =>
          refine matches_bind h (hagrees arg henv) fun world' value value' _ hvalue => ?_
          rw [Value.Alike.reify_eq hvalue]
          refine matches_ofExcept h ?_
          cases value'.reify with
          | ok code => exact .ok rfl
          | error fault => exact .error fault
      · exact matches_fail h _
    · exact matches_pure h rfl
  · exact matches_pure h rfl

/-- Quotation matches with the same code. -/
theorem matches_quoteArgs (h : sim.Lawful) (hagrees : sim.Agrees evaluate evaluate')
    (henv : sim.env world env env') (args : List Expr) :
    sim.Matches world sim.value (quoteArgs evaluate env args) (quoteArgs evaluate' env' args) := by
  unfold quoteArgs
  split
  · next arg =>
      have hwalk : sim.MatchesFrom world (arg.transformM (unquote evaluate env))
          (arg.transformM (unquote evaluate' env')) :=
        Expr.transformM_related (parallel_matchesFrom h world)
          (fun expr world' hgrows => matches_unquote h hagrees (h.env_mono hgrows henv) expr) arg
      refine matches_bind h (hwalk world (h.grows_refl world)) fun world' code code' _ hsame => ?_
      cases hsame
      exact matches_pure h (.quote code)
  · exact matches_fail h _

/-- Results of an operator that are the same match, because they are atoms. -/
theorem matches_operator (h : sim.Lawful) {result : Except Fault Value}
    (hatom : ∀ value, result = .ok value → value.IsAtom) :
    sim.Matches world sim.value (Eval.ofExcept result) (Eval.ofExcept result) := by
  refine matches_ofExcept h ?_
  cases result with
  | ok value => exact .ok (.atom (hatom value rfl))
  | error fault => exact .error fault

/-- A step of the evaluator matches if the evaluators of the expressions inside agree. -/
theorem agrees_evalStep (h : sim.Lawful) (hagrees : sim.Agrees evaluate evaluate') :
    sim.Agrees (evalStep evaluate) (evalStep evaluate') := by
  intro world env env' expr henv
  cases expr with
  | ident name => exact matches_evalName h henv name
  | int | bool | str => exact matches_pure h (.atom trivial)
  | unary op operand =>
      refine matches_bind h (hagrees operand henv) fun world' value value' _ hvalue => ?_
      rw [op.apply_alike hvalue]
      exact matches_operator h fun _ => UnaryOp.isAtom_of_apply
  | binary left op right =>
      refine matches_bind h (hagrees left henv) fun world' leftValue leftValue' hgrows hleft => ?_
      refine matches_bind h (hagrees right (h.env_mono hgrows henv))
        fun world'' rightValue rightValue' hgrows' hright => ?_
      rw [op.apply_alike (h.value_mono hgrows' hleft) hright]
      exact matches_operator h fun _ => BinaryOp.isAtom_of_apply
  | cond condition consequence alternative =>
      refine matches_bind h (hagrees condition henv) fun world' value value' hgrows hvalue => ?_
      have henv' := h.env_mono hgrows henv
      rw [Value.Alike.truthy_eq hvalue]
      split
      · exact matches_evalBlock h hagrees henv' consequence
      · cases alternative with
        | none => exact matches_pure h (.atom trivial)
        | some block => exact matches_evalBlock h hagrees henv' block
  | function params body => exact matches_pure h (.function (h.closure_of_env henv))
  | macroLit params body => exact matches_pure h (.macroFn (h.closure_of_env henv))
  | call callee args =>
      rw [evalStep, evalStep]
      split
      · exact matches_quoteArgs h hagrees henv args
      · refine matches_bind h (hagrees callee henv)
          fun world' function function' hgrows hcallee => ?_
        refine matches_bind h (matches_evalAll h hagrees args (h.env_mono hgrows henv))
          fun world'' values values' hgrows' hvalues => ?_
        exact matches_applyValue h hagrees (h.value_mono hgrows' hcallee) hvalues
  | array elements =>
      refine matches_bind h (matches_evalAll h hagrees elements henv)
        fun world' values values' _ hvalues => ?_
      exact matches_pure h (Value.alike_array.mpr hvalues)
  | hash pairs =>
      refine matches_bind h (matches_evalPairs h hagrees pairs henv .nil)
        fun world' entries entries' _ hentries => ?_
      exact matches_pure h (Value.alike_hash.mpr hentries)
  | index collection position =>
      refine matches_bind h (hagrees collection henv)
        fun world' collectionValue collectionValue' hgrows hcollection => ?_
      refine matches_bind h (hagrees position (h.env_mono hgrows henv))
        fun world'' positionValue positionValue' hgrows' hposition => ?_
      exact matches_ofExcept h
        (Value.indexBy_alike (h.value_mono hgrows' hcollection) hposition)

/-- Evaluation matches on both sides of a lawful simulation, at any depth and at a larger one. -/
theorem agrees_eval (h : sim.Lawful) {depth depth' : Nat} (hdepth : depth ≤ depth') :
    sim.Agrees (eval depth) (eval depth') := by
  induction depth generalizing depth' with
  | zero =>
      intro world env env' expr _ machine machine' _
      exact .tooDeep _
  | succ depth ih =>
      cases depth' with
      | zero => cases hdepth
      | succ depth' => exact agrees_evalStep h (ih (Nat.le_of_succ_le_succ hdepth))

/-! ## The expansion of macros -/

/-- Any name, also that of a builtin, is looked up with values that are alike in two environments,
from a world on. -/
def Reads (sim : Simulation) (world : sim.World) (env env' : Env) : Prop :=
  ∀ ⦃world' store store'⦄ (name : String), sim.grows world world' →
    sim.store world' store store' →
    sim.optional world' (store.lookup? env name) (store'.lookup? env' name)

/-- What a name is bound to, if it is, matches in environments that are read alike. -/
theorem matches_lookup? (h : sim.Lawful) (hreads : sim.Reads world env env') (name : String) :
    sim.Matches world sim.optional (Eval.lookup? env name) (Eval.lookup? env' name) :=
  fun _ _ hmachine =>
    .done (h.grows_refl world) (hreads name (h.grows_refl world) hmachine.1) hmachine

/-- The code that a macro makes of the same arguments matches. -/
theorem matches_expandCall (h : sim.Lawful) (hagrees : sim.Agrees evaluate evaluate')
    (henv : sim.closure world env env') (name : String) (params : List String) (body : Block)
    (args : List Expr) :
    sim.Matches world equal (expandCall evaluate name params body env args)
      (expandCall evaluate' name params body env' args) := by
  have hargs : sim.values world (args.map .quote) (args.map .quote) := by
    refine List.forall₂_same.mpr fun arg hmem => ?_
    obtain ⟨code, _, rfl⟩ := List.mem_map.mp hmem
    exact .quote code
  refine matches_bind h (matches_evalBody h hagrees params body henv hargs)
    fun world' value value' _ hvalue => ?_
  cases hvalue with
  | quote code => exact matches_pure h rfl
  | atom hatom =>
      cases value with
      | int | bool | null | str | builtin => exact matches_fail h _
      | array | hash | function | returned | error | quote | macroFn => exact hatom.elim
  | error | arrayNil | arrayCons | hashNil | hashCons | function | macroFn | returned =>
      exact matches_fail h _

/-- Expanding a call of a macro matches with the same code. -/
theorem matches_expandMacro (h : sim.Lawful) (hagrees : sim.Agrees evaluate evaluate')
    (hreads : sim.Reads world env env') (expr : Expr) :
    sim.Matches world equal (expandMacro evaluate env expr) (expandMacro evaluate' env' expr) := by
  unfold expandMacro
  split
  · next name args =>
      refine matches_bind h (matches_lookup? h hreads name) fun world' found found' _ hfound => ?_
      obtain ⟨rfl, rfl⟩ | ⟨value, value', rfl, rfl, hvalue⟩ := rel_cases hfound
      · exact matches_pure h rfl
      · cases hvalue with
        | macroFn henv => exact matches_expandCall h hagrees henv name _ _ args
        | atom hatom =>
            cases value with
            | int | bool | null | str | builtin => exact matches_pure h rfl
            | array | hash | function | returned | error | quote | macroFn => exact hatom.elim
        | error | quote | arrayNil | arrayCons | hashNil | hashCons | function | returned =>
            exact matches_pure h rfl
  · exact matches_pure h rfl

/-- The expansion of macros matches with the same program, if the environments of macros are read
alike. -/
theorem matches_expandMacros (h : sim.Lawful) {depth depth' : Nat} (hdepth : depth ≤ depth')
    {macros macros' : Env} (hreads : sim.Reads world macros macros') (program : Program) :
    sim.Matches world equal (expandMacros depth macros program)
      (expandMacros depth' macros' program) := by
  have hagrees := agrees_eval h hdepth
  have hwalk : sim.MatchesFrom world (expandMacros depth macros program)
      (expandMacros depth' macros' program) :=
    transformProgramM_related (parallel_matchesFrom h world)
      (fun expr world' hgrows => matches_expandMacro h hagrees
        (fun _ _ _ name hgrows' => hreads name (h.grows_trans hgrows hgrows')) expr) program
  exact hwalk world (h.grows_refl world)

end Simulation

end MonkeyLang
