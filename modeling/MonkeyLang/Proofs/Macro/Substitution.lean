import MonkeyLang.Proofs.Eval.Frame
import MonkeyLang.Proofs.Eval.Sequence
import MonkeyLang.Proofs.Macro.Template

/-!
# Template macros expand by substitution

If every macro is a template, then the expansion of macros is the rewriting of `rewriteProgram`: a
call of a macro is replaced by the code of the macro, with the arguments in its holes. Read
`expandMacros_templates` first. A macro is called through the evaluator, and its code is walked by
quotation, but all that this does is to look parameters up in the scope of the call
(`returns_expandCall`).
-/

namespace MonkeyLang

/-! ## The walk of the reference -/

/-- What rewriting does at one expression whose inside is rewritten already. -/
def rewriteNode (templates : String → Option Template) : Expr → Rewriting Expr
  | .call callee args => rewriteCall templates callee args
  | expr => pure expr

section Walk

variable (templates : String → Option Template)

mutual

/-- Rewriting an expression is a bottom-up walk. -/
theorem Expr.rewrite_eq : ∀ expr : Expr,
    expr.rewrite templates = expr.transformM (rewriteNode templates)
  | .ident _ | .int _ | .bool _ | .str _ => by
      rw [Expr.rewrite, Expr.transformM]
      rfl
  | .unary _ operand => by
      rw [Expr.rewrite, Expr.transformM, operand.rewrite_eq]
      rfl
  | .binary left _ right => by
      rw [Expr.rewrite, Expr.transformM, left.rewrite_eq, right.rewrite_eq]
      rfl
  | .cond condition consequence none => by
      rw [Expr.rewrite, Expr.transformM, condition.rewrite_eq, rewriteStmts_eq consequence]
      rfl
  | .cond condition consequence (some alternative) => by
      rw [Expr.rewrite, Expr.transformM, condition.rewrite_eq, rewriteStmts_eq consequence,
        rewriteStmts_eq alternative]
      rfl
  | .function _ body | .macroLit _ body => by
      rw [Expr.rewrite, Expr.transformM, rewriteStmts_eq body]
      rfl
  | .call callee args => by
      rw [Expr.rewrite, Expr.transformM, callee.rewrite_eq, rewriteExprs_eq args]
      rfl
  | .array elements => by
      rw [Expr.rewrite, Expr.transformM, rewriteExprs_eq elements]
      rfl
  | .hash pairs => by
      rw [Expr.rewrite, Expr.transformM, rewritePairs_eq pairs]
      rfl
  | .index collection position => by
      rw [Expr.rewrite, Expr.transformM, collection.rewrite_eq, position.rewrite_eq]
      rfl

/-- Rewriting a statement is a bottom-up walk. -/
theorem Stmt.rewrite_eq : ∀ statement : Stmt,
    statement.rewrite templates = statement.transformM (rewriteNode templates)
  | .bind _ value | .ret value | .expr value => by
      rw [Stmt.rewrite, Stmt.transformM, value.rewrite_eq]

/-- Rewriting statements is a bottom-up walk. -/
theorem rewriteStmts_eq : ∀ statements : List Stmt,
    rewriteStmts templates statements = transformStmtsM (rewriteNode templates) statements
  | [] => by rw [rewriteStmts, transformStmtsM]
  | statement :: statements => by
      rw [rewriteStmts, transformStmtsM, statement.rewrite_eq, rewriteStmts_eq statements]

/-- Rewriting expressions is a bottom-up walk. -/
theorem rewriteExprs_eq : ∀ exprs : List Expr,
    rewriteExprs templates exprs = transformExprsM (rewriteNode templates) exprs
  | [] => by rw [rewriteExprs, transformExprsM]
  | expr :: exprs => by
      rw [rewriteExprs, transformExprsM, expr.rewrite_eq, rewriteExprs_eq exprs]

/-- Rewriting pairs is a bottom-up walk. -/
theorem rewritePairs_eq : ∀ pairs : List (Expr × Expr),
    rewritePairs templates pairs = transformPairsM (rewriteNode templates) pairs
  | [] => by rw [rewritePairs, transformPairsM]
  | (key, value) :: pairs => by
      rw [rewritePairs, transformPairsM, key.rewrite_eq, value.rewrite_eq, rewritePairs_eq pairs]

end

end Walk

/-! ## Quotation fills the holes -/

section Fill

variable {visit : Expr → Eval Expr} {trees : List (String × Expr)} {machine : Machine}

/-- A walk over expressions fills the holes of all if it fills those of each. -/
theorem transformExprsM_fill {exprs : List Expr}
    (hexprs : ∀ expr ∈ exprs, expr.transformM visit machine = .done (expr.fill trees) machine) :
    transformExprsM visit exprs machine = .done (fillExprs trees exprs) machine := by
  induction exprs with
  | nil =>
      rw [transformExprsM, fillExprs]
      rfl
  | cons expr exprs ih =>
      obtain ⟨hfirst, hrest⟩ := List.forall_mem_cons.mp hexprs
      rw [transformExprsM, fillExprs]
      refine (Eval.bind_of_done hfirst _).trans ?_
      exact Eval.bind_of_done (ih hrest) _

/-- A walk over pairs fills the holes of all if it fills those of each. -/
theorem transformPairsM_fill {pairs : List (Expr × Expr)}
    (hkeys : ∀ pair ∈ pairs,
      pair.1.transformM visit machine = .done (pair.1.fill trees) machine)
    (hvalues : ∀ pair ∈ pairs,
      pair.2.transformM visit machine = .done (pair.2.fill trees) machine) :
    transformPairsM visit pairs machine = .done (fillPairs trees pairs) machine := by
  induction pairs with
  | nil =>
      rw [transformPairsM, fillPairs]
      rfl
  | cons pair pairs ih =>
      obtain ⟨key, value⟩ := pair
      obtain ⟨hkey, hkeys⟩ := List.forall_mem_cons.mp hkeys
      obtain ⟨hvalue, hvalues⟩ := List.forall_mem_cons.mp hvalues
      rw [transformPairsM, fillPairs]
      refine (Eval.bind_of_done hkey _).trans ?_
      refine (Eval.bind_of_done hvalue _).trans ?_
      exact Eval.bind_of_done (ih hkeys hvalues) _

/-- A walk over statements fills the holes of all if it fills those of each. -/
theorem transformStmtsM_fill {statements : List Stmt}
    (hstatements : ∀ statement ∈ statements,
      statement.value.transformM visit machine = .done (statement.value.fill trees) machine) :
    transformStmtsM visit statements machine = .done (fillStmts trees statements) machine := by
  induction statements with
  | nil =>
      rw [transformStmtsM, fillStmts]
      rfl
  | cons statement statements ih =>
      obtain ⟨hvalue, hrest⟩ := List.forall_mem_cons.mp hstatements
      have hfirst : statement.transformM visit machine = .done (statement.fill trees) machine := by
        cases statement <;> exact Eval.bind_of_done hvalue _
      rw [transformStmtsM, fillStmts]
      refine (Eval.bind_of_done hfirst _).trans ?_
      exact Eval.bind_of_done (ih hrest) _

/-- Only a call of `unquote` is a hole. -/
theorem hole?_eq_none {callee : Expr} (hcallee : callee.name? ≠ some "unquote")
    (args : List Expr) : hole? callee args = none := by
  unfold hole?
  split
  · exact if_neg hcallee
  · rfl

/-- Only a call of `unquote` becomes something else, so what is called keeps its name. -/
theorem name?_fill {callee : Expr} (hcallee : callee.calledName? ≠ some "unquote") :
    (callee.fill trees).name? = callee.name? := by
  cases callee with
  | call inner args =>
      rw [Expr.fill, hole?_eq_none hcallee]
      rfl
  | cond condition consequence alternative => cases alternative <;> rfl
  | ident | int | bool | str | unary | binary | function | macroLit | array | hash | index => rfl

end Fill

/-- A walk of quotation over a template fills its holes, if looking a parameter up gives the quoted
tree that its holes are filled with. -/
theorem transformM_unquote_fill {evaluate : Evaluator} {env : Env} {machine : Machine}
    {params : List String} {trees : List (String × Expr)} {code : Expr}
    (hparams : ∀ name ∈ params, ∃ tree, trees.lookup name = some tree ∧
      evaluate env (.ident name) machine = .done (.quote tree) machine)
    (hcode : code.All (Expr.FitsTemplate params) fun _ => True) :
    code.transformM (unquote evaluate env) machine = .done (code.fill trees) machine := by
  induction hcode with
  | ident | int | bool | str => rfl
  | unary _ _ ih => exact Eval.bind_of_done ih _
  | binary _ _ _ ihleft ihright =>
      exact (Eval.bind_of_done ihleft _).trans (Eval.bind_of_done ihright _)
  | cond _ _ _ _ ihcondition ihbody =>
      exact (Eval.bind_of_done ihcondition _).trans
        (Eval.bind_of_done (transformStmtsM_fill ihbody) _)
  | condElse _ _ _ _ _ _ ihcondition ihbody ihelse =>
      exact (Eval.bind_of_done ihcondition _).trans
        ((Eval.bind_of_done (transformStmtsM_fill ihbody) _).trans
          (Eval.bind_of_done (transformStmtsM_fill ihelse) _))
  | function _ _ _ ihbody => exact Eval.bind_of_done (transformStmtsM_fill ihbody) _
  | macroLit _ _ _ ihbody => exact Eval.bind_of_done (transformStmtsM_fill ihbody) _
  | array _ _ ih => exact Eval.bind_of_done (transformExprsM_fill ih) _
  | hash _ _ _ ihkeys ihvalues =>
      exact Eval.bind_of_done (transformPairsM_fill ihkeys ihvalues) _
  | index _ _ _ ihcollection ihposition =>
      exact (Eval.bind_of_done ihcollection _).trans (Eval.bind_of_done ihposition _)
  | @call callee args hfits _ _ ihcallee ihargs =>
      obtain ⟨hinner, hunquote⟩ := hfits
      refine (Eval.bind_of_done ihcallee _).trans ?_
      refine (Eval.bind_of_done (transformExprsM_fill ihargs) _).trans ?_
      have hname := @name?_fill trees callee hinner
      unfold unquote
      dsimp only
      rw [hname, Expr.fill]
      by_cases hcalls : callee.name? = some "unquote"
      · -- A hole: the walk has left its name alone, and the name is looked up.
        obtain ⟨name, hmem, rfl⟩ := hunquote hcalls
        obtain ⟨tree, htree, heval⟩ := hparams name hmem
        have hhole : hole? callee [.ident name] = some name := if_pos hcalls
        rw [if_pos hcalls, hhole, Option.bind_some, htree]
        exact Eval.bind_of_done heval _
      · rw [if_neg hcalls, hole?_eq_none hcalls]
        rfl

/-! ## Calls of templates -/

/-- A parameter is paired with an argument, and with what is made of the argument. -/
theorem exists_lookup_zip {α β : Type} {params : List String} {args : List α} {name : String}
    (make : α → β) (hlength : params.length = args.length) (hmem : name ∈ params) :
    ∃ arg, (params.zip args).lookup name = some arg ∧
      (params.zip (args.map make)).lookup name = some (make arg) := by
  induction params generalizing args with
  | nil => cases hmem
  | cons param params ih =>
      cases args with
      | nil => cases hlength
      | cons arg args =>
          rw [List.map_cons, List.zip_cons_cons, List.zip_cons_cons, List.lookup_cons,
            List.lookup_cons]
          by_cases hname : name = param
          · subst hname
            rw [beq_self_eq_true]
            exact ⟨arg, rfl, rfl⟩
          · rw [beq_false_of_ne hname]
            exact ih (Nat.succ.inj hlength) ((List.mem_cons.mp hmem).resolve_left hname)

/-- In the scope of a call, a parameter that is no builtin evaluates to the quoted argument. -/
theorem eval_param {params : List String} {args : List Expr} {scope : Scope} {name : String}
    {store : Store} {env : Env} {printed : List Value} {tree : Expr} (depth : Nat)
    (hnodup : params.Nodup) (hname : Builtin.ofName? name = none)
    (hscope : Scope.ofArgs params (args.map .quote) = .ok scope)
    (htree : (params.zip (args.map Value.quote)).lookup name = some (.quote tree)) :
    eval (depth + 1) (store.enter (some env) scope).1 (.ident name)
        ⟨(store.enter (some env) scope).2, printed⟩ =
      .done (.quote tree) ⟨(store.enter (some env) scope).2, printed⟩ := by
  have hget : scope.get? name = some (.quote tree) :=
    (Scope.get?_ofArgs hnodup hscope name).trans htree
  have hfind : (store.enter (some env) scope).2.find? name store.scopes.size =
      some (.quote tree) := by
    rw [Store.find?, Store.scope_enter_self]
    have hself : ({ scope with outer := (some env).map Env.scope } : Scope).get? name =
        some (.quote tree) := hget
    rw [hself]
  have hlookup : (store.enter (some env) scope).2.lookup (store.enter (some env) scope).1 name =
      .ok (.quote tree) := by
    unfold Store.lookup Store.lookup?
    rw [show (store.enter (some env) scope).1.scope = store.scopes.size from rfl, hfind]
  show evalName _ name _ = _
  unfold evalName
  rw [hname]
  show Eval.ofExcept _ _ = _
  rw [hlookup]
  rfl

/-- A call of a template with the right number of arguments enters a scope, and is replaced by the
code of the template with the arguments in its holes. -/
theorem expandCall_of_fits {call : TemplateCall} (hwellFormed : call.template.WellFormed)
    (hfits : call.template.params.length = call.args.length) (depth : Nat) (name : String)
    (env : Env) (machine : Machine) :
    ∃ scope, expandCall (eval (depth + 2)) name call.template.params
        [.expr (.call (.ident "quote") [call.template.code])] env call.args machine =
      .done call.result ⟨(machine.store.enter (some env) scope).2, machine.printed⟩ := by
  obtain ⟨⟨params, code⟩, args⟩ := call
  obtain ⟨store, printed⟩ := machine
  have hscope : ∃ scope, Scope.ofArgs params (args.map .quote) = .ok scope := by
    unfold Scope.ofArgs
    rw [if_pos (hfits.trans (List.length_map _).symm)]
    exact ⟨_, rfl⟩
  obtain ⟨scope, hscope⟩ := hscope
  refine ⟨scope, ?_⟩
  let inner := (store.enter (some env) scope).1
  let entered : Machine := ⟨(store.enter (some env) scope).2, printed⟩
  let quotation : Expr := .call (.ident "quote") [code]
  let filled : Expr := code.fill (params.zip args)
  have henter : Eval.enter env params (args.map .quote) ⟨store, printed⟩ = .done inner entered := by
    unfold Eval.enter
    rw [hscope]
  have hparams : ∀ name ∈ params, ∃ tree, (params.zip args).lookup name = some tree ∧
      eval (depth + 1) inner (.ident name) entered = .done (.quote tree) entered := by
    intro name hmem
    obtain ⟨tree, htree, hquoted⟩ := exists_lookup_zip Value.quote hfits hmem
    exact ⟨tree, htree, eval_param depth hwellFormed.nodup (hwellFormed.notBuiltin name hmem)
      hscope hquoted⟩
  have hquote : eval (depth + 2) inner quotation entered = .done (.quote filled) entered :=
    Eval.bind_of_done (transformM_unquote_fill hparams hwellFormed.code) _
  have hstmt : evalStmt (eval (depth + 2)) inner (.expr quotation) entered =
      .done (some (.quote filled)) entered := Eval.bind_of_done hquote _
  have hstmts : evalStmts (eval (depth + 2)) inner none [.expr quotation] entered =
      .done (some (.quote filled)) entered := Eval.bind_of_done hstmt _
  have hblock : evalBlock (eval (depth + 2)) inner [.expr quotation] entered =
      .done (.quote filled) entered := Eval.bind_of_done hstmts _
  have hbody : evalBody (eval (depth + 2)) params [.expr quotation] env (args.map .quote)
      ⟨store, printed⟩ = .done (.quote filled) entered := by
    refine (Eval.bind_of_done henter _).trans ?_
    unfold Eval.catchReturn
    rw [hblock]
  exact Eval.bind_of_done hbody _

/-- A call with a wrong number of arguments fails at once. -/
theorem expandCall_of_not_fits {call : TemplateCall}
    (hfits : call.template.params.length ≠ call.args.length) (evaluate : Evaluator)
    (name : String) (body : Block) (env : Env) (machine : Machine) :
    expandCall evaluate name call.template.params body env call.args machine =
      .stopped (.fault (.arity call.template.params.length call.args.length)) machine := by
  have henter : Eval.enter env call.template.params (call.args.map .quote) machine =
      .stopped (.fault (.arity call.template.params.length call.args.length)) machine := by
    unfold Eval.enter Scope.ofArgs
    rw [List.length_map, if_neg hfits]
  have hbody : evalBody evaluate call.template.params body env (call.args.map .quote) machine =
      .stopped (.fault (.arity call.template.params.length call.args.length)) machine :=
    Eval.bind_of_stopped henter _
  exact Eval.bind_of_stopped hbody _

/-! ## Whole programs -/

/-- What is left as it was before the expansion: the values printed, the scopes that were there, and
what macros are found. -/
structure Intact (before : Machine) (macros : Env) (machine : Machine) : Prop where
  printed_eq : machine.printed = before.printed
  writesOnly : before.store.WritesOnly none machine.store
  lookup?_eq : ∀ name, machine.store.lookup? macros name = before.store.lookup? macros name

/-- Every macro that is found is a well-formed template, and `templates` are all of them. -/
def Store.BindsTemplates (store : Store) (macros : Env) (templates : String → Option Template) :
    Prop :=
  ∀ name, (store.lookup? macros name = none ∧ templates name = none) ∨
    ∃ template env, templates name = some template ∧ template.WellFormed ∧
      store.lookup? macros name = some (template.toMacro env)

/-- How a rewriting ends: it fails at the first call with a wrong number of arguments. -/
def Rewriting.outcome {α : Type} (rewriting : Rewriting α) (machine : Machine) : Outcome α :=
  match rewriting.calls.find? (!·.fits) with
  | none => .done rewriting.result machine
  | some call =>
      .stopped (.fault (.arity call.template.params.length call.args.length)) machine

/-- The evaluation ends like the rewriting and leaves everything intact. -/
def Follows (before : Machine) (macros : Env) ⦃α : Type⦄ (action : Eval α)
    (rewriting : Rewriting α) : Prop :=
  ∀ machine, Intact before macros machine →
    ∃ machine', Intact before macros machine' ∧ action machine = rewriting.outcome machine'

variable {before machine : Machine} {macros : Env} {templates : String → Option Template}

/-- Nothing has changed at the start. -/
theorem Intact.refl (before : Machine) (macros : Env) : Intact before macros before :=
  ⟨rfl, Store.WritesOnly.refl before.store none, fun _ => rfl⟩

/-- Entering a scope leaves everything intact where a macro was found. -/
theorem Intact.enter {name : String} {value : Value} (hintact : Intact before macros machine)
    (hlookup : before.store.lookup? macros name = some value) (outer : Option Env)
    (scope : Scope) :
    Intact before macros ⟨(machine.store.enter outer scope).2, machine.printed⟩ where
  printed_eq := hintact.printed_eq
  writesOnly := hintact.writesOnly.enter outer scope
  lookup?_eq other := by
    have hlt : macros.scope < machine.store.scopes.size :=
      Store.lt_size_of_lookup? ((hintact.lookup?_eq name).trans hlookup)
    refine Eq.trans ?_ (hintact.lookup?_eq other)
    exact Store.find?_enter_of_lt other outer scope hlt

/-- Evaluations in sequence follow rewritings in sequence. -/
theorem parallel_follows (before : Machine) (macros : Env) : Parallel (Follows before macros) where
  pure := by
    intro α value machine hintact
    exact ⟨machine, hintact, rfl⟩
  bind := by
    intro α β first rewriting next rewriting' hfirst hnext machine hintact
    obtain ⟨middle, hintact', hfirst⟩ := hfirst machine hintact
    have hcalls : (rewriting >>= rewriting').calls.find? (!·.fits) =
        (rewriting.calls.find? (!·.fits)).or
          ((rewriting' rewriting.result).calls.find? (!·.fits)) := List.find?_append
    unfold Rewriting.outcome at hfirst
    cases hwrong : rewriting.calls.find? (!·.fits) with
    | some call =>
        rw [hwrong] at hfirst
        refine ⟨middle, hintact', ?_⟩
        unfold Rewriting.outcome
        rw [hcalls, hwrong]
        exact Eval.bind_of_stopped hfirst _
    | none =>
        rw [hwrong] at hfirst
        obtain ⟨final, hintact'', hsecond⟩ := hnext rewriting.result middle hintact'
        refine ⟨final, hintact'', ?_⟩
        refine (Eval.bind_of_done hfirst _).trans (hsecond.trans ?_)
        unfold Rewriting.outcome
        rw [hcalls, hwrong]
        rfl

/-- A call of a template is replaced. -/
theorem rewriteCall_of_some {name : String} {template : Template}
    (htemplate : templates name = some template) (args : List Expr) :
    rewriteCall templates (.ident name) args =
      ⟨[⟨template, args⟩], TemplateCall.result ⟨template, args⟩⟩ := by
  have hbind : (Expr.ident name).name?.bind templates = some template := htemplate
  unfold rewriteCall
  rw [hbind]

/-- A call of anything else stays. -/
theorem rewriteCall_of_none {name : String} (htemplate : templates name = none)
    (args : List Expr) :
    rewriteCall templates (.ident name) args = pure (.call (.ident name) args) := by
  have hbind : (Expr.ident name).name?.bind templates = none := htemplate
  unfold rewriteCall
  rw [hbind]

/-- Only a call of a name is rewritten. -/
theorem rewriteNode_eq_pure {expr : Expr}
    (hother : ∀ name args, expr = .call (.ident name) args → False) :
    rewriteNode templates expr = pure expr := by
  cases expr with
  | call callee args =>
      cases callee with
      | ident name => exact (hother name args rfl).elim
      | int | bool | str | unary | binary | cond | function | macroLit | call | array | hash
      | index => rfl
  | ident | int | bool | str | unary | binary | cond | function | macroLit | array | hash
  | index => rfl

/-- At each expression, expansion does what rewriting does. -/
theorem follows_expandMacro (hbinds : before.store.BindsTemplates macros templates) (depth : Nat)
    (expr : Expr) :
    Follows before macros (expandMacro (eval (depth + 2)) macros expr)
      (rewriteNode templates expr) := by
  intro machine hintact
  unfold expandMacro
  split
  · next name args =>
      obtain ⟨hlookup, htemplate⟩ | ⟨template, env, htemplate, hwellFormed, hlookup⟩ := hbinds name
      · have hfound : Eval.lookup? macros name machine = .done none machine :=
          congrArg (Outcome.done · machine) ((hintact.lookup?_eq name).trans hlookup)
        rw [rewriteNode, rewriteCall_of_none htemplate]
        exact ⟨machine, hintact, Eval.bind_of_done hfound _⟩
      · have hfound : Eval.lookup? macros name machine =
            .done (some (template.toMacro env)) machine :=
          congrArg (Outcome.done · machine) ((hintact.lookup?_eq name).trans hlookup)
        rw [rewriteNode, rewriteCall_of_some htemplate]
        let call : TemplateCall := ⟨template, args⟩
        by_cases hfits : template.params.length = args.length
        · obtain ⟨scope, hcall⟩ :=
            @expandCall_of_fits call hwellFormed hfits depth name env machine
          refine ⟨_, hintact.enter hlookup (some env) scope, ?_⟩
          refine (Eval.bind_of_done hfound _).trans (hcall.trans ?_)
          unfold Rewriting.outcome
          have hnone : [call].find? (!·.fits) = none := by simp [call, TemplateCall.fits, hfits]
          rw [hnone]
        · refine ⟨machine, hintact, ?_⟩
          refine (Eval.bind_of_done hfound _).trans
            ((@expandCall_of_not_fits call hfits _ name _ env machine).trans ?_)
          unfold Rewriting.outcome
          have hsome : [call].find? (!·.fits) = some call := by
            simp [call, TemplateCall.fits, hfits]
          rw [hsome]
  · next hother =>
      rw [rewriteNode_eq_pure hother]
      exact ⟨machine, hintact, rfl⟩

/-- Let every macro be a well-formed template. Then the expansion of macros ends like the rewriting
of all calls: with the rewritten program, or with the fault of the first call that has a wrong
number of arguments. It prints nothing and writes to no scope that was there before. -/
theorem expandMacros_templates {machine : Machine} {macros : Env}
    {templates : String → Option Template}
    (hbinds : machine.store.BindsTemplates macros templates) (depth : Nat) (program : Program) :
    ∃ machine', machine'.printed = machine.printed ∧
      machine.store.WritesOnly none machine'.store ∧
      expandMacros (depth + 2) macros program machine =
        (rewriteProgram templates program).outcome machine' := by
  have hfollows : Follows machine macros (expandMacros (depth + 2) macros program)
      (transformProgramM (rewriteNode templates) program) :=
    transformProgramM_related (parallel_follows machine macros)
      (follows_expandMacro hbinds depth) program
  obtain ⟨machine', hintact, hexpand⟩ := hfollows machine (.refl machine macros)
  refine ⟨machine', hintact.printed_eq, hintact.writesOnly, ?_⟩
  rw [rewriteProgram, rewriteStmts_eq]
  exact hexpand

/-- The first argument names parameters and contains a call of `unquote`, and the second one is a
call of the macro itself. A call with one argument fails. -/
theorem expandMacros_templates_reverse :
    let reverse : Template := ⟨["a", "b"], .binary (.call (.ident "unquote") [.ident "b"]) .subtract
      (.call (.ident "unquote") [.ident "a"])⟩
    let machine : Machine := ⟨⟨#[⟨none, [("reverse", reverse.toMacro ⟨0⟩)]⟩]⟩, []⟩
    let first : Expr := .binary (.ident "b") .add (.call (.ident "unquote") [.ident "a"])
    let second : Expr := .call (.ident "reverse") [.ident "x", .ident "y"]
    (∃ machine', expandMacros 2 ⟨0⟩ [.expr (.call (.ident "reverse") [first, second])] machine =
      .done [.expr (.binary (.binary (.ident "y") .subtract (.ident "x")) .subtract first)]
        machine') ∧
    ∃ machine', expandMacros 2 ⟨0⟩ [.expr (.call (.ident "reverse") [first])] machine =
      .stopped (.fault (.arity 2 1)) machine' := by
  intro reverse machine first second
  have hwellFormed : reverse.WellFormed := by
    refine ⟨by decide, by decide, ?_⟩
    have hhole : ∀ name ∈ ["a", "b"], (Expr.call (.ident "unquote") [.ident name]).All
        (Expr.FitsTemplate ["a", "b"]) fun _ => True := by
      intro name hmem
      refine .call ⟨nofun, fun _ => ⟨name, hmem, rfl⟩⟩ (.ident trivial) ?_
      intro arg harg
      cases List.mem_singleton.mp harg
      exact .ident trivial
    exact .binary trivial (hhole "b" (by decide)) (hhole "a" (by decide))
  have hbinds : machine.store.BindsTemplates ⟨0⟩
      fun name => if name = "reverse" then some reverse else none := by
    intro name
    by_cases hname : name = "reverse"
    · subst hname
      refine Or.inr ⟨reverse, ⟨0⟩, rfl, hwellFormed, ?_⟩
      rw [Store.lookup?, Store.find?]
      rfl
    · refine Or.inl ⟨?_, if_neg hname⟩
      have hget : (machine.store.scope 0).get? name = none := by
        show [("reverse", reverse.toMacro ⟨0⟩)].lookup name = none
        rw [List.lookup_cons, beq_false_of_ne hname]
        rfl
      rw [Store.lookup?, Store.find?, hget]
      rfl
  obtain ⟨machine', _, _, hdone⟩ := expandMacros_templates hbinds 0
    [.expr (.call (.ident "reverse") [first, second])]
  obtain ⟨machine'', _, _, hstopped⟩ := expandMacros_templates hbinds 0
    [.expr (.call (.ident "reverse") [first])]
  exact ⟨⟨machine', hdone⟩, machine'', hstopped⟩

end MonkeyLang
