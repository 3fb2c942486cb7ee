import MonkeyLang.Proofs.Eval.Invariant
import MonkeyLang.Proofs.Expr.Everywhere
import MonkeyLang.Proofs.Value.Operators

/-!
# Every evaluation keeps a lawful invariant

One rule for each function of the evaluator, on top of the rules for the operations. Read
`Invariant.evaluates_eval` first: it closes the recursion by induction on the depth.
`Invariant.runs_applyValue` adds that a call never ends in a `return`, and
`Invariant.runs_expandMacros` that the expansion of macros does not either.
-/

namespace MonkeyLang

namespace Invariant

variable {inv : Invariant} {world : inv.World}

/-- A value that is not there is no matter. -/
theorem optional_none : inv.optional world none :=
  fun _ hnone => nomatch hnone

/-- Values are good by their parts. -/
theorem Lawful.partWise (h : inv.Lawful) (world : inv.World) : PartWise (inv.value world) :=
  ⟨h.value_atom, h.value_array, h.value_hash⟩

/-! ## Statements and calls -/

variable {evaluate : Evaluator} {env : Env}

/-- An evaluator keeps the invariant in every environment that code is evaluated in. -/
def Evaluates (inv : Invariant) (evaluate : Evaluator) : Prop :=
  ∀ ⦃world env⦄ (expr : Expr), inv.env world env →
    inv.Runs world inv.value inv.value (evaluate env expr)

/-- A statement has a good value if it has one. -/
theorem runs_evalStmt (h : inv.Lawful) (heval : inv.Evaluates evaluate)
    (henv : inv.env world env) (statement : Stmt) :
    inv.Runs world inv.optional inv.value (evalStmt evaluate env statement) := by
  cases statement with
  | expr expr =>
      refine runs_bind h (heval expr henv) fun world' value _ hvalue => ?_
      exact runs_pure h fun _ hsome => Option.some.inj hsome ▸ hvalue
  | ret expr =>
      refine runs_bind h (heval expr henv) fun world' value _ hvalue => ?_
      exact runs_stop_returned h hvalue
  | bind name expr =>
      refine runs_bind h (heval expr henv) fun world' value hgrows hvalue => ?_
      refine runs_bind h (runs_assign h (h.env_mono hgrows henv) name hvalue) fun _ _ _ _ => ?_
      exact runs_pure h optional_none

/-- Statements in order have the value of the last one. -/
theorem runs_evalStmts (h : inv.Lawful) (heval : inv.Evaluates evaluate)
    (statements : List Stmt) :
    ∀ {world env last}, inv.env world env → inv.optional world last →
      inv.Runs world inv.optional inv.value (evalStmts evaluate env last statements) := by
  induction statements with
  | nil =>
      intro world env last _ hlast
      exact runs_pure h hlast
  | cons statement statements ih =>
      intro world env last henv _
      refine runs_bind h (runs_evalStmt h heval henv statement) fun world' value hgrows hvalue => ?_
      exact ih (h.env_mono hgrows henv) hvalue

/-- A block has a good value. -/
theorem runs_evalBlock (h : inv.Lawful) (heval : inv.Evaluates evaluate)
    (henv : inv.env world env) (block : Block) :
    inv.Runs world inv.value inv.value (evalBlock evaluate env block) := by
  refine runs_bind h (runs_evalStmts h heval block henv optional_none)
    fun world' value _ hvalue => ?_
  exact runs_pure h ((h.partWise world').getD hvalue)

/-- A body run in a new scope has a good value, and no `return` leaves it. -/
theorem runs_evalBody (h : inv.Lawful) (heval : inv.Evaluates evaluate) {args : List Value}
    (params : List String) (body : Block) (henv : inv.closure world env)
    (hargs : inv.values world args) :
    inv.Runs world inv.value noReturn (evalBody evaluate params body env args) := by
  refine runs_bind h (runs_enter h params henv hargs) fun world' inner _ hinner => ?_
  exact runs_catchReturn (runs_evalBlock h heval hinner body)

/-- A builtin called on good arguments has a good value. -/
theorem runs_callBuiltin (h : inv.Lawful) {args : List Value} (builtin : Builtin)
    (hargs : inv.values world args) :
    inv.Runs world inv.value noReturn (callBuiltin builtin args) := by
  have hanswer : inv.Runs world (fun world' answer => inv.value world' answer.1) noReturn
      (Eval.ofExcept (builtin.apply args)) :=
    runs_ofExcept h fun answer happly => (h.partWise world).builtin hargs happly
  refine runs_bind h hanswer fun world' answer _ hvalue => ?_
  obtain ⟨value, printed⟩ := answer
  refine runs_bind h (runs_print h printed) fun world'' _ hgrows _ => ?_
  exact runs_pure h (h.value_mono hgrows hvalue)

/-- A call with good arguments has a good value, and no `return` leaves it. Only a function has to
be good to be called, because nothing else runs code. -/
theorem runs_applyValue (h : inv.Lawful) (heval : inv.Evaluates evaluate) {callee : Value}
    {args : List Value}
    (hcallee : ∀ params body env, callee = .function params body env → inv.closure world env)
    (hargs : inv.values world args) :
    inv.Runs world inv.value noReturn (applyValue evaluate callee args) := by
  cases callee with
  | function params body env =>
      exact runs_evalBody h heval params body (hcallee params body env rfl) hargs
  | builtin builtin => exact runs_callBuiltin h builtin hargs
  | int | bool | null | str | array | hash | returned | error | quote | macroFn =>
      exact runs_fail h _

/-! ## Expressions -/

/-- Expressions evaluate to good values. -/
theorem runs_evalAll (h : inv.Lawful) (heval : inv.Evaluates evaluate) (exprs : List Expr) :
    ∀ {world env}, inv.env world env →
      inv.Runs world inv.values inv.value (evalAll evaluate env exprs) := by
  induction exprs with
  | nil =>
      intro world env _
      exact runs_pure h fun _ hmem => nomatch hmem
  | cons expr exprs ih =>
      intro world env henv
      refine runs_bind h (heval expr henv) fun world' value hgrows hvalue => ?_
      refine runs_bind h (ih (h.env_mono hgrows henv)) fun world'' values hgrows' hvalues => ?_
      refine runs_pure h fun member hmem => ?_
      rcases List.mem_cons.mp hmem with rfl | hmem
      · exact h.value_mono hgrows' hvalue
      · exact hvalues member hmem

/-- Pairs evaluate to good entries. -/
theorem runs_evalPairs (h : inv.Lawful) (heval : inv.Evaluates evaluate)
    (pairs : List (Expr × Expr)) :
    ∀ {world env entries}, inv.env world env → inv.entries world entries →
      inv.Runs world inv.entries inv.value (evalPairs evaluate env entries pairs) := by
  induction pairs with
  | nil =>
      intro world env entries _ hentries
      exact runs_pure h hentries
  | cons pair pairs ih =>
      intro world env entries henv hentries
      obtain ⟨keyExpr, valueExpr⟩ := pair
      have hhashKey : ∀ world' (key : Value),
          inv.Runs world' anyResult inv.value (Eval.ofExcept key.hashKey) :=
        fun _ _ => runs_ofExcept h fun _ _ => trivial
      refine runs_bind h (heval keyExpr henv) fun world₁ key hgrows₁ hkey => ?_
      refine runs_bind h (hhashKey world₁ key) fun world₂ hashKey hgrows₂ _ => ?_
      have hgrows : inv.grows world world₂ := h.grows_trans hgrows₁ hgrows₂
      refine runs_bind h (heval valueExpr (h.env_mono hgrows henv))
        fun world₃ value hgrows₃ hvalue => ?_
      -- The key is as old as `world₁` and the other entries are as old as `world`.
      refine ih (h.env_mono hgrows₃ (h.env_mono hgrows henv)) fun entry hentry => ?_
      rcases mem_insertEntry hentry with rfl | hold
      · exact ⟨h.value_mono hgrows₃ (h.value_mono hgrows₂ hkey), hvalue⟩
      · obtain ⟨holdKey, holdValue⟩ := hentries entry hold
        exact ⟨h.value_mono hgrows₃ (h.value_mono hgrows holdKey),
          h.value_mono hgrows₃ (h.value_mono hgrows holdValue)⟩

/-- A name has a good value. -/
theorem runs_evalName (h : inv.Lawful) (henv : inv.env world env) (name : String) :
    inv.Runs world inv.value inv.value (evalName env name) := by
  unfold evalName
  split
  · exact runs_pure h (h.value_atom trivial)
  · exact runs_lookup h henv name

/-- Quotation keeps the invariant by way of any evaluator that does. -/
def Quotes (inv : Invariant) : Prop :=
  ∀ ⦃evaluate⦄, inv.Evaluates evaluate → ∀ ⦃world env⦄ (args : List Expr), inv.env world env →
    inv.Runs world inv.value inv.value (quoteArgs evaluate env args)

/-- A step of the evaluator keeps the invariant if the evaluator of the expressions inside does. -/
theorem evaluates_evalStep (h : inv.Lawful) (hquotes : inv.Quotes)
    (heval : inv.Evaluates evaluate) : inv.Evaluates (evalStep evaluate) := by
  intro world env expr henv
  cases expr with
  | ident name => exact runs_evalName h henv name
  | int | bool | str => exact runs_pure h (h.value_atom trivial)
  | unary op operand =>
      refine runs_bind h (heval operand henv) fun world' value _ _ => ?_
      exact runs_ofExcept h fun result happly => h.value_atom (UnaryOp.isAtom_of_apply happly)
  | binary left op right =>
      refine runs_bind h (heval left henv) fun world' leftValue hgrows _ => ?_
      refine runs_bind h (heval right (h.env_mono hgrows henv)) fun world'' rightValue _ _ => ?_
      exact runs_ofExcept h fun result happly => h.value_atom (BinaryOp.isAtom_of_apply happly)
  | cond condition consequence alternative =>
      refine runs_bind h (heval condition henv) fun world' value hgrows _ => ?_
      have henv' := h.env_mono hgrows henv
      split
      · exact runs_evalBlock h heval henv' consequence
      · cases alternative with
        | none => exact runs_pure h (h.value_atom trivial)
        | some block => exact runs_evalBlock h heval henv' block
  | function params body => exact runs_pure h (h.value_function.mpr (h.closure_of_env henv))
  | macroLit params body => exact runs_pure h (h.value_macroFn.mpr (h.closure_of_env henv))
  | call callee args =>
      rw [evalStep]
      split
      · exact hquotes heval args henv
      · refine runs_bind h (heval callee henv) fun world' function hgrows hfunction => ?_
        refine runs_bind h (runs_evalAll h heval args (h.env_mono hgrows henv))
          fun world'' values hgrows' hvalues => ?_
        have hclosure : ∀ params body outer, function = .function params body outer →
            inv.closure world'' outer := by
          intro params body outer heq
          subst heq
          exact h.value_function.mp (h.value_mono hgrows' hfunction)
        have hcall := runs_applyValue h heval hclosure hvalues
        -- A call lets no `return` out, so it is also one that lets good values out.
        exact hcall.mono (fun _ _ hvalue => hvalue) fun _ _ hfalse => hfalse.elim
  | array elements =>
      refine runs_bind h (runs_evalAll h heval elements henv) fun world' values _ hvalues => ?_
      exact runs_pure h (h.value_array.mpr hvalues)
  | hash pairs =>
      have hnone : inv.entries world [] := fun _ hmem => nomatch hmem
      refine runs_bind h (runs_evalPairs h heval pairs henv hnone)
        fun world' entries _ hentries => ?_
      exact runs_pure h (h.value_hash.mpr hentries)
  | index collection position =>
      refine runs_bind h (heval collection henv) fun world' collectionValue hgrows hcollection => ?_
      refine runs_bind h (heval position (h.env_mono hgrows henv))
        fun world'' positionValue hgrows' _ => ?_
      exact runs_ofExcept h fun result hindex =>
        (h.partWise world'').indexBy (h.value_mono hgrows' hcollection) hindex

/-- Evaluation keeps a lawful invariant at every depth. -/
theorem evaluates_eval (h : inv.Lawful) (hquotes : inv.Quotes) (depth : Nat) :
    inv.Evaluates (eval depth) := by
  induction depth with
  | zero =>
      intro world env expr henv machine hstore
      trivial
  | succ depth ih => exact evaluates_evalStep h hquotes ih

/-! ## Quotation and the expansion of macros -/

/-- Evaluations that keep the invariant from a world on, whatever they result in. -/
def RunsFrom (inv : Invariant) (world : inv.World) (returned : inv.World → Value → Prop)
    ⦃α : Type⦄ (action : Eval α) : Prop :=
  ∀ world', inv.grows world world' → inv.Runs world' anyResult returned action

/-- Keeping the invariant from a world on is a matter of each evaluation in a sequence. -/
theorem sequential_runsFrom (h : inv.Lawful) (world : inv.World)
    (returned : inv.World → Value → Prop) : Sequential (inv.RunsFrom world returned) where
  pure := by
    intro α value world' _
    exact runs_pure h trivial
  bind := by
    intro α β first next hfirst hnext world' hgrows
    refine runs_bind h (hfirst world' hgrows) fun world'' value hgrows' _ => ?_
    exact hnext value world'' (h.grows_trans hgrows hgrows')

/-- Evaluations that keep the invariant from a world on and result in nothing but what is good. -/
def ResultsFrom (inv : Invariant) (world : inv.World) (returned : inv.World → Value → Prop)
    ⦃α : Type⦄ (goal : α → Prop) (action : Eval α) : Prop :=
  ∀ world', inv.grows world world' → inv.Runs world' (fun _ => goal) returned action

/-- The results of a sequence are those of its last evaluation, which starts from good ones. -/
theorem building_resultsFrom (h : inv.Lawful) (world : inv.World)
    (returned : inv.World → Value → Prop) : Building (inv.ResultsFrom world returned) where
  pure := by
    intro α goal value hvalue world' _
    exact runs_pure h hvalue
  bind := by
    intro α β goal goal' first next hfirst hnext world' hgrows
    refine runs_bind h (hfirst world' hgrows) fun world'' value hgrows' hvalue => ?_
    exact hnext value hvalue world'' (h.grows_trans hgrows hgrows')

/-- Replacing a call of `unquote` keeps the invariant. -/
theorem runs_unquote (h : inv.Lawful) (heval : inv.Evaluates evaluate) (henv : inv.env world env)
    (expr : Expr) : inv.Runs world anyResult inv.value (unquote evaluate env expr) := by
  unfold unquote
  split
  · split
    · split
      · next arg =>
          refine runs_bind h (heval arg henv) fun world' value _ _ => ?_
          exact runs_ofExcept h fun _ _ => trivial
      · exact runs_fail h _
    · exact runs_pure h trivial
  · exact runs_pure h trivial

/-- Quotation keeps an invariant for which all quoted code is good. -/
theorem quotes_of_value_quote (h : inv.Lawful)
    (hquote : ∀ world expr, inv.value world (.quote expr)) : inv.Quotes := by
  intro evaluate heval world env args henv
  unfold quoteArgs
  split
  · next arg =>
      have hwalk : inv.RunsFrom world inv.value (arg.transformM (unquote evaluate env)) :=
        Expr.transformM_holds (sequential_runsFrom h world inv.value)
          (fun expr world' hgrows => runs_unquote h heval (h.env_mono hgrows henv) expr) arg
      refine runs_bind h (hwalk world (h.grows_refl world)) fun world' expr _ _ => ?_
      exact runs_pure h (hquote world' expr)
  · exact runs_fail h _

/-- Expanding a call of a macro keeps the invariant, and no `return` leaves it. The environment of
macros is only read, because a macro runs in a new scope. -/
theorem runs_expandMacro (h : inv.Lawful) (hquote : ∀ world expr, inv.value world (.quote expr))
    (heval : inv.Evaluates evaluate) (hreads : inv.Reads world env) (expr : Expr) :
    inv.Runs world anyResult noReturn (expandMacro evaluate env expr) := by
  unfold expandMacro
  split
  · next name args =>
      refine runs_bind h (runs_lookup? h hreads name) fun world' found hgrows hfound => ?_
      split
      · next params body outer =>
          have houter : inv.closure world' outer := h.value_macroFn.mp (hfound _ rfl)
          have hargs : inv.values world' (args.map .quote) := by
            intro arg hmem
            obtain ⟨quoted, _, rfl⟩ := List.mem_map.mp hmem
            exact hquote world' quoted
          refine runs_bind h (runs_evalBody h heval params body houter hargs)
            fun world'' value _ _ => ?_
          split
          · exact runs_pure h trivial
          · exact runs_fail h _
      · exact runs_pure h trivial
  · exact runs_pure h trivial

/-- The expansion of macros keeps the invariant if the environment of macros can be read, and no
`return` leaves it. -/
theorem runs_expandMacros_of_reads (h : inv.Lawful)
    (hquote : ∀ world expr, inv.value world (.quote expr)) (depth : Nat) {macros : Env}
    (hreads : inv.Reads world macros) (program : Program) :
    inv.Runs world anyResult noReturn (expandMacros depth macros program) := by
  have heval := evaluates_eval h (quotes_of_value_quote h hquote) depth
  have hwalk : inv.RunsFrom world noReturn (expandMacros depth macros program) :=
    transformProgramM_holds (sequential_runsFrom h world noReturn)
      (fun expr world' hgrows => runs_expandMacro h hquote heval
        (fun _ _ _ _ hgrows' => hreads (h.grows_trans hgrows hgrows')) expr) program
  exact hwalk world (h.grows_refl world)

/-- The expansion of macros keeps the invariant, and no `return` leaves it. -/
theorem runs_expandMacros (h : inv.Lawful) (hquote : ∀ world expr, inv.value world (.quote expr))
    (depth : Nat) {macros : Env} (hmacros : inv.env world macros) (program : Program) :
    inv.Runs world anyResult noReturn (expandMacros depth macros program) :=
  runs_expandMacros_of_reads h hquote depth (reads_of_env h hmacros) program

end Invariant

end MonkeyLang
