import MonkeyLang.Proofs.Eval.Quotation
import MonkeyLang.Proofs.Eval.Sequence
import MonkeyLang.Proofs.Print.Order

/-!
# Quotations inside quotations

A quotation evaluates the calls of `unquote` in its code from the inside out, and that includes the
calls in a quotation inside it. The inner quotation is left with code that has no such calls, so
that `quote(unquote(quote(e)))` is `quote(e)`: read `eval_quote_nested`. Which calls a quotation
evaluates is read off a record of the expressions that its walk visits (`Expr.visited`).
-/

namespace MonkeyLang

/-! ## The visits of a walk -/

/-- An evaluation together with the expressions that it visits, in order. -/
def Recorded (α : Type) : Type :=
  Machine → Outcome α × List Expr

namespace Recorded

variable {α β : Type}

/-- Evaluate one thing and then, unless that was interrupted, the next. -/
def andThen (first : Recorded α) (next : α → Recorded β) : Recorded β := fun machine =>
  match first machine with
  | (.done value machine', visited) =>
      ((next value machine').1, visited ++ (next value machine').2)
  | (.stopped interrupt machine', visited) => (.stopped interrupt machine', visited)
  | (.tooDeep, visited) => (.tooDeep, visited)

instance : Monad Recorded where
  pure value := fun machine => (.done value machine, [])
  bind := andThen

/-- Visit an expression and record it. -/
def ofVisit (visit : Expr → Eval Expr) (expr : Expr) : Recorded Expr := fun machine =>
  (visit expr machine, [expr])

/-- Leaving out the records, recorded evaluations in sequence are evaluations in sequence. -/
theorem parallel_fst : Parallel fun α (recorded : Recorded α) (action : Eval α) =>
    ∀ machine, (recorded machine).1 = action machine where
  pure _ _ _ := rfl
  bind := by
    intro α β first action next action' hfirst hnext machine
    show (andThen first next machine).1 = Eval.andThen action action' machine
    unfold andThen Eval.andThen
    rw [← hfirst machine]
    obtain ⟨outcome, visited⟩ := first machine
    cases outcome with
    | done value machine' => exact hnext value machine'
    | stopped interrupt machine' => rfl
    | tooDeep => rfl

/-- The records are of the expressions in order, each as it was visited. All of them are recorded if
the evaluation ends with a result. -/
def Lists (visitedAs : Expr → Expr → Prop) ⦃α : Type⦄ (nodes : List Expr) (goal : α → Prop)
    (recorded : Recorded α) : Prop :=
  ∀ machine, ∃ before after, nodes = before ++ after ∧
    List.Forall₂ visitedAs before (recorded machine).2 ∧
    ∀ value machine', (recorded machine).1 = .done value machine' → after = [] ∧ goal value

/-- Records in sequence. -/
theorem walking_lists (visitedAs : Expr → Expr → Prop) : Walking (Lists visitedAs) where
  pure := by
    intro α goal value hvalue machine
    refine ⟨[], [], rfl, .nil, fun other machine' hdone => ⟨rfl, ?_⟩⟩
    cases hdone
    exact hvalue
  bind := by
    intro α β nodes nodes' goal goal' first next hfirst hnext machine
    show ∃ before after, nodes ++ nodes' = before ++ after ∧
      List.Forall₂ visitedAs before (andThen first next machine).2 ∧
      ∀ value machine', (andThen first next machine).1 = .done value machine' →
        after = [] ∧ goal' value
    obtain ⟨before, after, hnodes, hvisited, hresult⟩ := hfirst machine
    unfold andThen
    revert hvisited hresult
    obtain ⟨outcome, visited⟩ := first machine
    intro hvisited hresult
    cases outcome with
    | done value machine' =>
        -- Everything in the first part was visited, so the second record goes on behind it.
        obtain ⟨rfl, hvalue⟩ := hresult value machine' rfl
        obtain ⟨before', after', hnodes', hvisited', hresult'⟩ := hnext value hvalue machine'
        refine ⟨before ++ before', after', ?_, List.rel_append hvisited hvisited', hresult'⟩
        rw [hnodes, hnodes', List.append_nil, List.append_assoc]
    | stopped interrupt machine' =>
        refine ⟨before, after ++ nodes', ?_, hvisited, nofun⟩
        rw [hnodes, List.append_assoc]
    | tooDeep =>
        refine ⟨before, after ++ nodes', ?_, hvisited, nofun⟩
        rw [hnodes, List.append_assoc]

end Recorded

/-- The expressions that a walk visits, in order and with their insides walked already. -/
def Expr.visited (visit : Expr → Eval Expr) (expr : Expr) (machine : Machine) : List Expr :=
  (expr.transformM (Recorded.ofVisit visit) machine).2

/-- A recorded walk is the walk together with its visits. -/
theorem Expr.transformM_ofVisit (visit : Expr → Eval Expr) (expr : Expr) (machine : Machine) :
    expr.transformM (Recorded.ofVisit visit) machine =
      (expr.transformM visit machine, expr.visited visit machine) := by
  have hsame : (expr.transformM (Recorded.ofVisit visit) machine).1 =
      expr.transformM visit machine :=
    expr.transformM_related Recorded.parallel_fst (fun _ _ => rfl) machine
  rw [← hsame]
  rfl

/-- A walk whose visits change nothing visits the expressions of the tree as they are. -/
theorem Expr.visited_unchanged {visit : Expr → Eval Expr} {expr : Expr}
    (hvisits : ∀ node ∈ expr.nodes, ∀ machine, visit node machine = .done node machine)
    (machine : Machine) : ∀ node ∈ expr.visited visit machine, node ∈ expr.nodes := by
  have hlists : Recorded.Lists Eq expr.nodes (expr = ·)
      (expr.transformM (Recorded.ofVisit visit)) := by
    refine expr.transformM_walks (Recorded.walking_lists Eq)
      fun original hmem rebuilt hrebuilt => ?_
    rw [← hrebuilt.eq]
    refine fun start => ⟨[original], [], rfl, .cons rfl .nil, fun value final hdone => ⟨rfl, ?_⟩⟩
    cases (hvisits original hmem start).symm.trans hdone
    rfl
  obtain ⟨before, after, hnodes, hvisited, _⟩ := hlists machine
  rw [List.forall₂_eq_eq_eq] at hvisited
  intro node hnode
  rw [hnodes, hvisited]
  exact List.mem_append_left after hnode

/-! ## The calls that a quotation evaluates -/

/-- The call `quote(code)`. -/
def Expr.quoted (code : Expr) : Expr :=
  .call (.ident "quote") [code]

/-- The call `unquote(code)`. -/
def Expr.unquoted (code : Expr) : Expr :=
  .call (.ident "unquote") [code]

/-- The calls of `unquote` that the quotation of code evaluates, in order. -/
def unquoteCalls (evaluate : Evaluator) (env : Env) (code : Expr) (machine : Machine) :
    List Expr :=
  (code.visited (unquote evaluate env) machine).filter (·.calledName? = some "unquote")

/-- What becomes of an expression is the same if it is an identifier. -/
def Expr.KeepsIdent (original code : Expr) : Prop :=
  ∀ name, original = .ident name → code = .ident name

/-- How a quotation visits an expression: with its children walked, and as a call of `unquote` if it
is one. -/
structure Expr.VisitedAs (original visited : Expr) : Prop where
  rebuilt : original.Rebuilt Expr.KeepsIdent visited
  calls : original.calledName? = some "unquote" → visited.calledName? = some "unquote"

/-- The quotation of code visits the expressions of the code one by one in order, each of them once
if it ends with a result, and else those before the point where it ends. -/
def UnquotesOnce (evaluate : Evaluator) (env : Env) (code : Expr) (machine : Machine) : Prop :=
  ∃ before after, code.nodes = before ++ after ∧
    List.Forall₂ Expr.VisitedAs before (code.visited (unquote evaluate env) machine) ∧
    ∀ code' machine', code.transformM (unquote evaluate env) machine = .done code' machine' →
      after = []

/-- Identifiers stay, so that a call of `unquote` is one when it is visited. -/
theorem Expr.Rebuilt.visitedAs {original rebuilt : Expr}
    (hrebuilt : original.Rebuilt Expr.KeepsIdent rebuilt) : original.VisitedAs rebuilt := by
  refine ⟨hrebuilt, fun hcalls => ?_⟩
  cases hrebuilt with
  | @call callee callee' _ _ hcallee _ =>
      cases callee with
      | ident name =>
          rw [hcallee name rfl]
          exact hcalls
      | int | bool | str | unary | binary | cond | function | macroLit | call | array | hash
      | index => cases hcalls
  | ident | int | bool | str | unary | binary | cond | condElse | function | macroLit | array
  | hash | index => cases hcalls

/-- Every quotation visits the expressions of its code once. -/
theorem unquotesOnce (evaluate : Evaluator) (env : Env) (code : Expr) (machine : Machine) :
    UnquotesOnce evaluate env code machine := by
  have hlists : Recorded.Lists Expr.VisitedAs code.nodes code.KeepsIdent
      (code.transformM (Recorded.ofVisit (unquote evaluate env))) := by
    refine code.transformM_walks (Recorded.walking_lists _) fun original _ rebuilt hrebuilt => ?_
    refine fun start => ⟨[original], [], rfl, .cons hrebuilt.visitedAs .nil,
      fun value final hdone => ⟨rfl, fun name hname => ?_⟩⟩
    subst hname
    cases hrebuilt
    cases hdone
    rfl
  obtain ⟨before, after, hnodes, hvisited, hresult⟩ := hlists machine
  refine ⟨before, after, hnodes, hvisited, fun code' machine' hdone => ?_⟩
  rw [code.transformM_ofVisit] at hresult
  exact (hresult code' machine' hdone).1

/-- The quotation of code without calls of `unquote` evaluates nothing. -/
theorem unquoteCalls_of_unquoteFree {code : Expr} (hfree : code.UnquoteFree)
    (evaluate : Evaluator) (env : Env) (machine : Machine) :
    unquoteCalls evaluate env code machine = [] := by
  have hnodes := hfree.of_mem_nodes
  refine List.filter_eq_nil_iff.mpr fun visited hmem => ?_
  have hnode : visited ∈ code.nodes := Expr.visited_unchanged
    (fun node hnode => unquote_of_calledName?_ne (hnodes node hnode) evaluate env) machine visited
    hmem
  simpa using hnodes visited hnode

/-! ## A quotation in a quotation -/

variable {evaluate : Evaluator} {env : Env} {machine machine' : Machine} {code code' : Expr}

/-- The quotation of `unquote(quote(code))` first walks the code, and then evaluates the call of
`unquote` around what became of it. -/
theorem transformM_unquoted_quoted (evaluate : Evaluator) (env : Env) (code : Expr)
    (machine : Machine) :
    code.quoted.unquoted.transformM (Recorded.ofVisit (unquote evaluate env)) machine =
      match code.transformM (unquote evaluate env) machine with
      | .done code' machine' => (unquote evaluate env code'.quoted.unquoted machine',
          [.ident "unquote", .ident "quote"] ++ code.visited (unquote evaluate env) machine ++
            [code'.quoted, code'.quoted.unquoted])
      | .stopped interrupt machine' => (.stopped interrupt machine',
          [.ident "unquote", .ident "quote"] ++ code.visited (unquote evaluate env) machine)
      | .tooDeep => (.tooDeep,
          [.ident "unquote", .ident "quote"] ++ code.visited (unquote evaluate env) machine) := by
  have hident : ∀ name start, Recorded.ofVisit (unquote evaluate env) (.ident name) start =
      (.done (.ident name) start, [.ident name]) := fun _ _ => rfl
  have hquoted : ∀ walked start, Recorded.ofVisit (unquote evaluate env)
      (.call (.ident "quote") [walked]) start =
        (.done (.call (.ident "quote") [walked]) start, [.call (.ident "quote") [walked]]) :=
    fun _ _ => rfl
  have hwalk := code.transformM_ofVisit (unquote evaluate env) machine
  unfold Expr.unquoted Expr.quoted
  cases hout : code.transformM (unquote evaluate env) machine with
  | done code' machine' =>
      rw [hout] at hwalk
      simp only [Expr.transformM, transformExprsM, bind, pure, Recorded.andThen, hident, hwalk,
        hquoted]
      simp [Recorded.ofVisit]
  | stopped interrupt machine' =>
      rw [hout] at hwalk
      simp only [Expr.transformM, transformExprsM, bind, Recorded.andThen, hident, hwalk]
      simp
  | tooDeep =>
      rw [hout] at hwalk
      simp only [Expr.transformM, transformExprsM, bind, Recorded.andThen, hident, hwalk]
      simp

/-- The calls of `unquote` that `quote(unquote(quote(code)))` evaluates are those of `quote(code)`,
and then, if these end with a result, the one around it. -/
theorem unquoteCalls_unquoted_quoted (evaluate : Evaluator) (env : Env) (code : Expr)
    (machine : Machine) :
    unquoteCalls evaluate env code.quoted.unquoted machine =
      unquoteCalls evaluate env code machine ++
        match code.transformM (unquote evaluate env) machine with
        | .done code' _ => [code'.quoted.unquoted]
        | _ => [] := by
  have hnested := transformM_unquoted_quoted evaluate env code machine
  unfold unquoteCalls Expr.visited at *
  rw [hnested]
  cases code.transformM (unquote evaluate env) machine with
  | done code' machine' => simp [Expr.calledName?, Expr.name?, Expr.quoted, Expr.unquoted]
  | stopped interrupt machine' => simp [Expr.calledName?]
  | tooDeep => simp [Expr.calledName?]

/-- Code without calls of `unquote` is what it is quoted as. -/
theorem unquote_quoted_of_unquoteFree (hfree : code.UnquoteFree) (depth : Nat) (env : Env)
    (machine : Machine) :
    unquote (eval (depth + 1)) env code.quoted.unquoted machine = .done code machine := by
  have hnodes := hfree.of_mem_nodes
  have hwalk : code.transformM (unquote (eval depth) env) machine = .done code machine :=
    Expr.transformM_unchanged fun node hmem =>
      unquote_of_calledName?_ne (hnodes node hmem) (eval depth) env machine
  have hquote : eval (depth + 1) env code.quoted machine = .done (.quote code) machine :=
    Eval.bind_of_done hwalk _
  exact Eval.bind_of_done hquote _

/-- What becomes of quoted code has no calls of `unquote` in it, where what is quoted in reach has
none. -/
theorem unquoteFree_of_transformM {depth : Nat}
    (hfree : ∀ id, machine.store.Reaches env.scope id →
      ∀ binding ∈ (machine.store.scope id).bindings, binding.2.UnquoteFree)
    (hwalk : code.transformM (unquote (eval depth) env) machine = .done code' machine') :
    code'.UnquoteFree := by
  have hruns : unquoteFree.Runs (machine.store.Reaches env.scope) unquoteFree.value
      unquoteFree.value (quoteArgs (eval depth) env [code]) :=
    quotes_unquoteFree (evaluates_unquoteFree depth) [code] Store.Reaches.self
  have hends := hruns machine (Store.region_reaches hfree)
  have hquote : quoteArgs (eval depth) env [code] machine = .done (.quote code') machine' :=
    Eval.bind_of_done hwalk _
  rw [hquote] at hends
  obtain ⟨_, _, hvalue, _⟩ := hends
  exact Value.unquoteFree_quote.mp hvalue.isGood

/-- At every depth that allows for the inner quotation, both quotations have the same outcome. -/
theorem eval_quoted_unquoted_quoted (hfree : ∀ id, machine.store.Reaches env.scope id →
      ∀ binding ∈ (machine.store.scope id).bindings, binding.2.UnquoteFree)
    (depth : Nat) (code : Expr) :
    eval (depth + 2) env code.quoted.unquoted.quoted machine =
      eval (depth + 2) env code.quoted machine := by
  have hwalk : code.quoted.unquoted.transformM (unquote (eval (depth + 1)) env) machine =
      code.transformM (unquote (eval (depth + 1)) env) machine := by
    have hnested := transformM_unquoted_quoted (eval (depth + 1)) env code machine
    rw [Expr.transformM_ofVisit] at hnested
    cases hout : code.transformM (unquote (eval (depth + 1)) env) machine with
    | done code' machine' =>
        rw [hout] at hnested
        refine (congrArg Prod.fst hnested).trans ?_
        have hfree' := unquoteFree_of_transformM hfree hout
        exact unquote_quoted_of_unquoteFree hfree' depth env machine'
    | stopped interrupt machine' =>
        rw [hout] at hnested
        exact congrArg Prod.fst hnested
    | tooDeep =>
        rw [hout] at hnested
        exact congrArg Prod.fst hnested
  show Eval.andThen _ _ machine = Eval.andThen _ _ machine
  unfold Eval.andThen
  rw [hwalk]

/-- Expressions that have the same outcome at every depth from some depth on have the same outcomes
altogether. -/
theorem exists_eval_iff_of_eval_eq {expr expr' : Expr} {more : Nat}
    (hsame : ∀ depth, eval (depth + more) env expr machine = eval (depth + more) env expr' machine)
    (outcome : Outcome Value) (hne : outcome ≠ .tooDeep) :
    (∃ depth, eval depth env expr machine = outcome) ↔
      ∃ depth, eval depth env expr' machine = outcome := by
  constructor
  · rintro ⟨depth, rfl⟩
    exact ⟨depth + more, (hsame depth).symm.trans (eval_of_depth_le (Nat.le_add_right ..) hne)⟩
  · rintro ⟨depth, rfl⟩
    exact ⟨depth + more, (hsame depth).trans (eval_of_depth_le (Nat.le_add_right ..) hne)⟩

/-- Let no call of `unquote` be quoted in reach. Then `quote(unquote(quote(code)))` has the same
outcome as `quote(code)`, with the same scopes and the same values printed, or both nest without
end. So the text printed is the same in every order of hashes (`HashOrder`). Each call of `unquote`
in the code is evaluated once by either: the outer quotation evaluates those that `quote(code)`
does, and then the one around the inner quotation, which has none left. -/
theorem eval_quote_nested (hfree : ∀ id, machine.store.Reaches env.scope id →
      ∀ binding ∈ (machine.store.scope id).bindings, binding.2.UnquoteFree) (code : Expr) :
    (∀ outcome, outcome ≠ .tooDeep →
      ((∃ depth, eval depth env code.quoted.unquoted.quoted machine = outcome) ↔
        ∃ depth, eval depth env code.quoted machine = outcome)) ∧
    ((∀ depth, eval depth env code.quoted.unquoted.quoted machine = .tooDeep) ↔
      ∀ depth, eval depth env code.quoted machine = .tooDeep) ∧
    ∀ depth,
      eval (depth + 2) env code.quoted.unquoted.quoted machine =
        eval (depth + 2) env code.quoted machine ∧
      (∀ order, (eval (depth + 2) env code.quoted.unquoted.quoted machine).text? order =
        (eval (depth + 2) env code.quoted machine).text? order) ∧
      UnquotesOnce (eval (depth + 1)) env code machine ∧
      (unquoteCalls (eval (depth + 1)) env code.quoted.unquoted machine =
        unquoteCalls (eval (depth + 1)) env code machine ++
          match code.transformM (unquote (eval (depth + 1)) env) machine with
          | .done code' _ => [code'.quoted.unquoted]
          | _ => []) ∧
      ∀ code' machine',
        code.transformM (unquote (eval (depth + 1)) env) machine = .done code' machine' →
        unquoteCalls (eval depth) env code' machine' = [] := by
  have hsame := fun depth => eval_quoted_unquoted_quoted hfree depth code
  have houtcome := exists_eval_iff_of_eval_eq hsame
  refine ⟨houtcome, ⟨fun htwice depth => ?_, fun honce depth => ?_⟩, fun depth => ?_⟩
  · by_contra hne
    obtain ⟨depth', hdepth'⟩ := (houtcome _ hne).mpr ⟨depth, rfl⟩
    exact hne (hdepth'.symm.trans (htwice depth'))
  · by_contra hne
    obtain ⟨depth', hdepth'⟩ := (houtcome _ hne).mp ⟨depth, rfl⟩
    exact hne (hdepth'.symm.trans (honce depth'))
  · refine ⟨hsame depth, fun order => by rw [hsame depth], unquotesOnce (eval (depth + 1)) env code machine,
      unquoteCalls_unquoted_quoted (eval (depth + 1)) env code machine,
      fun code' machine' hwalk => ?_⟩
    exact unquoteCalls_of_unquoteFree (unquoteFree_of_transformM hfree hwalk) (eval depth) env
      machine'

/-- The callee of the call is the name `unquote` only after it was walked. The call then prints and
is replaced by a number. -/
theorem eval_quote_nested_callee :
    let store : Store := ⟨#[⟨none, [("q", .quote (.binary (.int 1) .add (.int 2)))]⟩]⟩
    let callee : Expr := (Expr.ident "unquote").quoted.unquoted
    let arg : Expr :=
      .cond (.call (.ident "puts") [.str "hi"]) [.expr (.int 1)] (some [.expr (.int 2)])
    let code : Expr := .call callee [arg]
    (∀ id, store.Reaches 0 id → ∀ binding ∈ (store.scope id).bindings, binding.2.UnquoteFree) ∧
    unquoteCalls (eval 3) ⟨0⟩ code ⟨store, []⟩ = [callee, arg.unquoted] ∧
    ∃ depth, eval depth ⟨0⟩ code.quoted.unquoted.quoted ⟨store, []⟩ =
      .done (.quote (.int 2)) ⟨store, [.str "hi"]⟩ := by
  intro store callee arg code
  have hfree : ∀ id, store.Reaches 0 id → ∀ binding ∈ (store.scope id).bindings,
      binding.2.UnquoteFree := by
    intro id _ binding hmem
    rcases Nat.eq_zero_or_pos id with rfl | hpos
    · cases List.mem_singleton.mp hmem
      exact Value.unquoteFree_quote.mpr (.binary nofun (.int nofun) (.int nofun))
    · rw [Store.scope_of_size_le hpos] at hmem
      cases hmem
  have honce : eval 4 ⟨0⟩ code.quoted ⟨store, []⟩ =
      .done (.quote (.int 2)) ⟨store, [.str "hi"]⟩ := rfl
  refine ⟨hfree, rfl, ?_⟩
  obtain ⟨houtcome, _⟩ := @eval_quote_nested ⟨0⟩ ⟨store, []⟩ hfree code
  exact (houtcome (.done (.quote (.int 2)) ⟨store, [.str "hi"]⟩) nofun).mpr ⟨4, honce⟩

end MonkeyLang
