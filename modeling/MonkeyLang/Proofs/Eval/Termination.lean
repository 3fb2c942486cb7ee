import MonkeyLang.Proofs.Eval.Quotation
import MonkeyLang.Proofs.Eval.Sequence

/-!
# Evaluation without functions ends

Without function literals nothing is called but builtins, so what is left to show is that quotation
ends. A call of `unquote` may evaluate code of any size that was quoted before, but no code that was
quoted has calls of `unquote` in it. So there are two stages: code without function literals and
without calls of `unquote` is evaluated at a depth that its tree bounds, and the calls of `unquote`
in other code evaluate only such code. Both are instances of `halts_eval_of_quotations`; the result
is `evalProgram_ends`.
-/

namespace MonkeyLang

/-! ## Code and values without functions -/

/-- Whether an expression is a function literal. -/
def Expr.IsFunction : Expr → Prop
  | .function _ _ => True
  | _ => False

/-- Whether no expression in a tree is a function literal. -/
def Expr.FunctionFree (expr : Expr) : Prop :=
  expr.Everywhere fun inner => ¬ inner.IsFunction

/-- Whether no expression in a tree is a function literal or calls `unquote`. -/
def Expr.Inert (expr : Expr) : Prop :=
  expr.Everywhere fun inner => ¬ inner.IsFunction ∧ inner.calledName? ≠ some "unquote"

namespace Value

/-- Whether a value is no function, and inert code if it is quoted code. -/
def IsInertPart : Value → Prop
  | function _ _ _ => False
  | quote code => code.Inert
  | _ => True

/-- Whether a value contains no function, and no quoted code that is not inert. -/
def Inert (value : Value) : Prop :=
  ∀ part : Value, part.PartOf value → part.IsInertPart

/-- A value is inert by its parts. -/
theorem partWise_inert : PartWise Inert where
  atom := by
    intro value hatom part hpart
    cases value with
    | int | bool | null | str | builtin =>
        cases hpart
        trivial
    | array | hash | function | returned | error | quote | macroFn => exact hatom.elim
  array := by
    intro elements
    constructor
    · intro hinert element hmem part hpart
      exact hinert part (.element hmem hpart)
    · intro hinert part hpart
      cases hpart with
      | self => trivial
      | element hmem hpart => exact hinert _ hmem part hpart
  hash := by
    intro entries
    constructor
    · intro hinert entry hmem
      exact ⟨fun part hpart => hinert part (.key hmem hpart),
        fun part hpart => hinert part (.value hmem hpart)⟩
    · intro hinert part hpart
      cases hpart with
      | self => trivial
      | key hmem hpart => exact (hinert _ hmem).1 part hpart
      | value hmem hpart => exact (hinert _ hmem).2 part hpart

/-- A macro is inert, because it is never called. -/
theorem inert_macroFn (params : List String) (body : Block) (env : Env) :
    (macroFn params body env).Inert := by
  intro part hpart
  cases hpart
  trivial

/-- Inert code is an inert value. -/
theorem inert_quote {code : Expr} (hcode : code.Inert) : (quote code).Inert := by
  intro part hpart
  cases hpart
  exact hcode

/-- An inert value is reified as inert code. -/
theorem Inert.reify {value : Value} {code : Expr} (hinert : value.Inert)
    (hreify : value.reify = .ok code) : code.Inert := by
  cases value with
  | int value =>
      cases hreify
      exact .int ⟨id, nofun⟩
  | bool value =>
      cases hreify
      exact .bool ⟨id, nofun⟩
  | quote code =>
      cases hreify
      exact hinert _ .self
  | null | str | array | hash | function | builtin | returned | error | macroFn => cases hreify

end Value

/-- The scope of an environment lies in no other and binds inert values. -/
structure Store.Standalone (store : Store) (env : Env) : Prop where
  outer : (store.scope env.scope).outer = none
  inert : ∀ binding ∈ (store.scope env.scope).bindings, binding.2.Inert

namespace Store.Standalone

variable {store : Store} {env : Env}

/-- An environment just entered outside of all others binds nothing. -/
theorem enter (store : Store) :
    (store.enter none .empty).2.Standalone (store.enter none .empty).1 := by
  have hscope : (store.enter none .empty).2.scope store.scopes.size = .empty :=
    store.scope_enter_self none .empty
  refine ⟨congrArg Scope.outer hscope, fun binding hmem => ?_⟩
  have hbindings := congrArg Scope.bindings hscope
  rw [show (store.enter none .empty).1.scope = store.scopes.size from rfl, hbindings] at hmem
  cases hmem

/-- What a name is looked up as is inert. -/
theorem lookup? {name : String} {value : Value} (hown : store.Standalone env)
    (hlookup : store.lookup? env name = some value) : value.Inert := by
  rw [Store.lookup?, find?] at hlookup
  cases hget : (store.scope env.scope).get? name with
  | some bound =>
      rw [hget] at hlookup
      cases hlookup
      exact hown.inert _ (Scope.mem_bindings_of_get? hget)
  | none =>
      rw [hget, hown.outer] at hlookup
      cases hlookup

/-- An inert value may be bound. -/
theorem bind {value : Value} (hown : store.Standalone env) (name : String) (hvalue : value.Inert) :
    (store.bind env name value).Standalone env where
  outer := (store.outer_bind env name value env.scope).trans hown.outer
  inert binding hmem := by
    rcases Store.mem_bindings_bind hmem with rfl | hold
    · exact hvalue
    · exact hown.inert binding hold

end Store.Standalone

/-! ## Evaluations that end -/

variable {env : Env} {α β : Type} {good : α → Prop} {good' : β → Prop}

/-- Whether an outcome says how an evaluation ends: with a good result or by an interrupt. -/
def Outcome.Concludes (env : Env) (good : α → Prop) : Outcome α → Prop
  | .done value machine => good value ∧ machine.store.Standalone env
  | .stopped interrupt machine =>
      Invariant.Stops Value.Inert interrupt ∧ machine.store.Standalone env
  | .tooDeep => False

/-- Whether an evaluation ends from some depth on, with the same outcome at every greater depth. -/
def Halts (env : Env) (good : α → Prop) (action : Nat → Eval α) : Prop :=
  ∀ machine, machine.store.Standalone env → ∃ depth outcome, outcome.Concludes env good ∧
    ∀ depth', depth ≤ depth' → action depth' machine = outcome

/-- What does not depend on the depth ends if its outcome concludes it. -/
theorem halts_of_concludes {action : Eval α}
    (hconcludes : ∀ machine, machine.store.Standalone env → (action machine).Concludes env good) :
    Halts env good fun _ => action :=
  fun machine hown => ⟨0, action machine, hconcludes machine hown, fun _ _ => rfl⟩

/-- A good result. -/
theorem halts_pure {value : α} (hvalue : good value) : Halts env good fun _ => pure value :=
  halts_of_concludes fun _ hown => ⟨hvalue, hown⟩

/-- A fault. -/
theorem halts_fail (cause : Fault) : Halts env good fun _ => Eval.fail cause :=
  halts_of_concludes fun _ hown => ⟨trivial, hown⟩

/-- An operation with good results. -/
theorem halts_ofExcept {result : Except Fault α}
    (hresult : ∀ value, result = .ok value → good value) :
    Halts env good fun _ => Eval.ofExcept result := by
  cases result with
  | ok value => exact halts_pure (hresult value rfl)
  | error cause => exact halts_fail cause

/-- Evaluations in sequence end at the greater of the two depths. -/
theorem halts_bind {first : Nat → Eval α} {next : Nat → α → Eval β}
    (hfirst : Halts env good first)
    (hnext : ∀ value, good value → Halts env good' fun depth => next depth value) :
    Halts env good' fun depth => first depth >>= next depth := by
  intro machine hown
  obtain ⟨depth, outcome, hconcludes, hfirst⟩ := hfirst machine hown
  cases outcome with
  | tooDeep => exact hconcludes.elim
  | stopped interrupt machine' =>
      exact ⟨depth, .stopped interrupt machine', hconcludes, fun depth' hdepth =>
        Eval.bind_of_stopped (hfirst depth' hdepth) _⟩
  | done value machine' =>
      obtain ⟨hvalue, hown'⟩ := hconcludes
      obtain ⟨more, outcome, hconcludes, hnext⟩ := hnext value hvalue machine' hown'
      refine ⟨max depth more, outcome, hconcludes, fun depth' hdepth => ?_⟩
      obtain ⟨hdepth, hmore⟩ := Nat.max_le.mp hdepth
      exact (Eval.bind_of_done (hfirst depth' hdepth) _).trans (hnext depth' hmore)

/-- An evaluator ends on an expression if a step of it does. -/
theorem halts_eval_of_evalStep {expr : Expr}
    (hstep : Halts env Value.Inert fun depth => evalStep (eval depth) env expr) :
    Halts env Value.Inert fun depth => eval depth env expr := by
  intro machine hown
  obtain ⟨depth, outcome, hconcludes, hstep⟩ := hstep machine hown
  refine ⟨depth + 1, outcome, hconcludes, fun depth' hdepth => ?_⟩
  cases depth' with
  | zero => exact absurd hdepth (Nat.not_succ_le_zero depth)
  | succ depth' => exact hstep depth' (Nat.le_of_succ_le_succ hdepth)

/-! ## Statements and calls -/

variable {evaluate : Nat → Evaluator}

/-- A statement ends if its expression does. -/
theorem halts_evalStmt {statement : Stmt}
    (hvalue : Halts env Value.Inert fun depth => evaluate depth env statement.value) :
    Halts env (fun value? => ∀ value, value? = some value → value.Inert) fun depth =>
      evalStmt (evaluate depth) env statement := by
  cases statement with
  | expr expr =>
      refine halts_bind hvalue fun value hinert => halts_pure fun other hsome => ?_
      exact Option.some.inj hsome ▸ hinert
  | ret expr =>
      refine halts_bind hvalue fun value hinert => ?_
      exact halts_of_concludes fun _ hown => ⟨hinert, hown⟩
  | bind name expr =>
      refine halts_bind hvalue fun value hinert => ?_
      exact halts_of_concludes fun _ hown => ⟨nofun, hown.bind name hinert⟩

/-- Statements end if their expressions do. -/
theorem halts_evalStmts {statements : List Stmt} {last : Option Value}
    (hvalues : ∀ statement ∈ statements,
      Halts env Value.Inert fun depth => evaluate depth env statement.value)
    (hlast : ∀ value, last = some value → value.Inert) :
    Halts env (fun value? => ∀ value, value? = some value → value.Inert) fun depth =>
      evalStmts (evaluate depth) env last statements := by
  induction statements generalizing last with
  | nil => exact halts_pure hlast
  | cons statement statements ih =>
      obtain ⟨hfirst, hrest⟩ := List.forall_mem_cons.mp hvalues
      exact halts_bind (halts_evalStmt hfirst) fun value hvalue => ih hrest hvalue

/-- A block ends if its expressions do. -/
theorem halts_evalBlock {block : Block}
    (hvalues : ∀ statement ∈ block,
      Halts env Value.Inert fun depth => evaluate depth env statement.value) :
    Halts env Value.Inert fun depth => evalBlock (evaluate depth) env block :=
  halts_bind (halts_evalStmts hvalues nofun) fun _ hvalue =>
    halts_pure (Value.partWise_inert.getD hvalue)

/-- Expressions in order end if each of them does. -/
theorem halts_evalAll {exprs : List Expr}
    (hexprs : ∀ expr ∈ exprs, Halts env Value.Inert fun depth => evaluate depth env expr) :
    Halts env (fun values => ∀ value ∈ values, value.Inert) fun depth =>
      evalAll (evaluate depth) env exprs := by
  induction exprs with
  | nil => exact halts_pure fun _ hmem => nomatch hmem
  | cons expr exprs ih =>
      obtain ⟨hfirst, hrest⟩ := List.forall_mem_cons.mp hexprs
      refine halts_bind hfirst fun value hvalue => ?_
      refine halts_bind (ih hrest) fun values hvalues => ?_
      exact halts_pure (List.forall_mem_cons.mpr ⟨hvalue, hvalues⟩)

/-- Pairs in order end if their keys and values do. -/
theorem halts_evalPairs {pairs : List (Expr × Expr)} {entries : List (Entry Value)}
    (hkeys : ∀ pair ∈ pairs, Halts env Value.Inert fun depth => evaluate depth env pair.1)
    (hvalues : ∀ pair ∈ pairs, Halts env Value.Inert fun depth => evaluate depth env pair.2)
    (hentries : ∀ entry ∈ entries, entry.key.Inert ∧ entry.value.Inert) :
    Halts env (fun entries => ∀ entry ∈ entries, entry.key.Inert ∧ entry.value.Inert)
      fun depth => evalPairs (evaluate depth) env entries pairs := by
  induction pairs generalizing entries with
  | nil => exact halts_pure hentries
  | cons pair pairs ih =>
      obtain ⟨keyExpr, valueExpr⟩ := pair
      obtain ⟨hkey, hkeys⟩ := List.forall_mem_cons.mp hkeys
      obtain ⟨hvalue, hvalues⟩ := List.forall_mem_cons.mp hvalues
      refine halts_bind hkey fun key hkey => ?_
      refine halts_bind (halts_ofExcept fun hashKey _ => trivial) fun hashKey _ => ?_
      refine halts_bind hvalue fun value hvalue => ?_
      refine ih hkeys hvalues fun entry hmem => ?_
      rcases mem_insertEntry hmem with rfl | hold
      · exact ⟨hkey, hvalue⟩
      · exact hentries entry hold

/-- A call ends, because the callee is no function. -/
theorem halts_applyValue {callee : Value} {args : List Value} (hcallee : callee.Inert)
    (hargs : ∀ arg ∈ args, arg.Inert) :
    Halts env Value.Inert fun depth => applyValue (evaluate depth) callee args := by
  cases callee with
  | function params body outer => exact (hcallee _ .self).elim
  | builtin builtin =>
      refine halts_bind (halts_ofExcept fun answer happly =>
        Value.partWise_inert.builtin hargs happly) fun answer hanswer => ?_
      exact halts_of_concludes fun _ hown => ⟨hanswer, hown⟩
  | int | bool | null | str | array | hash | returned | error | quote | macroFn =>
      exact halts_fail _

/-- A name ends with what it is bound to. -/
theorem halts_evalName (name : String) : Halts env Value.Inert fun _ => evalName env name := by
  unfold evalName
  split
  · exact halts_pure (Value.partWise_inert.atom trivial)
  · refine halts_of_concludes fun machine hown => ?_
    show (Eval.ofExcept (machine.store.lookup env name) machine).Concludes env Value.Inert
    unfold Store.lookup
    cases hlookup : machine.store.lookup? env name with
    | none => exact ⟨trivial, hown⟩
    | some value => exact ⟨hown.lookup? hlookup, hown⟩

/-- A quotation ends if the walk over its code ends with inert code. -/
theorem halts_quoteArgs {args : List Expr}
    (hargs : ∀ arg ∈ args,
      Halts env Expr.Inert fun depth => arg.transformM (unquote (evaluate depth) env)) :
    Halts env Value.Inert fun depth => quoteArgs (evaluate depth) env args := by
  match args with
  | [] => exact halts_fail _
  | [arg] =>
      refine halts_bind (hargs arg (List.mem_singleton_self arg)) fun code hcode => ?_
      exact halts_pure (Value.inert_quote hcode)
  | _ :: _ :: _ => exact halts_fail _

/-! ## Expressions -/

/-- Let quotations of fine code end with inert code. Then the evaluation of fine code ends, if no
function literal is fine. -/
theorem halts_eval_of_quotations {fine : Expr → Prop}
    (hfine : ∀ expr, fine expr → ¬ expr.IsFunction)
    (hquote : ∀ code : Expr, code.Everywhere fine →
      Halts env Expr.Inert fun depth => code.transformM (unquote (eval depth) env))
    {expr : Expr} (hexpr : expr.Everywhere fine) :
    Halts env Value.Inert fun depth => eval depth env expr := by
  have hatom : ∀ {value : Value}, value.IsAtom → value.Inert := Value.partWise_inert.atom
  refine halts_eval_of_evalStep ?_
  -- The induction is on the tree and not on the depth, which is found along the way.
  induction hexpr with
  | ident => exact halts_evalName _
  | int | bool | str => exact halts_pure (hatom trivial)
  | unary _ _ ih =>
      refine halts_bind (halts_eval_of_evalStep ih) fun value _ => ?_
      exact halts_ofExcept fun result happly => hatom (UnaryOp.isAtom_of_apply happly)
  | binary _ _ _ ihleft ihright =>
      refine halts_bind (halts_eval_of_evalStep ihleft) fun left _ => ?_
      refine halts_bind (halts_eval_of_evalStep ihright) fun right _ => ?_
      exact halts_ofExcept fun result happly => hatom (BinaryOp.isAtom_of_apply happly)
  | cond _ _ _ _ ihcondition ihbody =>
      refine halts_bind (halts_eval_of_evalStep ihcondition) fun value _ => ?_
      split
      · exact halts_evalBlock fun statement hmem => halts_eval_of_evalStep (ihbody statement hmem)
      · exact halts_pure (hatom trivial)
  | condElse _ _ _ _ _ _ ihcondition ihbody ihelse =>
      refine halts_bind (halts_eval_of_evalStep ihcondition) fun value _ => ?_
      split
      · exact halts_evalBlock fun statement hmem => halts_eval_of_evalStep (ihbody statement hmem)
      · exact halts_evalBlock fun statement hmem => halts_eval_of_evalStep (ihelse statement hmem)
  | function hself => exact (hfine _ hself trivial).elim
  | macroLit => exact halts_pure (Value.inert_macroFn _ _ _)
  | @call callee args _ _ hargs ihcallee ihargs =>
      simp only [evalStep]
      split
      · -- The tree of quoted code is walked, and what is evaluated of it need not be a part of it.
        exact halts_quoteArgs fun arg hmem => hquote arg (hargs arg hmem)
      · refine halts_bind (halts_eval_of_evalStep ihcallee) fun function hfunction => ?_
        refine halts_bind (halts_evalAll fun arg hmem => halts_eval_of_evalStep (ihargs arg hmem))
          fun values hvalues => ?_
        exact halts_applyValue hfunction hvalues
  | array _ _ ihelements =>
      refine halts_bind (halts_evalAll fun element hmem =>
        halts_eval_of_evalStep (ihelements element hmem)) fun values hvalues => ?_
      exact halts_pure (Value.partWise_inert.array.mpr hvalues)
  | hash _ _ _ ihkeys ihvalues =>
      refine halts_bind (halts_evalPairs
        (fun pair hmem => halts_eval_of_evalStep (ihkeys pair hmem))
        (fun pair hmem => halts_eval_of_evalStep (ihvalues pair hmem))
        fun entry hmem => (List.not_mem_nil hmem).elim) fun entries hentries => ?_
      exact halts_pure (Value.partWise_inert.hash.mpr hentries)
  | index _ _ _ ihcollection ihposition =>
      refine halts_bind (halts_eval_of_evalStep ihcollection) fun collection hcollection => ?_
      refine halts_bind (halts_eval_of_evalStep ihposition) fun position _ => ?_
      exact halts_ofExcept fun result hindex => Value.partWise_inert.indexBy hcollection hindex

/-- The evaluation of inert code ends: quotation leaves it as it is. -/
theorem Expr.Inert.halts {expr : Expr} (hexpr : expr.Inert) (env : Env) :
    Halts env Value.Inert fun depth => eval depth env expr := by
  refine halts_eval_of_quotations (fun _ hfine => hfine.1) (fun code hcode => ?_) hexpr
  have hnodes := hcode.of_mem_nodes
  refine fun machine hown => ⟨0, .done code machine, ⟨hcode, hown⟩, fun depth _ => ?_⟩
  exact transformM_unchanged fun node hmem =>
    unquote_of_calledName?_ne (hnodes node hmem).2 (eval depth) env machine

/-- Evaluations that end, as a judgment of walks whatever they visit. -/
theorem walking_halts (env : Env) :
    Walking fun α (_ : List Expr) goal (action : ReaderT Nat Eval α) => Halts env goal action where
  pure _ _ _ hvalue := halts_pure hvalue
  bind _ _ _ _ _ _ _ _ hfirst hnext := halts_bind hfirst hnext

/-- A visit that is told the depth. -/
def atDepth (visit : Nat → Expr → Eval Expr) (node : Expr) : ReaderT Nat Eval Expr :=
  fun depth => visit depth node

/-- A walk that is told the depth is a walk at that depth. -/
theorem Expr.transformM_atDepth (visit : Nat → Expr → Eval Expr) (expr : Expr) (depth : Nat) :
    expr.transformM (atDepth visit) depth = expr.transformM (visit depth) := by
  have hparallel : Parallel fun α (action : ReaderT Nat Eval α) (action' : Eval α) =>
      action depth = action' := by
    refine ⟨fun _ _ => rfl, ?_⟩
    rintro α β first _ next next' rfl hnext
    exact congrArg (first depth >>= ·) (funext hnext)
  exact expr.transformM_related hparallel fun _ => rfl

/-- What is rebuilt is a function literal only if the original is. -/
theorem Expr.Rebuilt.isFunction {became : Expr → Expr → Prop} {original rebuilt : Expr}
    (hrebuilt : original.Rebuilt became rebuilt) (hfunction : rebuilt.IsFunction) :
    original.IsFunction := by
  cases hrebuilt with
  | function => trivial
  | ident | int | bool | str | unary | binary | cond | condElse | macroLit | call | array | hash
  | index => exact hfunction

/-- Quotation of an expression whose children were walked: the argument of a call of `unquote` is
inert by then. -/
theorem halts_unquote {original rebuilt : Expr} (horiginal : ¬ original.IsFunction)
    (hrebuilt : original.Rebuilt (fun _ code => code.Inert) rebuilt) :
    Halts env Expr.Inert fun depth => unquote (eval depth) env rebuilt := by
  have hnot : ¬ rebuilt.IsFunction := fun hfunction => horiginal (hrebuilt.isFunction hfunction)
  by_cases hcall : rebuilt.calledName? = some "unquote"
  · cases hrebuilt with
    | @call _ callee _ args _ hargs =>
        have hcallee : callee.name? = some "unquote" := hcall
        have hinert := forall_mem_of_forall₂ hargs fun _ _ harg => harg
        simp only [unquote, hcallee, if_true]
        match args with
        | [] => exact halts_fail _
        | [arg] =>
            -- The argument may be code from anywhere by now, but the first stage covers it.
            refine halts_bind ((hinert arg (List.mem_singleton_self arg)).halts env)
              fun value hvalue => ?_
            exact halts_ofExcept fun code hreify => hvalue.reify hreify
        | _ :: _ :: _ => exact halts_fail _
    | ident | int | bool | str | unary | binary | cond | condElse | function | macroLit | array
    | hash | index => cases hcall
  · refine fun machine hown => ⟨0, .done rebuilt machine, ⟨?_, hown⟩, fun depth _ => ?_⟩
    · exact hrebuilt.inside.everywhere ⟨hnot, hcall⟩
    · exact unquote_of_calledName?_ne hcall (eval depth) env machine

/-- The evaluation of code without function literals ends. -/
theorem Expr.FunctionFree.halts {expr : Expr} (hexpr : expr.FunctionFree) (env : Env) :
    Halts env Value.Inert fun depth => eval depth env expr := by
  refine halts_eval_of_quotations (fun _ hfine => hfine) (fun code hcode => ?_) hexpr
  have hnodes := hcode.of_mem_nodes
  have hsame : code.transformM (atDepth fun depth => unquote (eval depth) env) =
      fun depth => code.transformM (unquote (eval depth) env) :=
    funext (code.transformM_atDepth fun depth => unquote (eval depth) env)
  rw [← hsame]
  exact code.transformM_walks (walking_halts env) fun original hmem rebuilt hrebuilt =>
    halts_unquote (hnodes original hmem) hrebuilt

/-- A program without function literals, evaluated in a new and empty environment, ends from some
depth on, with the same result at every greater depth. -/
theorem evalProgram_ends {program : Program}
    (hprogram : ∀ statement ∈ program, statement.value.FunctionFree) (machine : Machine) :
    let (env, store) := machine.store.enter none .empty
    ∃ depth result final, ∀ depth', depth ≤ depth' →
      evalProgram depth' env program ⟨store, machine.printed⟩ = some (result, final) := by
  let env := (machine.store.enter none .empty).1
  let start : Machine := ⟨(machine.store.enter none .empty).2, machine.printed⟩
  show ∃ depth result final, ∀ depth', depth ≤ depth' →
    settle (evalStmts (eval depth') env none program start) = some (result, final)
  have hhalts : Halts env (fun value? => ∀ value, value? = some value → value.Inert) fun depth =>
      evalStmts (eval depth) env none program :=
    halts_evalStmts (fun statement hmem => (hprogram statement hmem).halts env) nofun
  obtain ⟨depth, outcome, hconcludes, hends⟩ := hhalts start (.enter machine.store)
  have hsettled : ∃ ended, settle outcome = some ended := by
    cases outcome with
    | tooDeep => exact hconcludes.elim
    | done value final => exact ⟨_, rfl⟩
    | stopped interrupt final => cases interrupt <;> exact ⟨_, rfl⟩
  obtain ⟨⟨result, final⟩, hsettle⟩ := hsettled
  refine ⟨depth, result, final, fun depth' hdepth => ?_⟩
  exact (congrArg settle (hends depth' hdepth)).trans hsettle

/-- The outer call of `unquote` evaluates code that is bound to a name, and quotes again. -/
theorem evalProgram_ends_unquoted_twice :
    let quoted : Expr := .call (.ident "quote") [.binary (.int 1) .add (.int 2)]
    let twice : Expr := .call (.ident "unquote") [.call (.ident "unquote") [.ident "q"]]
    let program : Program := [.bind "q" (.call (.ident "quote") [quoted]),
      .bind "m" (.macroLit ["x"] [.expr (.call (.ident "m") [.ident "x"])]),
      .expr (.call (.ident "quote") [twice])]
    (∀ statement ∈ program, statement.value.FunctionFree) ∧
    ∃ depth result final, ∀ depth', depth ≤ depth' →
      evalProgram depth' ⟨0⟩ program ⟨⟨#[.empty]⟩, []⟩ = some (result, final) := by
  intro quoted twice program
  have hcall : ∀ {name : String} {arg : Expr}, arg.FunctionFree →
      (Expr.call (.ident name) [arg]).FunctionFree :=
    fun harg => .call id (.ident id) (List.forall_mem_singleton.mpr harg)
  have hprogram : ∀ statement ∈ program, statement.value.FunctionFree := by
    refine List.forall_mem_cons.mpr ⟨hcall (hcall (.binary id (.int id) (.int id))), ?_⟩
    refine List.forall_mem_cons.mpr ⟨.macroLit id trivial ?_, ?_⟩
    · exact List.forall_mem_singleton.mpr (hcall (.ident id))
    · exact List.forall_mem_singleton.mpr (hcall (hcall (hcall (.ident id))))
  exact ⟨hprogram, evalProgram_ends hprogram ⟨.empty, []⟩⟩

end MonkeyLang
