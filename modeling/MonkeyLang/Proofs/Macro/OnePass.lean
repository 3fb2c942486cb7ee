import MonkeyLang.Proofs.Eval.Pairing
import MonkeyLang.Proofs.Macro.Substitution

/-!
# One pass of expansion is enough

What a macro makes of its arguments is not walked again. If the macros make no calls of macros, then
a program is free of such calls after one pass, because arguments are expanded before the call they
stand in and a callee before it is called: read `expandMacros_one_pass`. A program without calls of
macros is left alone.
-/

namespace MonkeyLang

/-- Whether an expression calls a name that the environment binds to a macro. -/
def Store.IsMacroCall (store : Store) (macros : Env) (expr : Expr) : Prop :=
  ∃ name args params body env, expr = .call (.ident name) args ∧
    store.lookup? macros name = some (.macroFn params body env)

/-- Whether no expression in a tree calls a macro. -/
def Expr.MacroFree (expr : Expr) (store : Store) (macros : Env) : Prop :=
  expr.Everywhere fun inner => ¬ store.IsMacroCall macros inner

/-- Whether no expression in a program calls a macro. -/
def MacroFreeProgram (program : Program) (store : Store) (macros : Env) : Prop :=
  ∀ statement ∈ program, statement.value.MacroFree store macros

/-- Whether every macro, applied to arguments in which no macro is called, fails or makes code in
which no macro is called. -/
def Machine.MacrosMakeNoCalls (machine : Machine) (macros : Env) : Prop :=
  ∀ name params body env, machine.store.lookup? macros name = some (.macroFn params body env) →
    ∀ args : List Expr, (∀ arg ∈ args, arg.MacroFree machine.store macros) →
    ∀ depth code final,
      expandCall (eval depth) name params body env args machine = .done code final →
      code.MacroFree machine.store macros

variable {machine machine' : Machine} {macros : Env} {depth : Nat}

/-! ## Programs without calls of macros -/

/-- Expansion leaves an expression alone that calls no macro, whatever the evaluator. -/
theorem expandMacro_of_not_isMacroCall {expr : Expr} (evaluate : Evaluator)
    (hexpr : ¬ machine.store.IsMacroCall macros expr) :
    expandMacro evaluate macros expr machine = .done expr machine := by
  unfold expandMacro
  split
  · next name args =>
      have hlookup : Eval.lookup? macros name machine =
          .done (machine.store.lookup? macros name) machine := rfl
      refine (Eval.bind_of_done hlookup _).trans ?_
      cases hfound : machine.store.lookup? macros name with
      | none => rfl
      | some value =>
          cases value with
          | macroFn params body env =>
              exact absurd ⟨name, args, params, body, env, rfl, hfound⟩ hexpr
          | int | bool | null | str | array | hash | function | builtin | returned | error
          | quote => rfl
  · rfl

/-- Expansion replaces a call of a macro by what the macro makes of the arguments. -/
theorem expandMacro_of_lookup? {name : String} {params : List String} {body : Block} {env : Env}
    (evaluate : Evaluator) (args : List Expr)
    (hfound : machine.store.lookup? macros name = some (.macroFn params body env)) :
    expandMacro evaluate macros (.call (.ident name) args) machine =
      expandCall evaluate name params body env args machine := by
  have hlookup : Eval.lookup? macros name machine =
      .done (some (.macroFn params body env)) machine := congrArg (Outcome.done · machine) hfound
  exact Eval.bind_of_done hlookup _

/-- Expansion leaves a program alone in which no macro is called, whatever the evaluator. -/
theorem transformProgramM_of_macroFree {program : Program} (evaluate : Evaluator)
    (hprogram : MacroFreeProgram program machine.store macros) :
    transformProgramM (expandMacro evaluate macros) program machine = .done program machine := by
  refine transformProgramM_unchanged fun node hmem => ?_
  rw [stmtsNodes_eq_flatMap] at hmem
  obtain ⟨statement, hstatement, hnode⟩ := List.mem_flatMap.mp hmem
  have hfree := (hprogram statement hstatement).of_mem_nodes node hnode
  exact expandMacro_of_not_isMacroCall evaluate hfree

/-! ## One pass -/

/-- The calls of macros are the same where names are looked up alike. -/
theorem Store.IsMacroCall.of_lookup? {store store' : Store} {expr : Expr}
    (hcall : store.IsMacroCall macros expr)
    (hlookup : ∀ name, store'.lookup? macros name = store.lookup? macros name) :
    store'.IsMacroCall macros expr := by
  obtain ⟨name, args, params, body, env, rfl, hfound⟩ := hcall
  exact ⟨name, args, params, body, env, rfl, (hlookup name).trans hfound⟩

/-- Let no macro be called in the children of an expression, after they were expanded. Then none is
called in what the expression is expanded to, in every store that the expansion so far led to. -/
theorem macroFree_of_expandMacro {later final : Machine} {original expr code : Expr}
    (hclosed : machine.store.Closed) (hmacros : macros.scope < machine.store.scopes.size)
    (hmake : machine.MacrosMakeNoCalls macros)
    (hwrites : machine.store.WritesOnly none later.store)
    (hrebuilt : original.Rebuilt (fun _ child => child.MacroFree machine.store macros) expr)
    (hdone : expandMacro (eval depth) macros expr later = .done code final) :
    code.MacroFree machine.store macros := by
  have hlookup := hwrites.lookup?_eq hmacros
  by_cases hcall : later.store.IsMacroCall macros expr
  · obtain ⟨name, args, params, body, env, rfl, hlater⟩ := hcall
    have hfound := (hlookup name).symm.trans hlater
    rw [expandMacro_of_lookup? _ args hlater] at hdone
    have henv : env.scope < machine.store.scopes.size := by
      obtain ⟨holder, hmem⟩ := Store.exists_mem_of_find? hfound
      exact Value.capturesOnly_macroFn.mp (hclosed.value_within hmem)
    -- The macro makes the same of the arguments where the expansion started.
    obtain ⟨final', hbefore⟩ := expandCall_of_later hclosed hwrites henv hdone
    have hargs : ∀ arg ∈ args, arg.MacroFree machine.store macros := by
      cases hrebuilt with
      | call _ hargs => exact forall_mem_of_forall₂ hargs fun _ _ harg => harg
    exact hmake name params body env hfound args hargs depth code final' hbefore
  · rw [expandMacro_of_not_isMacroCall _ hcall] at hdone
    cases hdone
    refine hrebuilt.inside.everywhere fun hbefore => hcall ?_
    exact hbefore.of_lookup? hlookup

/-- Expansion results in code in which no macro is called, and writes to no scope that was there. -/
theorem resultsFrom_expandMacros (hclosed : machine.store.Closed)
    (hmacros : macros.scope < machine.store.scopes.size) (hmake : machine.MacrosMakeNoCalls macros)
    (depth : Nat) (program : Program) :
    (frame machine.store none).ResultsFrom () Invariant.noReturn
      (RebuiltStmts (fun _ expr => expr.MacroFree machine.store macros) program)
      (expandMacros depth macros program) := by
  have hlawful := lawful_frame machine.store none
  have hbuild := Invariant.building_resultsFrom hlawful () Invariant.noReturn
  refine transformStmtsM_walks hbuild.walking program fun original _ expr hrebuilt => ?_
  intro _ _ later hwrites
  have hruns : (frame machine.store none).Runs () Invariant.anyResult Invariant.noReturn
      (expandMacro (eval depth) macros expr) :=
    Invariant.runs_expandMacro hlawful (fun _ _ => trivial)
      (evaluates_frame machine.store none depth) (fun _ _ _ _ _ _ _ => trivial) expr
  have hends := hruns later hwrites
  cases hout : expandMacro (eval depth) macros expr later with
  | tooDeep => trivial
  | stopped interrupt final =>
      rw [hout] at hends
      exact hends
  | done code final =>
      rw [hout] at hends
      obtain ⟨world, hgrows, _, hwrites'⟩ := hends
      refine ⟨world, hgrows, ?_, hwrites'⟩
      exact macroFree_of_expandMacro hclosed hmacros hmake hwrites hrebuilt hout

/-- A template that makes code at all, whatever the depth, makes its filled code. -/
theorem eq_result_of_expandCall {final : Machine} {name : String} {env : Env} {code : Expr}
    {call : TemplateCall} (hwellFormed : call.template.WellFormed)
    (hdone : expandCall (eval depth) name call.template.params
      [.expr (.call (.ident "quote") [call.template.code])] env call.args machine =
        .done code final) :
    call.template.params.length = call.args.length ∧ code = call.result := by
  by_cases hfits : call.template.params.length = call.args.length
  · obtain ⟨scope, hcall⟩ := expandCall_of_fits hwellFormed hfits depth name env machine
    have hdeeper := expandCall_of_depth_le (Nat.le_add_right depth 2) (hdone.trans_ne nofun)
    cases hcall.symm.trans (hdeeper.trans hdone)
    exact ⟨hfits, rfl⟩
  · cases (expandCall_of_not_fits hfits _ name _ env machine).symm.trans hdone

/-- Let the handles of a store be of scopes in use, and let its macros make no calls of macros. If
a program is expanded, then no macro is called in the result, and expanding that again changes
nothing: no scope is entered and nothing is printed. So it is with every program in which no macro
is called, and no evaluator is asked for anything. -/
theorem expandMacros_one_pass {program expanded : Program} (hclosed : machine.store.Closed)
    (hmacros : macros.scope < machine.store.scopes.size) (hmake : machine.MacrosMakeNoCalls macros)
    (hexpand : expandMacros depth macros program machine = .done expanded machine') :
    (∀ name, machine'.store.lookup? macros name = machine.store.lookup? macros name) ∧
    MacroFreeProgram expanded machine'.store macros ∧
    (∀ depth', expandMacros depth' macros expanded machine' = .done expanded machine') ∧
    ∀ evaluate other start, MacroFreeProgram other start.store macros →
      transformProgramM (expandMacro evaluate macros) other start = .done other start := by
  have hends := resultsFrom_expandMacros hclosed hmacros hmake depth program () trivial machine
    (Store.WritesOnly.refl machine.store none)
  rw [hexpand] at hends
  obtain ⟨_, _, hrebuilt, hwrites⟩ := hends
  have hlookup := Store.WritesOnly.lookup?_eq hwrites hmacros
  have hfree : MacroFreeProgram expanded machine'.store macros := by
    intro statement hmem
    refine (hrebuilt.everywhere statement hmem).mono (fun inner hinner hcall => hinner ?_)
      fun _ hblock => hblock
    exact hcall.of_lookup? fun name => (hlookup name).symm
  refine ⟨hlookup, hfree, fun depth' => ?_, fun evaluate other start hother => ?_⟩
  · exact transformProgramM_of_macroFree (eval depth') hfree
  · exact transformProgramM_of_macroFree evaluate hother

/-- The macro `pick` makes the name of the macro `same`, which makes its argument. A call of a call
of `pick` is a call of `same` by the time that it is visited. -/
theorem expandMacros_one_pass_callee :
    let pick : Template := ⟨[], .ident "same"⟩
    let same : Template := ⟨["x"], .call (.ident "unquote") [.ident "x"]⟩
    let machine : Machine :=
      ⟨⟨#[⟨none, [("pick", pick.toMacro ⟨0⟩), ("same", same.toMacro ⟨0⟩)]⟩]⟩, []⟩
    let callee : Expr := .call (.ident "pick") []
    let program : Program := [.expr (.call callee [.call callee [.int 7]])]
    machine.store.Closed ∧ machine.MacrosMakeNoCalls ⟨0⟩ ∧
    ∃ machine', expandMacros 2 ⟨0⟩ program machine = .done [.expr (.int 7)] machine' ∧
      MacroFreeProgram [.expr (.int 7)] machine'.store ⟨0⟩ ∧
      ∀ depth, expandMacros depth ⟨0⟩ [.expr (.int 7)] machine' =
        .done [.expr (.int 7)] machine' := by
  intro pick same machine callee program
  let templates : String → Option Template := fun name =>
    if name = "pick" then some pick else if name = "same" then some same else none
  have hpick : pick.WellFormed := ⟨by decide, by decide, .ident trivial⟩
  have hsame : same.WellFormed := by
    refine ⟨by decide, by decide, .call ⟨nofun, fun _ => ⟨"x", by decide, rfl⟩⟩ (.ident trivial) ?_⟩
    exact List.forall_mem_singleton.mpr (.ident trivial)
  have hclosed : machine.store.Closed := by
    have hscope : ∀ id, id = 0 ∨ machine.store.scope id = .empty := by
      intro id
      rcases Nat.eq_zero_or_pos id with hzero | hpos
      · exact Or.inl hzero
      · exact Or.inr (Store.scope_of_size_le hpos)
    refine ⟨fun {id outer} houter => ?_, fun {id binding} hmem => ?_⟩
    · rcases hscope id with rfl | hempty
      · cases houter
      · rw [hempty] at houter
        cases houter
    · rcases hscope id with rfl | hempty
      · rcases List.mem_pair.mp hmem with rfl | rfl
        · exact Value.capturesOnly_macroFn.mpr (by decide)
        · exact Value.capturesOnly_macroFn.mpr (by decide)
      · rw [hempty] at hmem
        cases hmem
  have hbinds : machine.store.BindsTemplates ⟨0⟩ templates := by
    intro name
    rw [Store.lookup?, Store.find?]
    by_cases hisPick : name = "pick"
    · subst hisPick
      exact Or.inr ⟨pick, ⟨0⟩, rfl, hpick, rfl⟩
    · by_cases hisSame : name = "same"
      · subst hisSame
        exact Or.inr ⟨same, ⟨0⟩, rfl, hsame, rfl⟩
      · have hget : (machine.store.scope 0).get? name = none := by
          show [("pick", pick.toMacro ⟨0⟩), ("same", same.toMacro ⟨0⟩)].lookup name = none
          rw [List.lookup_cons, beq_false_of_ne hisPick, List.lookup_cons, beq_false_of_ne hisSame]
          rfl
        rw [hget]
        exact Or.inl ⟨rfl, (if_neg hisPick).trans (if_neg hisSame)⟩
  have hmake : machine.MacrosMakeNoCalls ⟨0⟩ := by
    intro name params body env hfound args hargs depth code final hdone
    obtain ⟨hnone, _⟩ | ⟨template, env', htemplate, hwellFormed, hlookup⟩ := hbinds name
    · cases hnone.symm.trans hfound
    · cases hlookup.symm.trans hfound
      obtain ⟨hfits, rfl⟩ := @eq_result_of_expandCall _ _ _ _ _ _ ⟨template, args⟩ hwellFormed hdone
      simp only [templates] at htemplate
      split at htemplate
      · cases htemplate
        refine .ident ?_
        rintro ⟨_, _, _, _, _, hcall, _⟩
        cases hcall
      · split at htemplate
        · cases htemplate
          obtain ⟨arg, rfl⟩ := List.length_eq_one_iff.mp hfits.symm
          exact hargs arg (List.mem_singleton_self arg)
        · cases htemplate
  have hfollows : Follows machine ⟨0⟩ (expandMacros 2 ⟨0⟩ program)
      (transformProgramM (rewriteNode templates) program) :=
    transformProgramM_related (parallel_follows machine ⟨0⟩) (follows_expandMacro hbinds 0) program
  obtain ⟨machine', _, hexpand⟩ := hfollows machine (.refl machine ⟨0⟩)
  have hdone : expandMacros 2 ⟨0⟩ program machine = .done [.expr (.int 7)] machine' := hexpand
  obtain ⟨_, hfree, hagain, _⟩ := expandMacros_one_pass hclosed (by decide) hmake hdone
  exact ⟨hclosed, hmake, machine', hdone, hfree, hagain⟩

end MonkeyLang
