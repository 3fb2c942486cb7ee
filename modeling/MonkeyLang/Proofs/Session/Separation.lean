import Mathlib
import MonkeyLang.Proofs.Eval.Frame
import MonkeyLang.Proofs.Scope.Sides
import MonkeyLang.Proofs.Session.Basic

/-!
# Values and macros live apart

A session keeps values and macros in scopes of their own, and nothing that is in reach of the one is
in reach of the other. Each stage of taking a unit writes to one root scope at most: the definition
of macros to that of macros, their expansion to none, and evaluation to that of values. Read
`session_separate` first.
-/

namespace MonkeyLang

/-! ## Code runs on one side -/

/-- The invariant of code on a side: it meets handles of that side alone, and the store stays
divided. -/
def oneSided (side : Side) : Invariant where
  World := List Side
  grows sides sides' := sides <+: sides'
  env sides env := env.On sides side
  closure sides env := env.On sides side
  value sides value := value.On sides side
  store sides store := store.Divided sides

/-- New scopes join the side of the code that enters them. -/
theorem lawful_oneSided (side : Side) : (oneSided side).Lawful where
  grows_refl _ := List.prefix_rfl
  grows_trans hfirst hsecond := List.IsPrefix.trans hfirst hsecond
  env_mono hgrows henv := Env.On.mono henv hgrows
  value_mono hgrows hvalue := Value.CapturesOnly.mono hvalue fun _ hon => hon.mono hgrows
  closure_of_env henv := henv
  value_atom hatom := hatom.capturesOnly
  value_array := Value.capturesOnly_array
  value_hash := Value.capturesOnly_hash
  value_function := Value.capturesOnly_function
  value_macroFn := Value.capturesOnly_macroFn
  value_lookup hdivided henv hlookup := Store.Divided.find? hdivided henv hlookup
  store_bind name hdivided henv hvalue := Store.Divided.bind hdivided henv name hvalue
  store_enter := by
    intro sides store outer params args scope hdivided houter hargs hscope
    have hbindings : ∀ binding ∈ scope.bindings, binding.2.On sides side := by
      intro binding hmem
      exact hargs binding.2 (Scope.mem_of_mem_bindings_ofArgs hscope hmem)
    have houter' : ∀ env ∈ some outer, env.On sides side := by
      intro env hmem
      cases hmem
      exact houter
    have hnew : (store.enter (some outer) scope).1.On (List.append sides [side]) side := by
      have hlength : List.length sides = store.scopes.size := Store.Divided.length_eq hdivided
      show (List.append sides [side])[store.scopes.size]? = some side
      rw [← hlength]
      exact List.getElem?_concat_length
    exact ⟨List.append sides [side], List.prefix_append sides [side], hnew,
      Store.Divided.enter hdivided houter' hbindings⟩

/-- An evaluation on one side leaves the store divided. -/
theorem divided_of_runs {α : Type} {side : Side} {sides : List Side}
    {good : List Side → α → Prop} {returned : List Side → Value → Prop} {action : Eval α}
    {machine machine' : Machine} (hruns : (oneSided side).Runs sides good returned action)
    (hdivided : machine.store.Divided sides) (hend : (action machine).machine? = some machine') :
    ∃ sides', sides <+: sides' ∧ machine'.store.Divided sides' := by
  have hends := hruns machine hdivided
  cases hout : action machine with
  | tooDeep =>
      rw [hout] at hend
      cases hend
  | done value final | stopped interrupt final =>
      rw [hout] at hend hends
      cases hend
      obtain ⟨sides', hgrows, _, hdivided'⟩ := hends
      exact ⟨sides', hgrows, hdivided'⟩

/-- Macros are expanded on the side of their environment, and no `return` leaves the expansion. -/
theorem runs_expandMacros_oneSided (depth : Nat) {side : Side} {sides : List Side} {macros : Env}
    (hmacros : macros.On sides side) (program : Program) :
    (oneSided side).Runs sides Invariant.anyResult Invariant.noReturn
      (expandMacros depth macros program) :=
  Invariant.runs_expandMacros (lawful_oneSided side)
    (fun _ => Value.capturesOnly_quote) depth hmacros program

/-- Statements are evaluated on the side of their environment. -/
theorem runs_evalStmts_oneSided (depth : Nat) {side : Side} {sides : List Side} {env : Env}
    (henv : env.On sides side) (program : Program) :
    (oneSided side).Runs sides (oneSided side).optional (oneSided side).value
      (evalStmts (eval depth) env none program) := by
  have hlawful := lawful_oneSided side
  have hquotes := Invariant.quotes_of_value_quote hlawful fun _ => Value.capturesOnly_quote
  exact Invariant.runs_evalStmts hlawful (Invariant.evaluates_eval hlawful hquotes depth) program
    henv Invariant.optional_none

/-! ## What each stage writes -/

/-- The expansion of macros writes to no scope that was there before. -/
theorem expandMacros_writesOnly {depth : Nat} {macros : Env} {program : Program}
    {machine machine' : Machine}
    (hend : (expandMacros depth macros program machine).machine? = some machine') :
    machine.store.WritesOnly none machine'.store := by
  have hruns : (frame machine.store none).Runs () Invariant.anyResult Invariant.noReturn
      (expandMacros depth macros program) :=
    Invariant.runs_expandMacros_of_reads (lawful_frame machine.store none) (fun _ _ => trivial)
      depth (fun _ _ _ _ _ _ _ => trivial) program
  exact writesOnly_of_runs hruns hend

/-- A program writes to the scope of its environment alone. -/
theorem evalProgram_writesOnly {depth : Nat} {env : Env} {program : Program}
    {machine machine' : Machine} {result : Option Value}
    (hend : evalProgram depth env program machine = some (result, machine')) :
    machine.store.WritesOnly (some env.scope) machine'.store := by
  have hruns : (frame machine.store (some env.scope)).Runs ()
      (frame machine.store (some env.scope)).optional (frame machine.store (some env.scope)).value
      (evalStmts (eval depth) env none program) :=
    Invariant.runs_evalStmts (lawful_frame _ _) (evaluates_frame _ _ depth) program
      (Or.inl rfl) Invariant.optional_none
  exact writesOnly_of_runs hruns (machine?_of_settle hend)

/-- The last definition of a name. -/
def lastDefinition? (name : String) (definitions : List MacroDefinition) :
    Option MacroDefinition :=
  definitions.reverse.find? (·.name = name)

/-- The last definition of a name is the first one if no later one has the name. -/
theorem lastDefinition?_cons (name : String) (definition : MacroDefinition)
    (definitions : List MacroDefinition) :
    lastDefinition? name (definition :: definitions) =
      (lastDefinition? name definitions).or
        (if definition.name = name then some definition else none) := by
  unfold lastDefinition?
  rw [List.reverse_cons, List.find?_append, List.find?_singleton]
  simp

/-- Only the scope of `macros` differs, and it binds each defined name to the macro of its last
definition, and every other name as before. -/
structure Store.Defines (before : Store) (macros : Env) (definitions : List MacroDefinition)
    (after : Store) : Prop where
  size_eq : after.scopes.size = before.scopes.size
  scope_eq : ∀ id, id ≠ macros.scope → after.scope id = before.scope id
  outer_eq : (after.scope macros.scope).outer = (before.scope macros.scope).outer
  get?_eq : ∀ name, (after.scope macros.scope).get? name =
    match lastDefinition? name definitions with
    | some definition => some (.macroFn definition.params definition.body macros)
    | none => (before.scope macros.scope).get? name

/-- Defining macros binds their last definitions and nothing else. -/
theorem Store.defines_defineMacros {store : Store} {macros : Env}
    (definitions : List MacroDefinition) (hmacros : macros.scope < store.scopes.size) :
    store.Defines macros definitions (store.defineMacros macros definitions) := by
  induction definitions generalizing store with
  | nil =>
      exact ⟨rfl, fun _ _ => rfl, rfl, fun _ => rfl⟩
  | cons definition definitions ih =>
      -- The first definition is bound in the root scope, and the others on top of it.
      let value : Value := .macroFn definition.params definition.body macros
      have hself : (store.bind macros definition.name value).scope macros.scope =
          (store.scope macros.scope).bind definition.name value :=
        scope_bind_self definition.name value hmacros
      have hsize := store.size_bind macros definition.name value
      have hrest := ih (hsize.symm ▸ hmacros)
      constructor
      · exact hrest.size_eq.trans hsize
      · intro id hid
        exact (hrest.scope_eq id hid).trans (scope_bind_of_ne _ _ hid)
      · refine hrest.outer_eq.trans ?_
        rw [hself]
        rfl
      · intro name
        refine (hrest.get?_eq name).trans ?_
        rw [lastDefinition?_cons, hself]
        cases lastDefinition? name definitions with
        | some later => rfl
        | none =>
            by_cases hname : definition.name = name
            · subst hname
              rw [if_pos rfl]
              exact Scope.get?_bind_self definition.name value (store.scope macros.scope)
            · rw [if_neg hname]
              exact Scope.get?_bind_of_ne (Ne.symm hname) value (store.scope macros.scope)

/-- Macros are defined on their own side. -/
theorem Store.Divided.defineMacros {store : Store} {sides : List Side} {side : Side} {macros : Env}
    (hdivided : store.Divided sides) (hmacros : macros.On sides side)
    (definitions : List MacroDefinition) :
    (store.defineMacros macros definitions).Divided sides := by
  induction definitions generalizing store with
  | nil => exact hdivided
  | cons definition definitions ih =>
      exact ih (hdivided.bind hmacros definition.name (Value.capturesOnly_macroFn.mpr hmacros))

/-- Where all bindings are macros of an environment, they still are when macros are defined. -/
theorem Store.macros_of_mem_defineMacros {store : Store} {macros : Env} {id : ScopeId}
    (definitions : List MacroDefinition)
    (hstore : ∀ binding ∈ (store.scope id).bindings,
      ∃ params body, binding.2 = .macroFn params body macros) :
    ∀ binding ∈ ((store.defineMacros macros definitions).scope id).bindings,
      ∃ params body, binding.2 = .macroFn params body macros := by
  induction definitions generalizing store with
  | nil => exact hstore
  | cons definition definitions ih =>
      refine ih fun binding hmem => ?_
      rcases mem_bindings_bind hmem with rfl | hold
      · exact ⟨definition.params, definition.body, rfl⟩
      · exact hstore binding hold

/-! ## Sessions -/

namespace Session

/-- Whether a binding of the root scope of macros is a macro that remembers that scope. -/
def BindsMacro (session : Session) (binding : String × Value) : Prop :=
  ∃ params body, binding.2 = .macroFn params body session.macros

/-- The scopes are divided with the two roots on different sides, and the root of macros binds
macros alone. -/
structure Separated (session : Session) (sides : List Side) : Prop where
  divided : session.store.Divided sides
  values_on : session.values.On sides .values
  macros_on : session.macros.On sides .macros
  bindsMacro : ∀ binding ∈ (session.store.scope session.macros.scope).bindings,
    session.BindsMacro binding

/-- The scopes after the macros of a program were defined. -/
def defined (session : Session) (program : Program) : Store :=
  session.store.defineMacros session.macros (macroDefinitions program)

/-- Everything that taking a unit can come to, and what each stage writes: the text is rejected, or
its macros are defined and the expansion fails, or what was expanded is evaluated. -/
inductive Stages (session : Session) (depth : Nat) (source : String) : Answer → Prop where
  | rejected {errors : List ParseError} :
      parse source = .error errors →
      Stages session depth source ⟨.rejected errors, [], session⟩
  | unexpanded {program : Program} {cause : Fault} {machine : Machine} :
      parse source = .ok program →
      session.store.Defines session.macros (macroDefinitions program) (session.defined program) →
      expandMacros depth session.macros (withoutDefinitions program)
        ⟨session.defined program, []⟩ = .stopped (.fault cause) machine →
      (session.defined program).WritesOnly none machine.store →
      (∀ id, session.store.Reaches session.values.scope id →
        machine.store.scope id = session.store.scope id) →
      Stages session depth source
        ⟨.value (.error cause.message), machine.printed, { session with store := machine.store }⟩
  | evaluated {program expanded : Program} {machine final : Machine} {result : Option Value} :
      parse source = .ok program →
      session.store.Defines session.macros (macroDefinitions program) (session.defined program) →
      expandMacros depth session.macros (withoutDefinitions program)
        ⟨session.defined program, []⟩ = .done expanded machine →
      (session.defined program).WritesOnly none machine.store →
      evalProgram depth session.values expanded machine = some (result, final) →
      machine.store.WritesOnly (some session.values.scope) final.store →
      Stages session depth source
        ⟨.ofResult result, final.printed, { session with store := final.store }⟩

variable {session : Session} {sides : List Side} {depth : Nat} {source : String} {answer : Answer}

namespace Separated

/-- The two roots are different scopes. -/
theorem values_ne_macros (hseparated : session.Separated sides) :
    session.macros.scope ≠ session.values.scope := by
  intro heq
  have hsides := hseparated.macros_on
  unfold Env.On at hsides
  rw [heq, hseparated.values_on] at hsides
  cases hsides

/-- The root of macros is in use. -/
theorem macros_lt_size (hseparated : session.Separated sides) :
    session.macros.scope < session.store.scopes.size :=
  hseparated.divided.lt_size hseparated.macros_on

/-- The scopes in reach of the values are in use and are not the root of macros. -/
theorem of_reaches_values (hseparated : session.Separated sides) {id : ScopeId}
    (hreach : session.store.Reaches session.values.scope id) :
    id < session.store.scopes.size ∧ id ≠ session.macros.scope := by
  have hside := hseparated.divided.reaches hseparated.values_on hreach
  refine ⟨hseparated.divided.lt_size hside, ?_⟩
  intro heq
  subst heq
  exact hseparated.divided.not_reaches hseparated.values_on hseparated.macros_on
    (by decide) hreach .self

/-- A session with other scopes is separated if they are divided too and the root of macros binds
macros alone. -/
theorem withStore {sides' : List Side} {store : Store} (hseparated : session.Separated sides)
    (hgrows : sides <+: sides') (hdivided : store.Divided sides')
    (hbinds : ∀ binding ∈ (store.scope session.macros.scope).bindings,
      session.BindsMacro binding) :
    ({ session with store := store } : Session).Separated sides' where
  divided := hdivided
  values_on := hseparated.values_on.mono hgrows
  macros_on := hseparated.macros_on.mono hgrows
  bindsMacro := hbinds

/-- Taking a unit goes through the stages and leaves the session separated. -/
theorem run (hseparated : session.Separated sides)
    (hrun : session.run depth source = some answer) :
    session.Stages depth source answer ∧ ∃ sides', answer.session.Separated sides' := by
  obtain ⟨errors, hparse, rfl⟩ | ⟨program, result, final, hparse, hunit, rfl⟩ := run_eq_some hrun
  · exact ⟨.rejected hparse, sides, hseparated⟩
  have hmacros := hseparated.macros_on
  have hlt := hseparated.macros_lt_size
  -- First stage: the macros are defined.
  change session.evalUnit depth (withoutDefinitions program) ⟨session.defined program, []⟩ = _
    at hunit
  have hdefines : session.store.Defines session.macros (macroDefinitions program)
      (session.defined program) := Store.defines_defineMacros _ hlt
  have hdivided : (session.defined program).Divided sides :=
    hseparated.divided.defineMacros hmacros _
  have hbinds : ∀ binding ∈ ((session.defined program).scope session.macros.scope).bindings,
      session.BindsMacro binding :=
    Store.macros_of_mem_defineMacros _ hseparated.bindsMacro
  -- Second stage: the macros are expanded, and the scopes that were there stay.
  have hexpandRuns := runs_expandMacros_oneSided depth hmacros (withoutDefinitions program)
  have hexpanded : ∀ {machine : Machine},
      (expandMacros depth session.macros (withoutDefinitions program)
        ⟨session.defined program, []⟩).machine? = some machine →
      (session.defined program).WritesOnly none machine.store ∧
        machine.store.scope session.macros.scope =
          (session.defined program).scope session.macros.scope ∧
        ∃ sides', sides <+: sides' ∧ machine.store.Divided sides' := by
    intro machine hend
    have hwrites := expandMacros_writesOnly hend
    refine ⟨hwrites, ?_, divided_of_runs hexpandRuns hdivided hend⟩
    exact hwrites.scope_eq _ (hdefines.size_eq.symm ▸ hlt) nofun
  obtain ⟨expanded, machine, hdone, hprogram⟩ | ⟨interrupt, hstopped, rfl⟩ :=
    evalUnit_eq_some hunit
  · -- Third stage: the program is evaluated.
    obtain ⟨hwrites, hroot, sides₁, hgrows, hdivided₁⟩ :=
      hexpanded (congrArg Outcome.machine? hdone)
    have hwrites' := evalProgram_writesOnly hprogram
    refine ⟨.evaluated hparse hdefines hdone hwrites hprogram hwrites', ?_⟩
    obtain ⟨sides₂, hgrows', hdivided₂⟩ := divided_of_runs
      (runs_evalStmts_oneSided depth (hseparated.values_on.mono hgrows) expanded) hdivided₁
      (machine?_of_settle hprogram)
    refine ⟨sides₂, hseparated.withStore (hgrows.trans hgrows') hdivided₂ ?_⟩
    have hother : some session.macros.scope ≠ some session.values.scope :=
      fun heq => hseparated.values_ne_macros (Option.some.inj heq)
    have hroot' : final.store.scope session.macros.scope =
        machine.store.scope session.macros.scope :=
      hwrites'.scope_eq _ (hdivided₁.lt_size (hmacros.mono hgrows)) hother
    rw [hroot', hroot]
    exact hbinds
  · obtain ⟨hwrites, hroot, sides₁, hgrows, hdivided₁⟩ :=
      hexpanded (congrArg Outcome.machine? hstopped)
    have hends := hexpandRuns ⟨session.defined program, []⟩ hdivided
    rw [hstopped] at hends
    cases interrupt with
    | returned value =>
        obtain ⟨_, _, hstops, _⟩ := hends
        exact hstops.elim
    | fault cause =>
        refine ⟨.unexpanded hparse hdefines hstopped hwrites ?_, sides₁,
          hseparated.withStore hgrows hdivided₁ (hroot.symm ▸ hbinds)⟩
        intro id hreach
        obtain ⟨hid, hne⟩ := hseparated.of_reaches_values hreach
        rw [hwrites.scope_eq id (hdefines.size_eq.symm ▸ hid) nofun]
        exact hdefines.scope_eq id hne

end Separated

/-- A new session is separated: its two scopes are empty. -/
theorem separated_new : Session.new.Separated [.values, .macros] where
  divided := by
    have hnone : ∀ {side : Side} {sides : List Side} (binding : String × Value),
        binding ∈ Scope.empty.bindings → binding.2.On sides side := fun _ hmem => nomatch hmem
    have hvalues : (Store.empty.enter none Scope.empty).2.Divided [.values] :=
      Store.Divided.empty.enter nofun hnone
    exact hvalues.enter nofun hnone
  values_on := rfl
  macros_on := rfl
  bindsMacro _ hmem := nomatch hmem

/-- Every session that units lead to is separated. -/
theorem Reachable.separated (hreach : session.Reachable) : ∃ sides, session.Separated sides := by
  induction hreach with
  | new => exact ⟨_, separated_new⟩
  | run _ hrun ih =>
      obtain ⟨sides, hseparated⟩ := ih
      exact (hseparated.run hrun).2

/-- In every session that units lead to, all handles are of scopes in use. -/
theorem Reachable.closed (hreach : session.Reachable) : session.store.Closed := by
  obtain ⟨sides, hseparated⟩ := hreach.separated
  exact hseparated.divided.closed

end Session

/-- In every session that units lead to, the root scope of macros binds macros that remember that
scope, and no scope is in reach of both the values and the macros. Taking a further unit goes
through the stages, each of which writes to one root scope at most: a rejected text changes nothing,
the definition of macros changes the root of macros alone, their expansion no scope that was there,
and evaluation the root of values alone. -/
theorem session_separate {session : Session} (hreach : session.Reachable) :
    (∀ binding ∈ (session.store.scope session.macros.scope).bindings,
      ∃ params body, binding.2 = .macroFn params body session.macros) ∧
    (∀ id, session.store.Reaches session.values.scope id →
      ¬ session.store.Reaches session.macros.scope id) ∧
    ∀ depth source answer, session.run depth source = some answer →
      session.Stages depth source answer := by
  obtain ⟨sides, hseparated⟩ := hreach.separated
  refine ⟨hseparated.bindsMacro, ?_, ?_⟩
  · intro id hvalues
    exact hseparated.divided.not_reaches hseparated.values_on hseparated.macros_on (by decide)
      hvalues
  · intro depth source answer hrun
    exact (hseparated.run hrun).1

/-- One unit defines a macro and a function. The next one calls the macro, which does not answer
with quoted code. -/
theorem session_separate_failed_expansion :
    let session : Session :=
      ⟨⟨#[⟨none, [("f", .function [] [.expr (.ident "m")] ⟨0⟩)]⟩,
        ⟨none, [("m", .macroFn [] [.expr (.bool true)] ⟨1⟩)]⟩]⟩, ⟨0⟩, ⟨1⟩⟩
    session.Reachable ∧
    (∃ params body, Value.macroFn [] [.expr (.bool true)] ⟨1⟩ =
      .macroFn params body session.macros) ∧
    (∀ id, session.store.Reaches 0 id → ¬ session.store.Reaches 1 id) ∧
    ∃ answer, session.run 9 "m()" = some answer ∧ session.Stages 9 "m()" answer ∧
      answer.reply = .value (.error (Fault.macroResult "m" .boolean).message) := by
  intro session
  have hrun : ∃ answer, Session.new.run 9
      "let m = macro() \x7b true \x7d; let f = fn() \x7b m \x7d" = some answer ∧
      answer.session = session := by
    refine ⟨?first, ?runFirst, ?session⟩
    case runFirst =>
      cbv
      rfl
    case session => rfl
  have hparse : parse "m()" = .ok [.expr (.call (.ident "m") [])] := by cbv
  have hexpand : ∃ machine, expandMacros 9 ⟨1⟩ [.expr (.call (.ident "m") [])]
      ⟨session.store, []⟩ = .stopped (.fault (.macroResult "m" .boolean)) machine := by
    refine ⟨?machine, ?expand⟩
    case expand =>
      cbv
      rfl
  obtain ⟨first, hfirst, hsession⟩ := hrun
  obtain ⟨machine, hexpand⟩ := hexpand
  have hagain : session.run 9 "m()" =
      some (session.answer (some (.error (Fault.macroResult "m" .boolean).message), machine)) := by
    rw [Session.run_of_parse hparse]
    have hunit : session.evalUnit 9 [.expr (.call (.ident "m") [])] ⟨session.store, []⟩ =
        some (some (.error (Fault.macroResult "m" .boolean).message), machine) := by
      unfold Session.evalUnit
      rw [hexpand]
      rfl
    exact congrArg (Option.map session.answer) hunit
  have hreach : session.Reachable := hsession ▸ Session.Reachable.run .new hfirst
  obtain ⟨hmacros, hdisjoint, hstages⟩ := session_separate hreach
  exact ⟨hreach, hmacros ("m", _) (List.mem_singleton_self _), hdisjoint, _, hagain,
    hstages 9 "m()" _ hagain, rfl⟩

end MonkeyLang
