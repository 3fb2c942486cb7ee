import Mathlib
import MonkeyLang.Proofs.Eval.Pairing
import MonkeyLang.Proofs.Session.Separation

/-!
# Expansion does not depend on values

What the expansion of macros makes of a program depends on the macros that were defined, and on
nothing else that a session has seen. Read `expandMacros_independent` first: two sessions that took
any units, as long as these define the same macros in the same order, expand the next program in the
same way, with the same fault and the same text printed in every order of hashes.
-/

namespace MonkeyLang

/-! ## The macros of a session -/

/-- The root scope of macros, from the definitions in the order in which they were made. -/
def macroScope (macros : Env) (definitions : List MacroDefinition) : Scope :=
  definitions.foldl
    (fun scope definition =>
      scope.bind definition.name (.macroFn definition.params definition.body macros))
    .empty

/-- Macros are defined on top of those that were defined before. -/
theorem scope_defineMacros {store : Store} {macros : Env}
    (hmacros : macros.scope < store.scopes.size) {earlier : List MacroDefinition}
    (hroot : store.scope macros.scope = macroScope macros earlier)
    (definitions : List MacroDefinition) :
    (store.defineMacros macros definitions).scope macros.scope =
      macroScope macros (earlier ++ definitions) := by
  induction definitions generalizing store earlier with
  | nil =>
      rw [List.append_nil]
      exact hroot
  | cons definition definitions ih =>
      let value : Value := .macroFn definition.params definition.body macros
      have hroot' : (store.bind macros definition.name value).scope macros.scope =
          macroScope macros (earlier ++ [definition]) := by
        rw [Store.scope_bind_self _ _ hmacros, hroot, macroScope, macroScope, List.foldl_append]
        rfl
      have hsize := store.size_bind macros definition.name value
      rw [List.append_cons]
      exact ih (hsize.symm ▸ hmacros) hroot'

/-- A scope of macros is like the scope of the same macros where their environments are related. -/
theorem macroScope_alike {same : Env → Env → Prop} {macros macros' : Env}
    (hmacros : same macros macros') (definitions : List MacroDefinition) :
    (macroScope macros definitions).Alike same (macroScope macros' definitions) := by
  have hfold : ∀ scope scope' : Scope, scope.Alike same scope' →
      (definitions.foldl (fun scope definition =>
        scope.bind definition.name (.macroFn definition.params definition.body macros))
        scope).Alike same
      (definitions.foldl (fun scope definition =>
        scope.bind definition.name (.macroFn definition.params definition.body macros'))
        scope') := by
    induction definitions with
    | nil =>
        intro scope scope' hscope
        exact hscope
    | cons definition definitions ih =>
        intro scope scope' hscope
        exact ih _ _ (hscope.bind definition.name (.macroFn hmacros))
  exact hfold .empty .empty ⟨.none, .nil⟩

namespace Session

/-- The macros that a unit defines. A unit that does not parse defines none. -/
def definitionsOf (source : String) : List MacroDefinition :=
  macroDefinitions (programOf source)

/-- The session after units were taken one by one, each with some answer. -/
inductive Took : List String → Session → Prop where
  | new : Took [] Session.new
  | run {units : List String} {session : Session} {depth : Nat} {source : String}
      {answer : Answer} :
      Took units session → session.run depth source = some answer →
      Took (units ++ [source]) answer.session

variable {session session' : Session} {units units' : List String} {sides : List Side}
  {depth : Nat} {source : String} {answer : Answer} {definitions : List MacroDefinition}

/-- A session that took units is one that units lead to. -/
theorem Took.reachable (htook : Took units session) : session.Reachable := by
  induction htook with
  | new => exact .new
  | run _ hrun ih => exact .run ih hrun

/-- Whatever comes of a unit, its macros are defined on top of those that were defined before, and
nothing else is bound beside them. -/
theorem Separated.macroScope_run (hseparated : session.Separated sides)
    (hroot : session.store.scope session.macros.scope = macroScope session.macros definitions)
    (hrun : session.run depth source = some answer) :
    answer.session.store.scope answer.session.macros.scope =
      macroScope answer.session.macros (definitions ++ definitionsOf source) := by
  have hlt := hseparated.macros_lt_size
  cases (hseparated.run hrun).1 with
  | rejected hparse =>
      unfold definitionsOf programOf
      rw [hparse]
      exact (List.append_nil definitions).symm ▸ hroot
  | unexpanded hparse hdefines _ hwrites _ =>
      unfold definitionsOf programOf
      rw [hparse]
      refine (hwrites.scope_eq _ (hdefines.size_eq.symm ▸ hlt) nofun).trans ?_
      exact scope_defineMacros hlt hroot _
  | evaluated hparse hdefines _ hwrites _ hwrites' =>
      unfold definitionsOf programOf
      rw [hparse]
      have hlt' := Nat.lt_of_lt_of_le (hdefines.size_eq.symm ▸ hlt) hwrites.size_le
      have hother : some session.macros.scope ≠ some session.values.scope :=
        fun heq => hseparated.values_ne_macros (Option.some.inj heq)
      refine (hwrites'.scope_eq _ hlt' hother).trans ?_
      refine (hwrites.scope_eq _ (hdefines.size_eq.symm ▸ hlt) nofun).trans ?_
      exact scope_defineMacros hlt hroot _

/-- The root scope of macros holds the macros that the units defined. -/
theorem Took.macroScope (htook : Took units session) :
    session.store.scope session.macros.scope =
      MonkeyLang.macroScope session.macros (units.flatMap definitionsOf) := by
  induction htook with
  | new => rfl
  | run htook hrun ih =>
      obtain ⟨sides, hseparated⟩ := htook.reachable.separated
      rw [List.flatMap_append, List.flatMap_singleton]
      exact hseparated.macroScope_run ih hrun

/-- The expansion of a program in a session. Its macros are defined first, and what is left without
their definitions is expanded. -/
def expansion (session : Session) (depth : Nat) (program : Program) : Outcome Program :=
  expandMacros depth session.macros (withoutDefinitions program) ⟨session.defined program, []⟩

/-- Sessions in which the same macros were defined stand side by side when the macros of a program
are defined in both: the roots of macros stand for each other. -/
theorem Took.paired (htook : Took units session) (htook' : Took units' session')
    (hsame : units.flatMap definitionsOf = units'.flatMap definitionsOf) (program : Program) :
    MonkeyLang.paired.machine (fun env env' => env = session.macros ∧ env' = session'.macros)
      ⟨session.defined program, []⟩ ⟨session'.defined program, []⟩ := by
  have hroot : ∀ {units : List String} {session : Session}, Took units session →
      session.macros.scope < (session.defined program).scopes.size ∧
      (session.defined program).scope session.macros.scope =
        MonkeyLang.macroScope session.macros
          (units.flatMap definitionsOf ++ macroDefinitions program) := by
    intro units session htook
    obtain ⟨sides, hseparated⟩ := htook.reachable.separated
    have hlt := hseparated.macros_lt_size
    have hdefines := Store.defines_defineMacros (macroDefinitions program) hlt
    exact ⟨hdefines.size_eq.symm ▸ hlt, scope_defineMacros hlt htook.macroScope _⟩
  obtain ⟨hlt, hscope⟩ := hroot htook
  obtain ⟨hlt', hscope'⟩ := hroot htook'
  refine ⟨⟨⟨?_, ?_, ?_⟩, ?_⟩, .nil⟩
  · rintro _ _ _ _ ⟨rfl, rfl⟩ ⟨rfl, rfl⟩
    exact iff_of_false (Nat.lt_irrefl _) (Nat.lt_irrefl _)
  · rintro _ _ ⟨rfl, rfl⟩
    exact iff_of_true hlt hlt'
  · rintro _ _ ⟨rfl, rfl⟩
    rw [hscope, hscope', hsame]
    exact macroScope_alike ⟨rfl, rfl⟩ _
  · rintro _ _ ⟨rfl, rfl⟩
    exact ⟨hlt, hlt'⟩

end Session

/-! ## The two expansions -/

/-- What an evaluation lets out besides its scopes: the result, or what interrupted it as a value,
and the values printed. There is nothing if it nests too deeply. -/
def Outcome.observed {α : Type} : Outcome α → Option (Except Value α × List Value)
  | done value machine => some (.ok value, machine.printed)
  | stopped interrupt machine => some (.error interrupt.toValue, machine.printed)
  | tooDeep => none

/-- The same is observed of two evaluations: the same result or error, and values that differ in
nothing but the environments of functions, so that their text is the same in every order of hashes.
Or both nest too deeply. -/
def ObservedAlike {α : Type} :
    Option (Except Value α × List Value) → Option (Except Value α × List Value) → Prop :=
  Option.Rel fun seen seen' =>
    seen.1 = seen'.1 ∧ AlikeValues (fun _ _ => True) seen.2 seen'.2 ∧
      ∀ order, putsText order seen.2 = putsText order seen'.2

/-- No `return` leaves the expansion of macros. -/
theorem expandMacros_ne_returned {depth : Nat} {macros : Env} {program : Program}
    {machine machine' : Machine} {value : Value} :
    expandMacros depth macros program machine ≠ .stopped (.returned value) machine' := by
  intro hstopped
  have hruns : (frame machine.store none).Runs () Invariant.anyResult Invariant.noReturn
      (expandMacros depth macros program) :=
    Invariant.runs_expandMacros_of_reads (lawful_frame machine.store none) (fun _ _ => trivial)
      depth (fun _ _ _ _ _ _ _ => trivial) program
  have hends := hruns machine (Store.WritesOnly.refl machine.store none)
  rw [hstopped] at hends
  obtain ⟨_, _, hstops, _⟩ := hends
  exact hstops

/-- Expansions that end alike, either one first, are observed to be the same. -/
theorem observedAlike_of_ends {outcome outcome' : Outcome Program} {same same' : Env → Env → Prop}
    (hends : paired.Ends same Simulation.equal outcome outcome')
    (hback : paired.Ends same' Simulation.equal outcome' outcome)
    (hreturned : ∀ value machine, outcome ≠ .stopped (.returned value) machine) :
    ObservedAlike outcome.observed outcome'.observed := by
  cases hends with
  | tooDeep =>
      -- A match says nothing where the first side nests too deeply, so both directions are needed.
      cases hback with
      | tooDeep => exact .none
  | @done _ value value' machine machine' _ hvalue hmachine =>
      have hvalue' : value = value' := hvalue
      rw [hvalue']
      exact .some ⟨rfl, hmachine.2, putsText_alike hmachine.2⟩
  | @stopped _ interrupt interrupt' machine machine' _ hinterrupt hmachine =>
      cases hinterrupt with
      | fault cause => exact .some ⟨rfl, hmachine.2, putsText_alike hmachine.2⟩
      | returned hvalue => exact absurd rfl (hreturned _ _)

/-- Let two sessions take any units, of which those that parse define the same macros in the same
order. Then any program, without its own definitions, which are made first, is expanded to the same
program in both sessions, or fails with the same error, and the same text is printed in every order
of hashes (`HashOrder`). -/
theorem expandMacros_independent {session session' : Session} {units units' : List String}
    (htook : Session.Took units session) (htook' : Session.Took units' session')
    (hsame : units.flatMap Session.definitionsOf = units'.flatMap Session.definitionsOf)
    (depth : Nat) (program : Program) :
    ObservedAlike (session.expansion depth program).observed
      (session'.expansion depth program).observed := by
  have hmatches : ∀ macros macros' : Env,
      paired.Matches (fun env env' => env = macros ∧ env' = macros') Simulation.equal
        (expandMacros depth macros (withoutDefinitions program))
        (expandMacros depth macros' (withoutDefinitions program)) := by
    intro macros macros'
    refine Simulation.matches_expandMacros lawful_paired (Nat.le_refl depth) ?_ _
    intro same store store' name hgrows hstore
    exact hstore.1.lookup? (hgrows macros macros' ⟨rfl, rfl⟩) name
  have hends := hmatches _ _ _ _ (htook.paired htook' hsame program)
  have hends' := hmatches _ _ _ _ (htook'.paired htook hsame.symm program)
  exact observedAlike_of_ends hends hends' fun _ _ => expandMacros_ne_returned

/-- One session fails in the unit that defines a macro. The other one rejects a unit, and defines
the macro in a unit that binds a value and enters a scope. The macro prints when it is expanded. -/
theorem expandMacros_independent_failed_unit :
    let units := ["let m = macro(x) \x7b puts(\"a\"); x \x7d; y"]
    let units' :=
      ["let", "let m = macro(x) \x7b puts(\"a\"); x \x7d; let z = fn() \x7b true \x7d()"]
    let body : Block := [.expr (.call (.ident "puts") [.str "a"]), .expr (.ident "x")]
    let session : Session := ⟨⟨#[.empty, ⟨none, [("m", .macroFn ["x"] body ⟨1⟩)]⟩]⟩, ⟨0⟩, ⟨1⟩⟩
    let session' : Session :=
      ⟨⟨#[⟨none, [("z", .bool true)]⟩, ⟨none, [("m", .macroFn ["x"] body ⟨1⟩)]⟩, ⟨some 0, []⟩]⟩,
        ⟨0⟩, ⟨1⟩⟩
    let program : Program := [.expr (.call (.ident "m") [.ident "z"])]
    Session.Took units session ∧ Session.Took units' session' ∧
    units.flatMap Session.definitionsOf = units'.flatMap Session.definitionsOf ∧
    (session.expansion 9 program).observed = some (.ok [.expr (.ident "z")], [.str "a"]) ∧
    ∃ printed, (session'.expansion 9 program).observed =
      some (.ok [.expr (.ident "z")], printed) ∧ ∀ order, putsText order printed = "a\n" := by
  intro units units' body session session' program
  have hparse : parse "let m = macro(x) \x7b puts(\"a\"); x \x7d; y" =
      .ok [.bind "m" (.macroLit ["x"] body), .expr (.ident "y")] := by cbv
  have hbad : parse "let" = .error [.missingName .eof] := by cbv
  have hparse' :
      parse "let m = macro(x) \x7b puts(\"a\"); x \x7d; let z = fn() \x7b true \x7d()" =
      .ok [.bind "m" (.macroLit ["x"] body),
        .bind "z" (.call (.function [] [.expr (.bool true)]) [])] := by cbv
  have htook : Session.Took units session := by
    have hfails : evalStmts (eval 9) ⟨0⟩ none [.expr (.ident "y")] ⟨session.store, []⟩ =
        .stopped (.fault (.unbound "y")) ⟨session.store, []⟩ := by
      dsimp only [session, body]
      cbv
    have hunit : Session.new.evalUnit 9 [.expr (.ident "y")] ⟨session.store, []⟩ =
        some (some (.error (Fault.unbound "y").message), ⟨session.store, []⟩) :=
      congrArg settle hfails
    have hrun :=
      (Session.run_of_parse hparse).trans (congrArg (Option.map Session.new.answer) hunit)
    exact .run .new hrun
  have htook' : Session.Took units' session' := by
    have hfirst : Session.new.run 9 "let" =
        some ⟨.rejected [.missingName .eof], [], .new⟩ := by
      unfold Session.run
      rw [hbad]
    have hsecond : Session.new.run 9
        "let m = macro(x) \x7b puts(\"a\"); x \x7d; let z = fn() \x7b true \x7d()" =
        some ⟨.nothing, [], session'⟩ := by
      rw [Session.run_of_parse hparse']
      rfl
    exact .run (.run .new hfirst) hsecond
  have hsame : units.flatMap Session.definitionsOf = units'.flatMap Session.definitionsOf := by
    simp only [units, units', List.flatMap_cons, List.flatMap_nil, Session.definitionsOf,
      programOf, hparse, hbad, hparse']
    rfl
  have hexpansion : (session.expansion 9 program).observed =
      some (.ok [.expr (.ident "z")], [.str "a"]) := by
    dsimp only [session, program, body]
    cbv
  have halike := expandMacros_independent htook htook' hsame 9 program
  refine ⟨htook, htook', hsame, hexpansion, ?_⟩
  rw [hexpansion] at halike
  generalize (session'.expansion 9 program).observed = second at halike ⊢
  cases halike with
  | @some _ seen hseen =>
      obtain ⟨result, printed⟩ := seen
      obtain ⟨hresult, -, htext⟩ := hseen
      cases hresult
      exact ⟨printed, rfl, fun order => (htext order).symm⟩

end MonkeyLang
