import Mathlib
import MonkeyLang.Proofs.Eval.Sequence
import MonkeyLang.Proofs.Scope.Apart

/-!
# Names of builtins are never looked up

The name of a builtin always means the builtin, so what a scope binds it to has no influence. Read
`evalProgram_ignores_builtin_bindings` first: from stores that agree apart from the names of
builtins a program goes the same way, and the stores agree in the same sense at its end. The proof
is one more lawful simulation, `blindToBuiltins`, run in both directions.
-/

namespace MonkeyLang

/-- The names of the builtins. -/
def builtinNames : List String :=
  ["len", "first", "last", "rest", "push", "puts"]

/-- The other names are those that no builtin has. -/
theorem ofName?_eq_none_iff {name : String} :
    Builtin.ofName? name = none ↔ name ∉ builtinNames := by
  rw [Builtin.ofName?, List.find?_eq_none]
  simp [Builtin.all, Builtin.name, builtinNames, eq_comm]

/-- The machines printed the same values, and their stores agree apart from hidden names. -/
structure Machine.AgreesApart (hidden : List String) (machine machine' : Machine) : Prop where
  store : machine.store.AgreesApart hidden machine'.store
  printed_eq : machine.printed = machine'.printed

/-- The outcomes are the same, apart from what their stores bind hidden names to. -/
inductive Outcome.AgreesApart {α : Type} (hidden : List String) : Outcome α → Outcome α → Prop where
  | done {value : α} {machine machine' : Machine} :
      machine.AgreesApart hidden machine' →
      AgreesApart hidden (.done value machine) (.done value machine')
  | stopped {interrupt : Interrupt} {machine machine' : Machine} :
      machine.AgreesApart hidden machine' →
      AgreesApart hidden (.stopped interrupt machine) (.stopped interrupt machine')
  | tooDeep : AgreesApart hidden .tooDeep .tooDeep

/-- Programs come to the same, apart from what the stores at their ends bind hidden names to, or
neither of them comes to an end. The values printed are the same, and so is their text in whatever
order hashes are printed. -/
def SettlesAlike (hidden : List String) :
    Option (Option Value × Machine) → Option (Option Value × Machine) → Prop :=
  Option.Rel fun ended ended' =>
    ended.1 = ended'.1 ∧ ended.2.AgreesApart hidden ended'.2 ∧
      ∀ order, putsText order ended.2.printed = putsText order ended'.2.printed

/-! ## The simulation -/

/-- Two evaluations with the same handles, in stores that agree apart from the names of builtins. -/
def blindToBuiltins : Simulation where
  World := Unit
  grows _ _ := True
  env _ := Eq
  closure _ := Eq
  store _ := Store.AgreesApart builtinNames
  printed := Eq

/-- Evaluation never looks up the name of a builtin, and binds it like any other name. -/
theorem lawful_blindToBuiltins : blindToBuiltins.Lawful where
  grows_refl _ := trivial
  grows_trans _ _ := trivial
  env_mono _ henv := henv
  closure_mono _ hclosure := hclosure
  closure_of_env henv := henv
  lookup := by
    intro _ store store' env env' name hstore henv hname
    cases henv
    rw [hstore.lookup? (ofName?_eq_none_iff.mp hname) env]
    cases store'.lookup? env name with
    | none => exact .none
    | some value => exact .some value.alike_refl
  store_bind := by
    intro _ store store' env env' value value' name hstore henv hvalue
    cases henv
    exact hstore.bind env fun _ => Value.Alike.eq hvalue
  store_enter := by
    intro _ store store' outer outer' scope scope' hstore houter hscope
    cases houter
    cases Scope.Alike.eq hscope
    refine ⟨(), trivial, ?_, hstore.enter (some outer) (.refl scope)⟩
    show (⟨store.scopes.size⟩ : Env) = ⟨store'.scopes.size⟩
    rw [hstore.size_eq]
  printed_append hprinted hvalues := congrArg₂ (· ++ ·) hprinted (AlikeValues.eq hvalues)

variable {α : Type} {hidden : List String}

/-- Interrupts that may stand side by side are the same. -/
theorem eq_of_interrupts {interrupt interrupt' : Interrupt}
    (h : blindToBuiltins.Interrupts () interrupt interrupt') : interrupt = interrupt' := by
  cases h with
  | fault cause => rfl
  | returned hvalue => rw [Value.Alike.eq hvalue]

/-- Evaluations that end alike in both directions have the same outcome. -/
theorem Outcome.agreesApart_of_ends {good : Unit → α → α → Prop}
    (hgood : ∀ value value', good () value value' → value = value') {outcome outcome' : Outcome α}
    (hends : blindToBuiltins.Ends () good outcome outcome')
    (hback : blindToBuiltins.Ends () good outcome' outcome) :
    outcome.AgreesApart builtinNames outcome' := by
  cases hends with
  | done _ hvalue hmachine =>
      cases hgood _ _ hvalue
      exact .done ⟨hmachine.1, hmachine.2⟩
  | stopped _ hinterrupt hmachine =>
      cases eq_of_interrupts hinterrupt
      exact .stopped ⟨hmachine.1, hmachine.2⟩
  | tooDeep =>
      -- The way back says that the second evaluation does not end either.
      cases hback with
      | tooDeep => exact .tooDeep

/-- What programs come to is the same if their outcomes are. -/
theorem Outcome.AgreesApart.settle {outcome outcome' : Outcome (Option Value)}
    (h : outcome.AgreesApart hidden outcome') :
    SettlesAlike hidden (MonkeyLang.settle outcome) (MonkeyLang.settle outcome') := by
  have htext : ∀ {machine machine' : Machine}, machine.AgreesApart hidden machine' →
      ∀ order, putsText order machine.printed = putsText order machine'.printed :=
    fun hmachine order => congrArg (putsText order) hmachine.printed_eq
  cases h with
  | done hmachine => exact .some ⟨rfl, hmachine, htext hmachine⟩
  | tooDeep => exact .none
  | @stopped interrupt machine machine' hmachine =>
      cases interrupt with
      | fault cause => exact .some ⟨rfl, hmachine, htext hmachine⟩
      | returned value => exact .some ⟨rfl, hmachine, htext hmachine⟩

variable {machine machine' : Machine} {depth : Nat} {env : Env}

/-- Machines that agree may stand side by side, either one first. -/
theorem Machine.AgreesApart.sides (h : machine.AgreesApart builtinNames machine') :
    blindToBuiltins.machine () machine machine' ∧ blindToBuiltins.machine () machine' machine :=
  ⟨⟨h.store, h.printed_eq⟩, h.store.symm, h.printed_eq.symm⟩

/-- Statements have the same outcome. -/
theorem evalStmts_agreesApart (h : machine.AgreesApart builtinNames machine')
    (statements : List Stmt) :
    (evalStmts (eval depth) env none statements machine).AgreesApart builtinNames
      (evalStmts (eval depth) env none statements machine') := by
  have hmatches : blindToBuiltins.Matches () blindToBuiltins.optional
      (evalStmts (eval depth) env none statements) (evalStmts (eval depth) env none statements) :=
    Simulation.matches_evalStmts lawful_blindToBuiltins
      (Simulation.agrees_eval lawful_blindToBuiltins (Nat.le_refl depth)) statements rfl .none
  exact Outcome.agreesApart_of_ends (fun _ _ => eq_of_optional)
    (hmatches machine machine' h.sides.1) (hmatches machine' machine h.sides.2)

/-- A body has the same outcome for arguments that agree apart from parameters that have the name of
a builtin. -/
theorem evalBody_agreesApart {params : List String} {args args' : List Value}
    (h : machine.AgreesApart builtinNames machine')
    (hargs : ArgsAgreeApart builtinNames params args args') (body : Block) :
    (evalBody (eval depth) params body env args machine).AgreesApart builtinNames
      (evalBody (eval depth) params body env args' machine') := by
  obtain ⟨fault, hfault, hfault'⟩ | ⟨scope, scope', hscope, hscope', hagree⟩ :=
    Scope.ofArgs_agreesApart hargs
  · have henter : Eval.enter env params args machine = .stopped (.fault fault) machine := by
      simp only [Eval.enter, hfault]
    have henter' : Eval.enter env params args' machine' = .stopped (.fault fault) machine' := by
      simp only [Eval.enter, hfault']
    unfold evalBody
    rw [Eval.bind_of_stopped henter, Eval.bind_of_stopped henter']
    exact .stopped h
  · have hinner : (machine.store.enter (some env) scope).1 =
        (machine'.store.enter (some env) scope').1 := congrArg Env.mk h.store.size_eq
    have henter : Eval.enter env params args machine =
        .done (machine.store.enter (some env) scope).1
          { machine with store := (machine.store.enter (some env) scope).2 } := by
      simp only [Eval.enter, hscope]
    have henter' : Eval.enter env params args' machine' =
        .done (machine.store.enter (some env) scope).1
          { machine' with store := (machine'.store.enter (some env) scope').2 } := by
      simp only [Eval.enter, hscope', hinner]
    have hbody : blindToBuiltins.Matches () blindToBuiltins.value
        (Eval.catchReturn (evalBlock (eval depth) (machine.store.enter (some env) scope).1 body))
        (Eval.catchReturn (evalBlock (eval depth) (machine.store.enter (some env) scope).1 body)) :=
      Simulation.matches_catchReturn (Simulation.matches_evalBlock lawful_blindToBuiltins
        (Simulation.agrees_eval lawful_blindToBuiltins (Nat.le_refl depth)) rfl body)
    have hentered : Machine.AgreesApart builtinNames
        { machine with store := (machine.store.enter (some env) scope).2 }
        { machine' with store := (machine'.store.enter (some env) scope').2 } :=
      ⟨h.store.enter (some env) hagree, h.printed_eq⟩
    unfold evalBody
    rw [Eval.bind_of_done henter, Eval.bind_of_done henter']
    exact Outcome.agreesApart_of_ends (fun _ _ => Value.Alike.eq)
      (hbody _ _ hentered.sides.1) (hbody _ _ hentered.sides.2)

/-! ## Programs and calls -/

/-- Let stores agree apart from the names of builtins. From both of them a program comes to the same
value and prints the same values, and so the same text in every order of hashes (`HashOrder`), or
comes to no end, and the stores agree again at its end. So what such a name is bound to by a
binding, in any scope, has no influence on any program, and what is passed for a parameter of such a
name has none on a call. -/
theorem evalProgram_ignores_builtin_bindings {store store' : Store}
    (hagree : store.AgreesApart builtinNames store') (depth : Nat) (printed : List Value) :
    (∀ env program, SettlesAlike builtinNames
      (evalProgram depth env program ⟨store, printed⟩)
      (evalProgram depth env program ⟨store', printed⟩)) ∧
    (∀ env program, ∀ name ∈ builtinNames, ∀ scope value, SettlesAlike builtinNames
      (evalProgram depth env program ⟨store.bind scope name value, printed⟩)
      (evalProgram depth env program ⟨store, printed⟩)) ∧
    ∀ params body env args args', ArgsAgreeApart builtinNames params args args' →
      (applyValue (eval depth) (.function params body env) args ⟨store, printed⟩).AgreesApart
        builtinNames
        (applyValue (eval depth) (.function params body env) args' ⟨store', printed⟩) := by
  have hprogram : ∀ {first second : Store}, first.AgreesApart builtinNames second →
      ∀ env program, SettlesAlike builtinNames (evalProgram depth env program ⟨first, printed⟩)
        (evalProgram depth env program ⟨second, printed⟩) := by
    intro first second hstores env program
    have hmachines : Machine.AgreesApart builtinNames ⟨first, printed⟩ ⟨second, printed⟩ :=
      ⟨hstores, rfl⟩
    exact (evalStmts_agreesApart hmachines program).settle
  refine ⟨hprogram hagree, fun env program name hname scope value => ?_, ?_⟩
  · exact hprogram (Store.agreesApart_bind_hidden hname scope value store) env program
  · intro params body env args args' hargs
    have hmachines : Machine.AgreesApart builtinNames ⟨store, printed⟩ ⟨store', printed⟩ :=
      ⟨hagree, rfl⟩
    exact evalBody_agreesApart hmachines hargs body

/-- One store binds the name of a builtin and the other one does not. The program binds another such
name, and passes what the builtin counts to a function with a parameter of a third one. -/
theorem evalProgram_ignores_builtin_bindings_len :
    let pair : Value := .array [.null, .null]
    let store : Store := ⟨#[⟨none, [("len", .int 5), ("x", pair)]⟩]⟩
    let store' : Store := ⟨#[⟨none, [("x", pair)]⟩]⟩
    let body : Block := [.expr (.call (.ident "first") [.array [.ident "y"]])]
    let program : Program := [.bind "puts" (.ident "x"),
      .expr (.call (.function ["first", "y"] body)
        [.ident "puts", .call (.ident "len") [.ident "x"]])]
    store.AgreesApart builtinNames store' ∧
    (∃ machine, evalProgram 9 ⟨0⟩ program ⟨store, []⟩ = some (some (.int 2), machine)) ∧
    ∃ machine, evalProgram 9 ⟨0⟩ program ⟨store', []⟩ = some (some (.int 2), machine) := by
  intro pair store store' body program
  have hscope : ∀ id, (store.scope id).AgreesApart builtinNames (store'.scope id) := by
    intro id
    cases id with
    | succ id => exact .refl .empty
    | zero =>
        refine ⟨rfl, fun name hname => ?_⟩
        have hne : name ≠ "len" := by
          intro heq
          rw [heq] at hname
          exact hname List.mem_cons_self
        show List.lookup name [("len", Value.int 5), ("x", pair)] = List.lookup name [("x", pair)]
        rw [List.lookup_cons, beq_false_of_ne hne]
  have hagree : store.AgreesApart builtinNames store' := ⟨rfl, hscope⟩
  have hfirst : ∃ machine, evalProgram 9 ⟨0⟩ program ⟨store, []⟩ =
      some (some (.int 2), machine) := by
    refine ⟨?machine, ?ended⟩
    case ended =>
      dsimp only [program, body, store, pair]
      cbv
      rfl
  have hsettles := (evalProgram_ignores_builtin_bindings hagree 9 []).1 ⟨0⟩ program
  refine ⟨hagree, hfirst, ?_⟩
  obtain ⟨machine, hfirst⟩ := hfirst
  rw [hfirst] at hsettles
  generalize evalProgram 9 ⟨0⟩ program ⟨store', []⟩ = second at hsettles ⊢
  cases hsettles with
  | @some _ ended hended =>
      obtain ⟨result, machine'⟩ := ended
      obtain ⟨hresult, _⟩ := hended
      cases hresult
      exact ⟨machine', rfl⟩

end MonkeyLang
