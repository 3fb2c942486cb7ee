import MonkeyLang.Proofs.Eval.Agreement
import MonkeyLang.Proofs.Expr.Walk

/-!
# Programs in sequence

Statements behind others are evaluated where those ended (`evalStmts_append`), and evaluation does
not look at what was printed before (`evalStmts_after`). So a program can be evaluated in
pieces. The expansion of macros does not get in between, as long as no macro is bound
(`expandMacros_of_unbound`). Where the depth is enough, more depth changes nothing
(`eval_of_depth_le`).
-/

namespace MonkeyLang

/-- What follows an evaluation that ended with a result starts where it ended. -/
theorem Eval.bind_of_done {α β : Type} {first : Eval α} {machine machine' : Machine} {value : α}
    (hfirst : first machine = .done value machine') (next : α → Eval β) :
    (first >>= next) machine = next value machine' := by
  show Eval.andThen first next machine = next value machine'
  unfold Eval.andThen
  rw [hfirst]

/-- Nothing follows an evaluation that was interrupted. -/
theorem Eval.bind_of_stopped {α β : Type} {first : Eval α} {machine machine' : Machine}
    {interrupt : Interrupt} (hfirst : first machine = .stopped interrupt machine')
    (next : α → Eval β) : (first >>= next) machine = .stopped interrupt machine' := by
  show Eval.andThen first next machine = .stopped interrupt machine'
  unfold Eval.andThen
  rw [hfirst]

variable {evaluate : Evaluator} {env : Env} {last : Option Value}

/-! ## Statements behind statements -/

/-- Statements behind others are evaluated where those ended. -/
theorem evalStmts_append (evaluate : Evaluator) (env : Env) (last : Option Value)
    (first second : List Stmt) :
    evalStmts evaluate env last (first ++ second) = (do
      let value ← evalStmts evaluate env last first
      evalStmts evaluate env value second) := by
  induction first generalizing last with
  | nil => rw [List.nil_append, evalStmts, pure_bind]
  | cons statement first ih =>
      rw [List.cons_append, evalStmts, evalStmts, bind_assoc]
      simp only [ih]

/-- Statements go on behind those that ended with a value. -/
theorem evalStmts_append_of_done {first : List Stmt} {value : Option Value}
    {machine machine' : Machine}
    (hdone : evalStmts evaluate env last first machine = .done value machine')
    (second : List Stmt) :
    evalStmts evaluate env last (first ++ second) machine =
      evalStmts evaluate env value second machine' := by
  rw [evalStmts_append]
  exact Eval.bind_of_done hdone _

/-- An interrupt ends all statements. -/
theorem evalStmts_append_of_stopped {first : List Stmt} {interrupt : Interrupt}
    {machine machine' : Machine}
    (hstopped : evalStmts evaluate env last first machine = .stopped interrupt machine')
    (second : List Stmt) :
    evalStmts evaluate env last (first ++ second) machine = .stopped interrupt machine' := by
  rw [evalStmts_append]
  exact Eval.bind_of_stopped hstopped _

/-- The value of earlier statements does not matter as soon as there is a statement. -/
theorem evalStmts_of_ne_nil {program : List Stmt} (hne : program ≠ [])
    (last last' : Option Value) :
    evalStmts evaluate env last program = evalStmts evaluate env last' program := by
  cases program with
  | nil => exact absurd rfl hne
  | cons statement program => rfl

/-! ## Values printed before -/

/-- The outcome with values printed before it. -/
def Outcome.after {α : Type} (earlier : List Value) : Outcome α → Outcome α
  | done value machine => done value { machine with printed := earlier ++ machine.printed }
  | stopped interrupt machine =>
      stopped interrupt { machine with printed := earlier ++ machine.printed }
  | tooDeep => tooDeep

/-- Two evaluations with the same scopes, of which the second one starts with values printed
before. -/
def printedBefore (earlier : List Value) : Simulation where
  World := Unit
  grows _ _ := True
  env _ := Eq
  closure _ := Eq
  store _ := Eq
  printed printed printed' := printed' = earlier ++ printed

/-- A value is like itself, with the same environments. -/
theorem Value.alike_refl (value : Value) : value.Alike Eq value :=
  value.alike_self fun _ _ => rfl

/-- Values that are alike with the same environments are the same. -/
theorem Value.Alike.eq {value value' : Value} (halike : value.Alike Eq value') : value = value' :=
  halike.eq_of_capturesOnly fun _ _ _ heq => heq

/-- Lists of values that are alike with the same environments are the same. -/
theorem AlikeValues.eq {values values' : List Value} (halike : AlikeValues Eq values values') :
    values = values' :=
  List.forall₂_eq_eq_eq ▸ halike.imp fun _ _ hvalue => hvalue.eq

/-- Scopes that are alike with the same handles are the same. -/
theorem Scope.Alike.eq {scope scope' : Scope} (halike : scope.Alike Eq scope') :
    scope = scope' := by
  obtain ⟨outer, bindings⟩ := scope
  obtain ⟨outer', bindings'⟩ := scope'
  obtain ⟨houter, hbindings⟩ := halike
  have houter' : outer = outer' := by
    cases houter with
    | none => rfl
    | some hsame => cases hsame; rfl
  have hbindings' : bindings = bindings' := by
    refine List.forall₂_eq_eq_eq ▸ List.Forall₂.imp (fun binding binding' hbinding => ?_) hbindings
    exact Prod.ext hbinding.name_eq hbinding.value.eq
  rw [houter', hbindings']

/-- Nothing that evaluation relies on is about the values printed before. -/
theorem lawful_printedBefore (earlier : List Value) : (printedBefore earlier).Lawful where
  grows_refl _ := trivial
  grows_trans _ _ := trivial
  env_mono _ henv := henv
  closure_mono _ hclosure := hclosure
  closure_of_env henv := henv
  lookup := by
    rintro _ store _ env _ name rfl rfl _
    cases store.lookup? env name with
    | none => exact .none
    | some value => exact .some value.alike_refl
  store_bind := by
    rintro _ store _ env _ value value' name rfl rfl hvalue
    rw [Value.Alike.eq hvalue]
    rfl
  store_enter := by
    rintro _ store _ outer _ scope scope' rfl rfl hscope
    rw [Scope.Alike.eq hscope]
    exact ⟨(), trivial, rfl, rfl⟩
  printed_append := by
    rintro _ printed _ values values' rfl hvalues
    rw [AlikeValues.eq hvalues]
    exact List.append_assoc ..

/-- Optional values that are alike with the same environments are the same. -/
theorem eq_of_optional {value value' : Option Value}
    (hrel : Option.Rel (Value.Alike Eq) value value') : value = value' := by
  cases hrel with
  | none => rfl
  | some halike => rw [halike.eq]

/-- The second outcome is the first one, with the values printed before it. -/
theorem eq_after_of_ends {α : Type} {earlier : List Value} {outcome outcome' : Outcome α}
    {good : (printedBefore earlier).World → α → α → Prop}
    (hends : (printedBefore earlier).Ends () good outcome outcome')
    (hgood : ∀ world value value', good world value value' → value = value')
    (hne : outcome ≠ .tooDeep) : outcome' = outcome.after earlier := by
  cases hends with
  | tooDeep => exact absurd rfl hne
  | @done world value value' machine machine' _ hvalue hmachine =>
      obtain ⟨hstore, hprinted⟩ := hmachine
      obtain ⟨store, printed⟩ := machine
      obtain ⟨store', printed'⟩ := machine'
      cases hstore
      cases hprinted
      rw [hgood world value value' hvalue]
      rfl
  | @stopped _ interrupt interrupt' machine machine' _ hinterrupt hmachine =>
      obtain ⟨hstore, hprinted⟩ := hmachine
      obtain ⟨store, printed⟩ := machine
      obtain ⟨store', printed'⟩ := machine'
      cases hstore
      cases hprinted
      cases hinterrupt with
      | fault cause => rfl
      | returned hvalue =>
          rw [Value.Alike.eq hvalue]
          rfl

/-- Statements are evaluated in the same way whatever was printed before. -/
theorem evalStmts_after {depth : Nat} {program : Program} {store : Store} {printed : List Value}
    (earlier : List Value) {outcome : Outcome (Option Value)}
    (hout : evalStmts (eval depth) env last program ⟨store, printed⟩ = outcome)
    (hends : outcome ≠ .tooDeep) :
    evalStmts (eval depth) env last program ⟨store, earlier ++ printed⟩ =
      outcome.after earlier := by
  have hlawful := lawful_printedBefore earlier
  have hlast : Option.Rel (Value.Alike Eq) last last := by
    cases last with
    | none => exact .none
    | some value => exact .some value.alike_refl
  have hmatches : (printedBefore earlier).Matches () (printedBefore earlier).optional
      (evalStmts (eval depth) env last program) (evalStmts (eval depth) env last program) :=
    Simulation.matches_evalStmts hlawful (Simulation.agrees_eval hlawful (Nat.le_refl depth))
      program rfl hlast
  have hboth := hmatches ⟨store, printed⟩ ⟨store, earlier ++ printed⟩ ⟨rfl, rfl⟩
  rw [hout] at hboth
  exact eq_after_of_ends hboth (fun _ _ _ => eq_of_optional) hends

/-- Statements that have an outcome on their own have the same one behind others. -/
theorem evalStmts_resume {depth : Nat} {program : Program} {store : Store}
    {outcome : Outcome (Option Value)} (hne : program ≠ [])
    (hout : evalStmts (eval depth) env none program ⟨store, []⟩ = outcome)
    (hends : outcome ≠ .tooDeep) (last : Option Value) (earlier : List Value) :
    evalStmts (eval depth) env last program ⟨store, earlier⟩ = outcome.after earlier := by
  have hafter := evalStmts_after earlier hout hends
  rwa [List.append_nil, evalStmts_of_ne_nil hne none last] at hafter

/-- Statements that end with a value on their own, if there are any, end in the same way behind
others. -/
theorem evalStmts_resume_of_done {depth : Nat} {program : Program} {store : Store}
    {value : Option Value} {machine : Machine}
    (hdone : evalStmts (eval depth) env none program ⟨store, []⟩ = .done value machine)
    (last : Option Value) (earlier : List Value) :
    ∃ value', evalStmts (eval depth) env last program ⟨store, earlier⟩ =
      .done value' ⟨machine.store, earlier ++ machine.printed⟩ := by
  cases program with
  | nil =>
      cases hdone
      exact ⟨last, by rw [List.append_nil]; rfl⟩
  | cons statement program =>
      exact ⟨value, evalStmts_resume (List.cons_ne_nil _ _) hdone nofun last earlier⟩

/-- Statements that stop early, or are the last ones, have the same outcome between others. -/
theorem evalStmts_resume_append {depth : Nat} {program rest : Program} {store : Store}
    {outcome : Outcome (Option Value)}
    (hout : evalStmts (eval depth) env none program ⟨store, []⟩ = outcome)
    (hends : outcome ≠ .tooDeep)
    (hlast : (∃ interrupt machine, outcome = .stopped interrupt machine) ∨
      program ≠ [] ∧ rest = []) (last : Option Value) (earlier : List Value) :
    evalStmts (eval depth) env last (program ++ rest) ⟨store, earlier⟩ = outcome.after earlier := by
  rcases hlast with ⟨interrupt, machine, rfl⟩ | ⟨hne, rfl⟩
  · have hne : program ≠ [] := by
      rintro rfl
      cases hout
    exact evalStmts_append_of_stopped (evalStmts_resume hne hout hends last earlier) rest
  · rw [List.append_nil]
    exact evalStmts_resume hne hout hends last earlier

/-- What a program comes to is the same whatever was printed before. -/
theorem settle_after (earlier : List Value) (outcome : Outcome (Option Value)) :
    settle (outcome.after earlier) = (settle outcome).map fun ended =>
      (ended.1, { ended.2 with printed := earlier ++ ended.2.printed }) := by
  cases outcome with
  | tooDeep => rfl
  | done value machine => rfl
  | stopped interrupt machine => cases interrupt <;> rfl

/-! ## More depth -/

/-- Where the first of two evaluations that match does not nest too deeply, the second one has the
same outcome. -/
theorem eq_of_matches {α : Type} {action action' : Eval α} {machine : Machine}
    {good : (printedBefore []).World → α → α → Prop}
    (hmatches : (printedBefore []).Matches () good action action')
    (hgood : ∀ world value value', good world value value' → value = value')
    (hne : action machine ≠ .tooDeep) : action' machine = action machine := by
  have hsame : (printedBefore []).machine () machine machine :=
    ⟨rfl, (List.nil_append _).symm⟩
  refine (eq_after_of_ends (hmatches machine machine hsame) hgood hne).trans ?_
  unfold Outcome.after
  cases action machine with
  | tooDeep => rfl
  | done value final => simp only [List.nil_append]
  | stopped interrupt final => simp only [List.nil_append]

/-- An expression that is evaluated without nesting too deeply has the same outcome at every greater
depth. -/
theorem eval_of_depth_le {depth depth' : Nat} {expr : Expr} {machine : Machine}
    (hdepth : depth ≤ depth') (hne : eval depth env expr machine ≠ .tooDeep) :
    eval depth' env expr machine = eval depth env expr machine := by
  have hagrees := Simulation.agrees_eval (lawful_printedBefore []) hdepth
  exact eq_of_matches (hagrees expr rfl) (fun _ _ _ => Value.Alike.eq) hne

/-- A call of a macro has the same outcome at every greater depth. -/
theorem expandCall_of_depth_le {depth depth' : Nat} {name : String} {params : List String}
    {body : Block} {args : List Expr} {machine : Machine} (hdepth : depth ≤ depth')
    (hne : expandCall (eval depth) name params body env args machine ≠ .tooDeep) :
    expandCall (eval depth') name params body env args machine =
      expandCall (eval depth) name params body env args machine := by
  have hlawful := lawful_printedBefore []
  have hmatches : (printedBefore []).Matches () Simulation.equal
      (expandCall (eval depth) name params body env args)
      (expandCall (eval depth') name params body env args) :=
    Simulation.matches_expandCall hlawful (Simulation.agrees_eval hlawful hdepth) rfl name params
      body args
  exact eq_of_matches hmatches (fun _ _ _ hsame => hsame) hne

/-! ## Walks without changes -/

/-- Actions that leave a machine as it is, whatever they visit. -/
theorem walking_unchanged (machine : Machine) :
    Walking fun α (_ : List Expr) goal (action : Eval α) =>
      ∃ value, goal value ∧ action machine = .done value machine where
  pure _ _ value hvalue := ⟨value, hvalue, rfl⟩
  bind := by
    rintro α β nodes nodes' goal goal' first next ⟨value, hvalue, hfirst⟩ hnext
    obtain ⟨value', hvalue', hdone⟩ := hnext value hvalue
    exact ⟨value', hvalue', (Eval.bind_of_done hfirst next).trans hdone⟩

variable {visit : Expr → Eval Expr} {machine : Machine}

/-- Visits that leave their expressions and the machine as they are. -/
theorem visitsWell_unchanged {nodes : List Expr}
    (hvisits : ∀ node ∈ nodes, visit node machine = .done node machine) :
    VisitsWell (fun α (_ : List Expr) goal (action : Eval α) =>
      ∃ value, goal value ∧ action machine = .done value machine) visit Eq nodes := by
  intro original hmem rebuilt hrebuilt
  rw [← hrebuilt.eq]
  exact ⟨original, rfl, hvisits original hmem⟩

/-- A walk over an expression changes nothing if no visit does. -/
theorem Expr.transformM_unchanged {expr : Expr}
    (hvisits : ∀ node ∈ expr.nodes, visit node machine = .done node machine) :
    expr.transformM visit machine = .done expr machine := by
  obtain ⟨_, rfl, hdone⟩ := expr.transformM_walks (walking_unchanged machine)
    (visitsWell_unchanged hvisits)
  exact hdone

/-- A walk over a program changes nothing if no visit does. -/
theorem transformProgramM_unchanged {program : Program}
    (hvisits : ∀ node ∈ stmtsNodes program, visit node machine = .done node machine) :
    transformProgramM visit program machine = .done program machine := by
  obtain ⟨_, hsame, hdone⟩ := transformStmtsM_walks (walking_unchanged machine) program
    (visitsWell_unchanged hvisits)
  rwa [← hsame.eq] at hdone

/-! ## Expansion without macros -/

/-- Where no macro is bound there is nothing to expand. -/
theorem expandMacros_of_unbound {machine : Machine} {macros : Env}
    (hunbound : ∀ name, machine.store.lookup? macros name = none) (depth : Nat)
    (program : Program) :
    expandMacros depth macros program machine = .done program machine := by
  have hvisit : ∀ expr, expandMacro (eval depth) macros expr machine = .done expr machine := by
    intro expr
    unfold expandMacro
    split
    · next name args =>
        have hlookup : Eval.lookup? macros name machine = .done none machine :=
          congrArg (Outcome.done · machine) (hunbound name)
        exact Eval.bind_of_done hlookup _
    · rfl
  exact transformProgramM_unchanged fun expr _ => hvisit expr

end MonkeyLang
