import MonkeyLang.Session.Basic

/-!
# What a session can do

`Session.run_eq_some` says everything that taking a unit can come to, and `Session.Reachable` is
every session that some sequence of units leads to.
-/

namespace MonkeyLang

/-- The statements of a text, if it parses. -/
def programOf (source : String) : Program :=
  match parse source with
  | .ok program => program
  | .error _ => []

/-- The reply to a unit that was evaluated. -/
def Reply.ofResult : Option Value → Reply
  | some result => value result
  | none => nothing

namespace Session

variable {session : Session} {depth : Nat}

/-- The sessions that start with nothing bound and take one unit after the other. -/
inductive Reachable : Session → Prop where
  | new : Reachable Session.new
  | run {session : Session} {depth : Nat} {source : String} {answer : Answer} :
      Reachable session → session.run depth source = some answer → Reachable answer.session

/-- The answer of a session to a unit that was evaluated. -/
def answer (session : Session) (ended : Option Value × Machine) : Answer :=
  ⟨.ofResult ended.1, ended.2.printed, { session with store := ended.2.store }⟩

/-- A unit that parses is answered with what its evaluation comes to. -/
theorem run_of_parse {source : String} {program : Program} (hparse : parse source = .ok program) :
    session.run depth source =
      (session.evalUnit depth (withoutDefinitions program)
        ⟨session.store.defineMacros session.macros (macroDefinitions program), []⟩).map
        session.answer := by
  unfold run
  rw [hparse]
  dsimp only
  split
  · next value machine hunit =>
      rw [hunit]
      rfl
  · next machine hunit =>
      rw [hunit]
      rfl
  · next hunit =>
      rw [hunit]
      rfl

/-- A unit is rejected and nothing changes, or its macros are defined and the rest is evaluated. -/
theorem run_eq_some {source : String} {answer : Answer}
    (hrun : session.run depth source = some answer) :
    (∃ errors, parse source = .error errors ∧ answer = ⟨.rejected errors, [], session⟩) ∨
    ∃ program result machine, parse source = .ok program ∧
      session.evalUnit depth (withoutDefinitions program)
        ⟨session.store.defineMacros session.macros (macroDefinitions program), []⟩ =
          some (result, machine) ∧
      answer = ⟨.ofResult result, machine.printed, { session with store := machine.store }⟩ := by
  unfold run at hrun
  cases hparse : parse source with
  | error errors =>
      rw [hparse] at hrun
      cases hrun
      exact Or.inl ⟨errors, rfl, rfl⟩
  | ok program =>
      rw [hparse] at hrun
      right
      dsimp only at hrun
      split at hrun
      · next value machine hunit =>
          cases hrun
          exact ⟨program, some value, machine, rfl, hunit, rfl⟩
      · next machine hunit =>
          cases hrun
          exact ⟨program, none, machine, rfl, hunit, rfl⟩
      · cases hrun

/-- A unit is expanded and evaluated, or its expansion stops and nothing is evaluated. -/
theorem evalUnit_eq_some {program : Program} {machine final : Machine} {result : Option Value}
    (hunit : session.evalUnit depth program machine = some (result, final)) :
    (∃ expanded machine', expandMacros depth session.macros program machine =
        .done expanded machine' ∧
      evalProgram depth session.values expanded machine' = some (result, final)) ∨
    ∃ interrupt, expandMacros depth session.macros program machine = .stopped interrupt final ∧
      result = some interrupt.toValue := by
  unfold evalUnit at hunit
  cases hexpand : expandMacros depth session.macros program machine with
  | tooDeep =>
      rw [hexpand] at hunit
      cases hunit
  | done expanded machine' =>
      rw [hexpand] at hunit
      exact Or.inl ⟨expanded, machine', rfl, hunit⟩
  | stopped interrupt machine' =>
      rw [hexpand] at hunit
      cases hunit
      exact Or.inr ⟨interrupt, rfl, rfl⟩

end Session

end MonkeyLang
