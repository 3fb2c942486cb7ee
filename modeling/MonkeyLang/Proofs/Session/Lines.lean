import Mathlib
import MonkeyLang.Proofs.Eval.Sequence
import MonkeyLang.Proofs.Grammar.Append
import MonkeyLang.Proofs.Print.Order
import MonkeyLang.Proofs.Session.Separation

/-!
# Line by line or all at once

Lines that are complete programs without macro definitions can be given to a session one by one, as
at a prompt, or joined into one text, as in a script. Read `session_run_lines` first: the joined
text is answered like the line at which the session that takes them one by one comes to an end, with
everything printed up to there and with the same scopes.
-/

namespace MonkeyLang

/-! ## Texts that are lines -/

/-- A text that parses, ends with a semicolon unless it has no token, and defines no macro. -/
structure PlainLine (line : String) : Prop where
  parses : parse line = .ok (programOf line)
  complete : Grammar.Complete (lexemes line.toList)
  plain : macroDefinitions (programOf line) = []

/-- A line is plain by its statements and its last token. -/
theorem PlainLine.of_parse {line : String} {program : Program} (hparse : parse line = .ok program)
    (hlast : (lexemes line.toList).getLast?.all (· = .semicolon) = true)
    (hplain : macroDefinitions program = []) : PlainLine line := by
  have hprogram : programOf line = program := by
    unfold programOf
    rw [hparse]
  refine ⟨hprogram ▸ hparse, fun token hmem => ?_, hprogram ▸ hplain⟩
  rw [hmem] at hlast
  exact of_decide_eq_true hlast

/-- Lines with line feeds between them are parsed one by one. -/
theorem parse_intercalate {lines : List String} (hlines : ∀ line ∈ lines, PlainLine line) :
    parse ("\n".intercalate lines) = .ok (lines.flatMap programOf) := by
  induction lines with
  | nil => cbv
  | cons line lines ih =>
      obtain ⟨hline, hlines⟩ := List.forall_mem_cons.mp hlines
      cases lines with
      | nil =>
          rw [String.intercalate_singleton, List.flatMap_singleton]
          exact hline.parses
      | cons next lines =>
          rw [String.intercalate_cons_cons, List.flatMap_cons]
          exact parse_append hline.parses hline.complete (ih hlines)

/-- A program without macro definitions is left as it is. -/
theorem withoutDefinitions_of_plain {program : Program} (hplain : macroDefinitions program = []) :
    withoutDefinitions program = program := by
  refine List.filter_eq_self.mpr fun statement hmem => ?_
  rw [List.filterMap_eq_nil_iff.mp hplain statement hmem]
  rfl

/-! ## Sessions without macros -/

namespace Session

/-- No macro is bound: the root scope of macros is empty, and is not that of values. -/
structure Macroless (session : Session) : Prop where
  lt_size : session.macros.scope < session.store.scopes.size
  ne_values : session.macros.scope ≠ session.values.scope
  empty : session.store.scope session.macros.scope = .empty

/-- The evaluation of a program: its macro calls are expanded, and then its statements are evaluated
in order. -/
def evaluation (session : Session) (depth : Nat) (program : Program) : Eval (Option Value) := do
  let expanded ← expandMacros depth session.macros program
  evalStmts (eval depth) session.values none expanded

/-- The evaluation of a unit ends before its last statement does: by an error or by a `return`. -/
def StopsEarly (session : Session) (depth : Nat) (source : String) : Prop :=
  ∃ program interrupt machine, parse source = .ok program ∧
    session.evaluation depth (withoutDefinitions program) ⟨session.defined program, []⟩ =
      .stopped interrupt machine

/-- Lines are taken one by one, and none of them stops early. What they print, taken together, and
the session after them. -/
inductive Feeds (depth : Nat) : Session → List String → List Value → Session → Prop where
  | nil {session : Session} : Feeds depth session [] [] session
  | cons {session final : Session} {line : String} {lines : List String} {answer : Answer}
      {printed : List Value} :
      session.run depth line = some answer → ¬ session.StopsEarly depth line →
      Feeds depth answer.session lines printed final →
      Feeds depth session (line :: lines) (answer.printed ++ printed) final

variable {session : Session} {depth : Nat} {source : String} {program : Program}

/-- Nothing is bound in a new session. -/
theorem macroless_new : Session.new.Macroless :=
  ⟨by decide, by decide, rfl⟩

namespace Macroless

/-- No macro is found. -/
theorem lookup?_eq_none (hmacroless : session.Macroless) (name : String) :
    session.store.lookup? session.macros name = none := by
  unfold Store.lookup?
  rw [Store.find?, hmacroless.empty]
  rfl

/-- Evaluation binds no macro. -/
theorem evalProgram {result : Option Value} {machine : Machine} {printed : List Value}
    (hmacroless : session.Macroless)
    (hend : MonkeyLang.evalProgram depth session.values program ⟨session.store, printed⟩ =
      some (result, machine)) :
    ({ session with store := machine.store } : Session).Macroless := by
  have hwrites := evalProgram_writesOnly hend
  refine ⟨Nat.lt_of_lt_of_le hmacroless.lt_size hwrites.size_le, hmacroless.ne_values, ?_⟩
  refine (hwrites.scope_eq _ hmacroless.lt_size ?_).trans hmacroless.empty
  exact fun heq => hmacroless.ne_values (Option.some.inj heq)

/-- The evaluation of a program is that of its statements. -/
theorem evaluation_eq (hmacroless : session.Macroless) (program : Program) :
    session.evaluation depth program ⟨session.store, []⟩ =
      evalStmts (eval depth) session.values none program ⟨session.store, []⟩ :=
  Eval.bind_of_done (expandMacros_of_unbound hmacroless.lookup?_eq_none depth program) _

/-- A unit without macro definitions is answered with what its statements come to. -/
theorem run_eq (hmacroless : session.Macroless) (hparse : parse source = .ok program)
    (hplain : macroDefinitions program = []) :
    session.run depth source =
      (settle (evalStmts (eval depth) session.values none program ⟨session.store, []⟩)).map
        session.answer := by
  rw [run_of_parse hparse, hplain, withoutDefinitions_of_plain hplain]
  unfold evalUnit
  rw [Store.defineMacros, List.foldl_nil, expandMacros_of_unbound hmacroless.lookup?_eq_none]
  rfl

/-- A unit without macro definitions stops early if its statements do. -/
theorem stopsEarly_iff (hmacroless : session.Macroless) (hparse : parse source = .ok program)
    (hplain : macroDefinitions program = []) :
    session.StopsEarly depth source ↔ ∃ interrupt machine,
      evalStmts (eval depth) session.values none program ⟨session.store, []⟩ =
        .stopped interrupt machine := by
  have hdefined : session.defined program = session.store := by
    unfold defined
    rw [hplain]
    rfl
  constructor
  · rintro ⟨program', interrupt, machine, hparse', hstopped⟩
    cases hparse.symm.trans hparse'
    rw [hdefined, withoutDefinitions_of_plain hplain, hmacroless.evaluation_eq] at hstopped
    exact ⟨interrupt, machine, hstopped⟩
  · rintro ⟨interrupt, machine, hstopped⟩
    refine ⟨program, interrupt, machine, hparse, ?_⟩
    rw [hdefined, withoutDefinitions_of_plain hplain, hmacroless.evaluation_eq]
    exact hstopped

end Macroless

variable {lines : List String} {line : String} {printed : List Value} {final : Session}
  {answer : Answer}

/-- An answer to a plain line is that of statements that ended. -/
theorem Macroless.evalStmts_of_run (hmacroless : session.Macroless) (hline : PlainLine line)
    (hrun : session.run depth line = some answer) :
    ∃ outcome ended, evalStmts (eval depth) session.values none (programOf line)
        ⟨session.store, []⟩ = outcome ∧
      settle outcome = some ended ∧ answer = session.answer ended := by
  rw [hmacroless.run_eq hline.parses hline.plain] at hrun
  obtain ⟨ended, hsettle, rfl⟩ := Option.map_eq_some_iff.mp hrun
  exact ⟨_, ended, rfl, hsettle, rfl⟩

/-- Lines of which none stops early are statements that are evaluated one after the other. -/
theorem Feeds.evalStmts (hfeeds : Feeds depth session lines printed final)
    (hmacroless : session.Macroless) (hlines : ∀ line ∈ lines, PlainLine line) :
    final = { session with store := final.store } ∧ final.Macroless ∧
      ∀ last earlier, ∃ value,
        MonkeyLang.evalStmts (eval depth) session.values last (lines.flatMap programOf)
          ⟨session.store, earlier⟩ = .done value ⟨final.store, earlier ++ printed⟩ := by
  induction hfeeds with
  | nil =>
      refine ⟨rfl, hmacroless, fun last earlier => ⟨last, ?_⟩⟩
      rw [List.append_nil]
      rfl
  | @cons session final line lines answer printed hrun hstops _ ih =>
      obtain ⟨hline, hlines⟩ := List.forall_mem_cons.mp hlines
      obtain ⟨outcome, ended, hout, hsettle, rfl⟩ := hmacroless.evalStmts_of_run hline hrun
      cases outcome with
      | tooDeep => cases hsettle
      | stopped interrupt machine =>
          exact absurd ((hmacroless.stopsEarly_iff hline.parses hline.plain).mpr
            ⟨interrupt, machine, hout⟩) hstops
      | done value machine =>
          cases hsettle
          have hprogram : MonkeyLang.evalProgram depth session.values (programOf line)
              ⟨session.store, []⟩ = some (value, machine) := congrArg settle hout
          obtain ⟨hfinal, hmacroless', hrest⟩ := ih (hmacroless.evalProgram hprogram) hlines
          refine ⟨hfinal, hmacroless', fun last earlier => ?_⟩
          obtain ⟨value', hfirst⟩ := evalStmts_resume_of_done hout last earlier
          obtain ⟨value'', hsecond⟩ := hrest value' (earlier ++ machine.printed)
          refine ⟨value'', ?_⟩
          rw [List.flatMap_cons, evalStmts_append_of_done hfirst]
          exact List.append_assoc .. ▸ hsecond

end Session

/-- Let lines be plain. If none has a statement, then the text of all lines has no value and changes
nothing. Otherwise let a line stop early, or be the last one with a statement, and let none before
it stop early when a new session takes the lines one by one. Then another new session answers the
text of all lines like that line, except that it prints the values that all lines up to that one
printed: their texts one after the other, in every order of hashes (`HashOrder`). -/
theorem session_run_lines {lines : List String} (hlines : ∀ line ∈ lines, PlainLine line)
    (depth : Nat) :
    ((∀ line ∈ lines, programOf line = []) →
      Session.new.run depth ("\n".intercalate lines) = some ⟨.nothing, [], .new⟩) ∧
    ∀ earlier line later printed session answer, lines = earlier ++ line :: later →
      Session.Feeds depth .new earlier printed session →
      session.run depth line = some answer →
      (session.StopsEarly depth line ∨
        programOf line ≠ [] ∧ ∀ next ∈ later, programOf next = []) →
      Session.new.run depth ("\n".intercalate lines) =
        some { answer with printed := printed ++ answer.printed } ∧
      ∀ order, putsText order (printed ++ answer.printed) =
        putsText order printed ++ putsText order answer.printed := by
  have hplain : macroDefinitions (lines.flatMap programOf) = [] := by
    refine List.filterMap_eq_nil_iff.mpr fun statement hmem => ?_
    obtain ⟨line, hline, hstatement⟩ := List.mem_flatMap.mp hmem
    exact List.filterMap_eq_nil_iff.mp (hlines line hline).plain statement hstatement
  have hjoined : Session.new.run depth ("\n".intercalate lines) =
      (settle (evalStmts (eval depth) Session.new.values none (lines.flatMap programOf)
        ⟨Session.new.store, []⟩)).map Session.new.answer :=
    Session.macroless_new.run_eq (parse_intercalate hlines) hplain
  refine ⟨fun hnone => ?_, ?_⟩
  · rw [hjoined, List.flatMap_eq_nil_iff.mpr hnone]
    rfl
  rintro earlier line later printed session answer rfl hfeeds hrun hlast
  obtain ⟨hbefore, hrest⟩ := List.forall_mem_append.mp hlines
  obtain ⟨hline, hlater⟩ := List.forall_mem_cons.mp hrest
  obtain ⟨hsession, hmacroless, hfirst⟩ := hfeeds.evalStmts Session.macroless_new hbefore
  obtain ⟨value, hfirst⟩ := hfirst none []
  obtain ⟨outcome, ended, hout, hsettle, rfl⟩ := hmacroless.evalStmts_of_run hline hrun
  have hends : outcome ≠ .tooDeep := by
    rintro rfl
    cases hsettle
  have hlast' : (∃ interrupt machine, outcome = .stopped interrupt machine) ∨
      programOf line ≠ [] ∧ later.flatMap programOf = [] := by
    refine hlast.imp (fun hstops => ?_) (And.imp_right List.flatMap_eq_nil_iff.mpr)
    obtain ⟨interrupt, machine, hstopped⟩ :=
      (hmacroless.stopsEarly_iff hline.parses hline.plain).mp hstops
    exact ⟨interrupt, machine, hout.symm.trans hstopped⟩
  -- The lines before leave the scopes of `session`, and the line goes on from there.
  have hvalues : session.values = Session.new.values := by rw [hsession]
  rw [hvalues] at hout
  have hafter := evalStmts_resume_append hout hends hlast' value printed
  refine ⟨?_, fun order => putsText_append order printed _⟩
  rw [hjoined, List.flatMap_append, List.flatMap_cons, evalStmts_append_of_done hfirst,
    List.nil_append, hafter, settle_after, hsettle, hsession]
  rfl

/-- The first line binds a name, the next one is empty, and the third one prints and returns, so the
last one is not reached. -/
theorem session_run_lines_return :
    let bound : Session := ⟨⟨#[⟨none, [("x", .bool true)]⟩, .empty]⟩, ⟨0⟩, ⟨1⟩⟩
    Session.Feeds 9 .new ["let x = true;", ""] [] bound ∧
    bound.StopsEarly 9 "puts(\"a\"); return x;" ∧
    bound.run 9 "puts(\"a\"); return x;" = some ⟨.value (.bool true), [.str "a"], bound⟩ ∧
    Session.new.run 9 ("\n".intercalate ["let x = true;", "", "puts(\"a\"); return x;", "!x;"]) =
      some ⟨.value (.bool true), [.str "a"], bound⟩ := by
  intro bound
  have hbind : parse "let x = true;" = .ok [.bind "x" (.bool true)] := by cbv
  have hempty : parse "" = .ok [] := by cbv
  have hreturn : parse "puts(\"a\"); return x;" =
      .ok [.expr (.call (.ident "puts") [.str "a"]), .ret (.ident "x")] := by cbv
  have hnot : parse "!x;" = .ok [.expr (.unary .not (.ident "x"))] := by cbv
  have hlines : ∀ line ∈ ["let x = true;", "", "puts(\"a\"); return x;", "!x;"],
      PlainLine line := by
    simp only [List.forall_mem_cons, List.not_mem_nil, IsEmpty.forall_iff, implies_true, and_true]
    exact ⟨.of_parse hbind (by cbv) rfl, .of_parse hempty (by cbv) rfl,
      .of_parse hreturn (by cbv) rfl, .of_parse hnot (by cbv) rfl⟩
  have hmacroless : bound.Macroless := ⟨by decide, by decide, rfl⟩
  have hstops : bound.StopsEarly 9 "puts(\"a\"); return x;" := by
    refine (hmacroless.stopsEarly_iff hreturn rfl).mpr ⟨?interrupt, ?machine, ?stopped⟩
    case stopped =>
      dsimp only [bound]
      cbv
      rfl
  have hfirst : Session.new.run 9 "let x = true;" = some ⟨.nothing, [], bound⟩ := by
    rw [Session.macroless_new.run_eq hbind rfl]
    rfl
  have hsecond : bound.run 9 "" = some ⟨.nothing, [], bound⟩ := by
    rw [hmacroless.run_eq hempty rfl]
    rfl
  have hthird : bound.run 9 "puts(\"a\"); return x;" =
      some ⟨.value (.bool true), [.str "a"], bound⟩ := by
    rw [hmacroless.run_eq hreturn rfl]
    dsimp only [bound]
    cbv
  have hfeeds : Session.Feeds 9 .new ["let x = true;", ""] [] bound := by
    refine @Session.Feeds.cons 9 .new bound _ _ _ _ hfirst ?_
      (@Session.Feeds.cons 9 bound bound _ _ _ _ hsecond ?_ .nil)
    · rw [Session.macroless_new.stopsEarly_iff hbind rfl]
      rintro ⟨interrupt, machine, hstopped⟩
      cases hstopped
    · rw [hmacroless.stopsEarly_iff hempty rfl]
      rintro ⟨interrupt, machine, hstopped⟩
      cases hstopped
  obtain ⟨hjoined, -⟩ :=
    (session_run_lines hlines 9).2 _ _ _ _ _ _ rfl hfeeds hthird (Or.inl hstops)
  exact ⟨hfeeds, hstops, hthird, hjoined⟩

end MonkeyLang
