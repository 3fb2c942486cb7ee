import MonkeyLang.Proofs.Grammar.Completeness
import MonkeyLang.Proofs.Grammar.Soundness

/-!
# The parser accepts exactly the grammar

`parse_eq_ok_iff` is the statement to read: a text is accepted as a program exactly if its tokens
are a rendering of that program. A token sequence is a rendering of at most one program, so the
grammar leaves no choice (`Grammar.Statements.unique`).
-/

namespace MonkeyLang

open Grammar

/-- Statements are read without errors exactly if the tokens are a rendering of them. -/
theorem readProgram_eq_iff {tokens : List Token} {program : Program} :
    readProgram tokens = ⟨program, []⟩ ↔ Statements tokens program := by
  constructor
  · intro hread
    have hsound := readProgram_sound (congrArg Parse.errors hread)
    rwa [hread] at hsound
  · intro hstatements
    exact hstatements.reads.2

/-- No token sequence is a rendering of two programs. -/
theorem Grammar.Statements.unique {tokens : List Token} {program other : Program}
    (h : Statements tokens program) (hother : Statements tokens other) : program = other :=
  congrArg Parse.program (h.reads.2.symm.trans hother.reads.2)

/-- A parse is accepted exactly if it has no errors. -/
theorem parse_eq_ok_iff_readProgram {source : String} {program : Program} :
    parse source = .ok program ↔ readProgram (lexemes source.toList) = ⟨program, []⟩ := by
  unfold parse parseWithErrors
  cases hread : readProgram (lexemes source.toList) with
  | mk statements errors =>
      cases errors with
      | nil => simp
      | cons error errors => simp

/-- A source text parses to a program exactly if its tokens before the end marker are a rendering
of that program. -/
theorem parse_eq_ok_iff {source : String} {program : Program} :
    parse source = .ok program ↔
      ∃ tokens, tokenize source = tokens ++ [.eof] ∧ Statements tokens program := by
  rw [parse_eq_ok_iff_readProgram, readProgram_eq_iff]
  constructor
  · intro hstatements
    exact ⟨lexemes source.toList, rfl, hstatements⟩
  · rintro ⟨tokens, htokens, hstatements⟩
    obtain rfl : lexemes source.toList = tokens := List.append_cancel_right htokens
    exact hstatements

end MonkeyLang
