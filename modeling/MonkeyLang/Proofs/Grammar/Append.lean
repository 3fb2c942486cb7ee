import Mathlib
import MonkeyLang.Proofs.Grammar.Parse
import MonkeyLang.Proofs.Token.Compose

/-!
# Programs after programs

A program that ends with a semicolon does not influence how the tokens behind it are read: read
`readProgram_append`. With a line feed between them, source texts compose in the same way
(`parseWithErrors_append`).
-/

namespace MonkeyLang

namespace Grammar

/-- The last token is a semicolon, or there is none. -/
def Complete (tokens : List Token) : Prop :=
  ∀ token ∈ tokens.getLast?, token = .semicolon

variable {tokens : List Token} {expr : Expr}

/-- Tokens behind others are complete if all of them are. -/
theorem Complete.of_append {front : List Token} (h : Complete (front ++ tokens)) :
    Complete tokens := by
  intro token htoken
  refine h token ?_
  rw [Option.mem_def] at htoken ⊢
  rw [List.getLast?_append, htoken]
  rfl

/-- The tokens end with one that is no semicolon. -/
def Unfinished (tokens : List Token) : Prop :=
  ∃ token, tokens.getLast? = some token ∧ token ≠ .semicolon

/-- What stands in front does not change how tokens end. -/
theorem Unfinished.prepend (front : List Token) (h : Unfinished tokens) :
    Unfinished (front ++ tokens) := by
  obtain ⟨token, hlast, htoken⟩ := h
  exact ⟨token, by rw [List.getLast?_append, hlast]; rfl, htoken⟩

/-- Unfinished tokens are not complete. -/
theorem Unfinished.not_complete (h : Unfinished tokens) : ¬ Complete tokens := by
  obtain ⟨token, hlast, htoken⟩ := h
  exact fun hcomplete => htoken (hcomplete token hlast)

/-- A primary expression ends with a name, a literal or a closing bracket. -/
theorem Primary.unfinished (h : Primary tokens expr) : Unfinished tokens := by
  cases h <;> simp [Unfinished, List.getLast?_append, List.getLast?_cons]

/-- An expression ends with a token that belongs to it. -/
theorem Phrase.unfinished : ∀ {level : Level} {tokens : List Token} {expr : Expr},
    Phrase level tokens expr → Unfinished tokens
  | _, _, _, .primary h => h.unfinished
  | _, _, _, .loosen _ h => h.unfinished
  | _, _, _, @Phrase.unary op _ _ h => h.unfinished.prepend [op.token]
  | _, _, _, @Phrase.binary op _ leftTokens _ _ _ _ _ h => by
      simpa using h.unfinished.prepend (leftTokens ++ [op.token])
  | _, _, _, .call _ _ => by simp [Unfinished, List.getLast?_append, List.getLast?_cons]
  | _, _, _, .index _ _ => by simp [Unfinished, List.getLast?_append, List.getLast?_cons]

/-- A statement ends with a token that belongs to it. -/
theorem Statement.unfinished {statement : Stmt} (h : Statement tokens statement) :
    Unfinished tokens := by
  cases h with
  | bind name h => exact h.unfinished.prepend [.kwLet, .ident name, .assign]
  | ret h => exact h.unfinished.prepend [.kwReturn]
  | expr h => exact h.unfinished

/-- A statement is read in front of what ends it, and the rest is read on its own. -/
theorem Statement.readProgram_append {statement : Stmt} {rest : List Token}
    (h : Statement tokens statement) (hends : Ends rest) :
    readProgram (tokens ++ rest) = ⟨statement :: (readProgram (skipSemicolon rest)).program,
      (readProgram (skipSemicolon rest)).errors⟩ := by
  obtain ⟨token, left, rfl, _⟩ := h.starts
  have hread := h.reads hends
  rw [List.cons_append] at hread ⊢
  obtain ⟨_, hdone⟩ := hread.eq_done
  rw [readProgram, hdone]
  rfl

/-- Statements that end with a semicolon are read in front of any tokens, which are read on their
own. -/
theorem Statements.readProgram_append (rest : List Token) : ∀ {tokens : List Token}
    {statements : List Stmt}, Statements tokens statements → Complete tokens →
    readProgram (tokens ++ rest) =
      ⟨statements ++ (readProgram rest).program, (readProgram rest).errors⟩
  | _, _, .nil, _ => rfl
  | _, _, @Statements.closed tokens _ _ _ h hrest, hcomplete => by
      have hcomplete' := (List.append_cons tokens _ _ ▸ hcomplete).of_append
      rw [List.append_assoc, List.cons_append,
        h.readProgram_append (ends_cons (by decide) (by decide)), skipSemicolon,
        hrest.readProgram_append rest hcomplete']
      rfl
  | _, _, @Statements.unclosed tokens restTokens _ _ h hnext hrest, hcomplete => by
      -- More statements follow, because a statement does not end with a semicolon.
      obtain rfl | ⟨next, left, rfl, hfirst⟩ := hrest.starts
      · rw [List.append_nil] at hcomplete
        exact absurd hcomplete h.unfinished.not_complete
      have hends : Ends (next :: left ++ rest) := by
        refine ends_cons ?_ (hnext next rfl)
        rintro rfl
        simp at hfirst
      have hskip : skipSemicolon (next :: left ++ rest) = next :: left ++ rest := by
        rw [List.cons_append, skipSemicolon]
        rintro left' ⟨rfl, _⟩
        simp at hfirst
      rw [List.append_assoc, h.readProgram_append hends, hskip,
        hrest.readProgram_append rest hcomplete.of_append]
      rfl

end Grammar

open Grammar

/-- A text that parses and ends with a semicolon does not influence how the text on the lines behind
it is parsed: the statements of both are found, and the errors of the second. -/
theorem parseWithErrors_append {first second : String} {program : Program}
    (hparse : parse first = .ok program) (hcomplete : Complete (lexemes first.toList)) :
    parseWithErrors (first ++ "\n" ++ second) =
      ⟨program ++ (parseWithErrors second).program, (parseWithErrors second).errors⟩ := by
  have heven : Even (first.toList.count '"') := by
    refine even_count_quote fun text hlast => ?_
    cases hcomplete _ hlast
  have hlexemes : lexemes (first ++ "\n" ++ second).toList =
      lexemes first.toList ++ lexemes second.toList := by
    rw [String.toList_append, String.toList_append, List.append_assoc]
    exact lexemes_append (by decide) heven
  have hstatements : Statements (lexemes first.toList) program :=
    readProgram_eq_iff.mp (parse_eq_ok_iff_readProgram.mp hparse)
  unfold parseWithErrors
  rw [hlexemes]
  exact hstatements.readProgram_append (lexemes second.toList) hcomplete

/-- Texts that parse, of which the first one ends with a semicolon, parse as one text on lines of
their own. -/
theorem parse_append {first second : String} {program other : Program}
    (hparse : parse first = .ok program) (hcomplete : Complete (lexemes first.toList))
    (hother : parse second = .ok other) :
    parse (first ++ "\n" ++ second) = .ok (program ++ other) := by
  have hsecond : parseWithErrors second = ⟨other, []⟩ := parse_eq_ok_iff_readProgram.mp hother
  refine parse_eq_ok_iff_readProgram.mpr ((parseWithErrors_append hparse hcomplete).trans ?_)
  rw [hsecond]

/-- Let a text parse, and let the last of its tokens before the end marker be a semicolon, if it has
any. Whatever text stands on the lines behind it, malformed or not, the parser finds the statements
of the first text and then those that it finds in the second one alone, with the messages that it
has for the second one alone. So the whole is accepted exactly if the second text is. -/
theorem parse_behind_complete {first : String} {program : Program}
    (hparse : parse first = .ok program) (hlast : Complete (tokenize first).dropLast)
    (second : String) :
    (parseWithErrors (first ++ "\n" ++ second)).program =
      program ++ (parseWithErrors second).program ∧
    (parseWithErrors (first ++ "\n" ++ second)).errors.map ParseError.message =
      (parseWithErrors second).errors.map ParseError.message ∧
    parse (first ++ "\n" ++ second) = (parse second).map (program ++ ·) := by
  have hcomplete : Complete (lexemes first.toList) := by
    rwa [tokenize, List.dropLast_concat] at hlast
  have hjoined : parseWithErrors (first ++ "\n" ++ second) =
      ⟨program ++ (parseWithErrors second).program, (parseWithErrors second).errors⟩ :=
    parseWithErrors_append hparse hcomplete
  refine ⟨by rw [hjoined], by rw [hjoined], ?_⟩
  show (if _ then _ else _) = Except.map _ (if _ then _ else _)
  rw [hjoined]
  split <;> rfl

/-- Without the semicolon the second text would go on as a call. Its own last statement is cut off,
which is its only message. -/
theorem parse_behind_complete_bracket :
    parse "f;" = .ok [.expr (.ident "f")] ∧ Complete (tokenize "f;").dropLast ∧
    (parseWithErrors ("f;" ++ "\n" ++ "(g) \x7b 1")).program =
      [.expr (.ident "f"), .expr (.ident "g")] ∧
    (parseWithErrors ("f;" ++ "\n" ++ "(g) \x7b 1")).errors.map ParseError.message =
      ["expected next token to be :, got EOF instead"] := by
  have hparse : parse "f;" = .ok [.expr (.ident "f")] := by cbv
  have htokens : (tokenize "f;").dropLast = [.ident "f", .semicolon] := by cbv
  have hlast : Complete (tokenize "f;").dropLast := by
    intro token hmem
    rw [htokens] at hmem
    exact (Option.some.inj hmem).symm
  have hsecond : parseWithErrors "(g) \x7b 1" =
      ⟨[.expr (.ident "g")], [.unexpected .colon .eof]⟩ := by cbv
  obtain ⟨hprogram, hmessages, -⟩ := parse_behind_complete hparse hlast "(g) \x7b 1"
  rw [hsecond] at hprogram hmessages
  exact ⟨hparse, hlast, hprogram, hmessages⟩

end MonkeyLang
