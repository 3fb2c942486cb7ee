import Mathlib.Algebra.Group.Nat.Even
import Mathlib.Data.List.TakeWhile
import MonkeyLang.Proofs.Token.Lexer

/-!
# Texts cut at white space

White space ends every lexeme but a string, so a text is cut at white space into the tokens before
it and those after it, unless a string is open there. Read `lexemes_append` first. A string that is
never closed is the last lexeme of its text (`even_count_quote`).
-/

namespace MonkeyLang

variable {first white : Char} {chars more : List Char}

/-- A run of characters ends at one that fails the test. -/
theorem takeWhile_append_cons {test : Char → Bool} (hwhite : test white = false) :
    (chars ++ white :: more).takeWhile test = chars.takeWhile test := by
  rw [List.takeWhile_append, List.takeWhile_cons_of_neg (by simp [hwhite]), List.append_nil]
  split
  · next hall =>
      exact (List.takeWhile_sublist test).eq_of_length hall |>.symm
  · rfl

/-- What is left after a run of characters is followed by what followed the text. -/
theorem dropWhile_append_cons {test : Char → Bool} (hwhite : test white = false) :
    (chars ++ white :: more).dropWhile test = chars.dropWhile test ++ white :: more := by
  rw [List.dropWhile_append, List.dropWhile_cons_of_neg (by simp [hwhite])]
  split
  · next hall => rw [List.isEmpty_iff.mp hall, List.nil_append]
  · rfl

/-- White space is none of the other characters. -/
theorem ne_of_isWhiteSpace {other : Char} (hwhite : isWhiteSpace white = true)
    (hother : isWhiteSpace other = false) : white ≠ other := by
  rintro rfl
  rw [hwhite] at hother
  cases hother

/-- White space is no part of a word. -/
theorem isWordPart_of_isWhiteSpace (hwhite : isWhiteSpace white = true) :
    isWordPart white = false := by
  rw [Bool.eq_false_iff]
  intro hpart
  exact ne_of_isWhiteSpace hwhite (isWhiteSpace_of_isWordPart hpart) rfl

/-- A run of characters without quotes takes no quote away. -/
theorem count_quote_dropWhile {test : Char → Bool} (hquote : test '"' = false) :
    (chars.dropWhile test).count '"' = chars.count '"' := by
  have hnone : (chars.takeWhile test).count '"' = 0 := by
    rw [List.count_eq_zero]
    intro hmem
    rw [List.all_eq_true.mp List.all_takeWhile '"' hmem] at hquote
    cases hquote
  have hsplit := congrArg (List.count '"') (@List.takeWhile_append_dropWhile Char test chars)
  rwa [List.count_append, hnone, Nat.zero_add] at hsplit

/-! ## Single lexemes -/

/-- A string that is never closed extends to the end of the text. -/
theorem stringLexeme_of_open (hopen : '"' ∉ chars) :
    ∃ text, stringLexeme chars = (.illegal text, []) := by
  have hnone : chars.dropWhile (· != '"') = [] := by
    rw [List.dropWhile_eq_nil_iff]
    intro char hmem
    simp only [bne_iff_ne]
    rintro rfl
    exact hopen hmem
  unfold stringLexeme
  rw [hnone]
  exact ⟨_, rfl⟩

/-- A string that is closed ends at the next quote, whatever follows the text. -/
theorem stringLexeme_of_closed (hclosed : '"' ∈ chars) : ∃ text rest,
    stringLexeme chars = (.str text, rest) ∧
      (∀ more, stringLexeme (chars ++ more) = (.str text, rest ++ more)) ∧
      chars.count '"' = rest.count '"' + 1 := by
  obtain ⟨before, rest, rfl, hbefore⟩ := List.eq_append_cons_of_mem hclosed
  have hother : ∀ char ∈ before, (char != '"') = true := by
    intro char hmem
    simp only [bne_iff_ne]
    rintro rfl
    exact hbefore hmem
  refine ⟨String.ofList before, rest, ?_, fun more => ?_, ?_⟩
  · simp [stringLexeme, List.takeWhile_append_of_pos hother, List.dropWhile_append_of_pos hother]
  · simp [stringLexeme, List.takeWhile_append_of_pos hother, List.dropWhile_append_of_pos hother]
  · simp [List.count_eq_zero.mpr hbefore]

/-- White space ends a lexeme that is not an open string, whatever follows. -/
theorem lexeme_append (hwhite : isWhiteSpace white = true)
    (hclosed : first = '"' → '"' ∈ chars) :
    lexeme first (chars ++ white :: more) =
      ((lexeme first chars).1, (lexeme first chars).2 ++ white :: more) := by
  have hpart := isWordPart_of_isWhiteSpace hwhite
  have hdigit : white.isDigit = false := by
    rw [Bool.eq_false_iff]
    intro hdigit
    rw [isWordPart_iff.mpr (Or.inr hdigit)] at hpart
    cases hpart
  have hne : white ≠ '=' := ne_of_isWhiteSpace hwhite (by decide)
  unfold lexeme
  split
  -- An operator may go on with an equals sign, which white space is not.
  · cases chars with
    | nil => simp [hne]
    | cons next chars => by_cases hnext : next = '=' <;> simp [hnext]
  split
  · cases chars with
    | nil => simp [hne]
    | cons next chars => by_cases hnext : next = '=' <;> simp [hnext]
  split
  · next hquote =>
      obtain ⟨text, rest, hself, hlexeme, _⟩ := stringLexeme_of_closed (hclosed hquote)
      rw [hlexeme, hself]
  split
  · rw [takeWhile_append_cons hpart, dropWhile_append_cons hpart]
  split
  · rw [takeWhile_append_cons hdigit, dropWhile_append_cons hdigit]
  split <;> rfl

/-- A lexeme that is no string takes no quote away. -/
theorem count_quote_lexeme (hfirst : first ≠ '"') :
    (lexeme first chars).2.count '"' = chars.count '"' := by
  have hequals : ∀ rest : List Char, ('=' :: rest).count '"' = rest.count '"' :=
    fun rest => List.count_cons_of_ne (by decide)
  unfold lexeme
  rw [if_neg hfirst]
  split
  · split
    · exact (hequals _).symm
    · rfl
  split
  · split
    · exact (hequals _).symm
    · rfl
  split
  · exact count_quote_dropWhile (by decide)
  split
  · exact count_quote_dropWhile (by decide)
  split <;> rfl

/-- A lexeme that is not an open string takes quotes away in pairs. -/
theorem even_count_quote_lexeme (hclosed : first = '"' → '"' ∈ chars) :
    Even ((first :: chars).count '"') ↔ Even ((lexeme first chars).2.count '"') := by
  by_cases hfirst : first = '"'
  · subst hfirst
    obtain ⟨text, rest, hself, _, hcount⟩ := stringLexeme_of_closed (hclosed rfl)
    have hrest : (lexeme '"' chars).2 = rest := congrArg Prod.snd hself
    rw [hrest, List.count_cons_self, hcount, Nat.even_add_one, Nat.even_add_one, not_not]
  · rw [List.count_cons_of_ne hfirst, count_quote_lexeme hfirst]

/-! ## Whole texts -/

/-- A text with an even number of quotes is cut into its tokens before white space, whatever
follows. -/
theorem lexemes_append (hwhite : isWhiteSpace white = true) (heven : Even (chars.count '"')) :
    lexemes (chars ++ white :: more) = lexemes chars ++ lexemes more := by
  fun_induction lexemes chars with
  | case1 => exact lexemes_of_isWhiteSpace hwhite more
  | case2 first rest hfirst ih =>
      rw [List.count_cons_of_ne (ne_of_isWhiteSpace hfirst (by decide))] at heven
      rw [List.cons_append, lexemes_of_isWhiteSpace hfirst]
      exact ih heven
  | case3 first rest hfirst ih =>
      -- One quote alone would be an odd number.
      have hclosed : first = '"' → '"' ∈ rest := by
        rintro rfl
        by_contra hopen
        rw [List.count_cons_self, List.count_eq_zero.mpr hopen] at heven
        revert heven
        decide
      rw [List.cons_append, lexemes_of_not_isWhiteSpace (by simpa using hfirst),
        lexeme_append hwhite hclosed, ih ((even_count_quote_lexeme hclosed).mp heven)]
      rfl

/-- A text with an odd number of quotes ends with an illegal lexeme: the string that is open. -/
theorem even_count_quote (hlast : ∀ text, (lexemes chars).getLast? ≠ some (.illegal text)) :
    Even (chars.count '"') := by
  fun_induction lexemes chars with
  | case1 => exact Even.zero
  | case2 first rest hfirst ih =>
      rw [List.count_cons_of_ne (ne_of_isWhiteSpace hfirst (by decide))]
      exact ih hlast
  | case3 first rest hfirst ih =>
      have hclosed : first = '"' → '"' ∈ rest := by
        rintro rfl
        by_contra hopen
        obtain ⟨text, hlexeme⟩ := stringLexeme_of_open hopen
        have hself : lexeme '"' rest = (.illegal text, []) := hlexeme
        rw [hself] at hlast
        exact hlast text (by rw [lexemes]; rfl)
      rw [even_count_quote_lexeme hclosed]
      refine ih fun text hillegal => hlast text ?_
      rw [List.getLast?_cons, hillegal]
      rfl

end MonkeyLang
