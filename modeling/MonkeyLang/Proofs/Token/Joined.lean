import MonkeyLang.Proofs.Token.Lossless

/-!
# Texts joined by white space

Two texts with white space between them have the tokens of the first and then those of the second
precisely when the first leaves no string open, which is when its quotes come in pairs: read
`tokenize_joined_iff`. Tokens spelled out with blanks between them are such texts, and are read back
as they were unless an illegal one is among them (`tokenize_spelled_iff`).
-/

namespace MonkeyLang

variable {white : Char} {chars more : List Char}

/-! ## Two texts -/

/-- White space in front of a text is skipped. -/
theorem lexemes_append_of_isWhiteSpace (hwhite : ∀ char ∈ chars, isWhiteSpace char = true)
    (more : List Char) : lexemes (chars ++ more) = lexemes more := by
  induction chars with
  | nil => rfl
  | cons char chars ih =>
      obtain ⟨hchar, hchars⟩ := List.forall_mem_cons.mp hwhite
      rw [List.cons_append, lexemes_of_isWhiteSpace hchar, ih hchars]

/-- A string that is open at the end of a text is another lexeme when text is put behind it. -/
theorem stringLexeme_append_ne (hopen : '"' ∉ chars) (hmore : more ≠ []) :
    (stringLexeme (chars ++ more)).1 ≠ (stringLexeme chars).1 := by
  rcases stringLexeme_cases chars with ⟨inner, rest, _, rfl, _⟩ | ⟨_, hself⟩
  · simp at hopen
  · rcases stringLexeme_cases (chars ++ more) with ⟨inner, rest, _, _, hlonger⟩ | ⟨_, hlonger⟩
    · rw [hself, hlonger]
      nofun
    · -- the illegal text goes on to the end of the longer text
      rw [hself, hlonger]
      intro hsame
      have htexts := String.ofList_inj.mp (Token.illegal.inj hsame)
      exact hmore (List.append_right_eq_self.mp (List.cons.inj htexts).2)

/-- A text is cut at white space behind it precisely if its quotes come in pairs. -/
theorem lexemes_append_iff (hwhite : isWhiteSpace white = true) :
    lexemes (chars ++ white :: more) = lexemes chars ++ lexemes more ↔
      Even (chars.count '"') := by
  refine ⟨fun hcut => ?_, lexemes_append hwhite⟩
  fun_induction lexemes chars with
  | case1 => exact Even.zero
  | case2 first rest hfirst ih =>
      rw [List.count_cons_of_ne (ne_of_isWhiteSpace hfirst (by decide))]
      rw [List.cons_append, lexemes_of_isWhiteSpace hfirst] at hcut
      exact ih hcut
  | case3 first rest hfirst ih =>
      rw [List.cons_append, lexemes_of_not_isWhiteSpace (by simpa using hfirst),
        List.cons_append] at hcut
      obtain ⟨hsame, hrest⟩ := List.cons.inj hcut
      have hclosed : first = '"' → '"' ∈ rest := by
        rintro rfl
        by_contra hopen
        exact stringLexeme_append_ne hopen (List.cons_ne_nil white more) hsame
      rw [lexeme_append hwhite hclosed] at hrest
      exact (even_count_quote_lexeme hclosed).mpr (ih hrest)

/-- Texts joined by white space have the tokens of the first text and behind them those of the
second, whatever the texts are, if and only if the first has an even number of quotes. -/
theorem tokenize_joined_iff {white : String} (hnonempty : white ≠ "")
    (hwhite : ∀ char ∈ white.toList, isWhiteSpace char = true) (first second : String) :
    ∃ tokens, tokenize first = tokens ++ [.eof] ∧
      (tokenize (first ++ white ++ second) = tokens ++ tokenize second ↔
        Even (first.toList.count '"')) := by
  refine ⟨lexemes first.toList, rfl, ?_⟩
  obtain ⟨char, chars, hchars⟩ :=
    List.exists_cons_of_ne_nil (mt String.toList_eq_nil_iff.mp hnonempty)
  rw [hchars] at hwhite
  obtain ⟨hchar, hrest⟩ := List.forall_mem_cons.mp hwhite
  have htext : (first ++ white ++ second).toList =
      first.toList ++ char :: (chars ++ second.toList) := by
    rw [String.toList_append, String.toList_append, hchars, List.append_assoc, List.cons_append]
  rw [tokenize, tokenize, htext, ← List.append_assoc, List.append_cancel_right_eq,
    ← lexemes_append_iff hchar, lexemes_append_of_isWhiteSpace hrest]

/-- The first text ends in a sign that would take the next one along, there are illegal characters
in both, and the second leaves a string open. -/
theorem tokenize_joined_iff_signs :
    let first : String := "x@ != \"a =\t b\" ="
    let white : String := "\u3000\n"
    let second : String := "= 5$ \"c d"
    white ≠ "" ∧ (∀ char ∈ white.toList, isWhiteSpace char = true) ∧
      Even (first.toList.count '"') ∧
      tokenize (first ++ white ++ second) =
        [.ident "x", .illegal "@", .notEq, .str "a =\t b", .assign, .assign, .int "5",
          .illegal "$", .illegal "\"c d", .eof] := by
  intro first white second
  have hwhite : ∀ char ∈ white.toList, isWhiteSpace char = true :=
    List.all_eq_true.mp (by decide)
  have heven : Even (first.toList.count '"') := by decide
  have hfirst : tokenize first =
      [.ident "x", .illegal "@", .notEq, .str "a =\t b", .assign] ++ [.eof] := by decide +kernel
  have hsecond : tokenize second =
      [.assign, .int "5", .illegal "$", .illegal "\"c d", .eof] := by decide +kernel
  obtain ⟨tokens, htokens, hiff⟩ := tokenize_joined_iff (by decide) hwhite first second
  rw [hfirst, List.append_cancel_right_eq] at htokens
  refine ⟨by decide, hwhite, heven, ?_⟩
  rw [hiff.mpr heven, hsecond, ← htokens]
  rfl

/-! ## Tokens spelled out -/

/-- The spellings of tokens with blanks between them. -/
def spelled (tokens : List Token) : String :=
  " ".intercalate (tokens.map Token.spelling)

/-- No tokens are spelled as no text. -/
theorem spelled_nil : spelled [] = "" :=
  String.intercalate_nil

/-- One token has no blanks around it. -/
theorem spelled_singleton (token : Token) : spelled [token] = token.spelling :=
  String.intercalate_singleton

/-- A blank stands between a token and those behind it. -/
theorem spelled_cons_cons (token next : Token) (tokens : List Token) :
    spelled (token :: next :: tokens) = token.spelling ++ " " ++ spelled (next :: tokens) :=
  String.intercalate_cons_cons

/-- Whether a token is illegal, or its spelling has no other token and leaves no string open. -/
inductive Token.ReadsBack : Token → Prop where
  | illegal (text : String) : ReadsBack (.illegal text)
  | legal {token : Token} : lexemes token.spelling.toList = [token] →
      Even (token.spelling.toList.count '"') → ReadsBack token

/-- A word is spelled as it is read. -/
theorem spelling_ofWord (word : String) : (Token.ofWord word).spelling = word := by
  unfold Token.ofWord
  repeat' split
  all_goals first | rfl | exact Eq.symm ‹_›

/-- A symbol is spelled with its character. -/
theorem spelling_ofSymbol? {char : Char} {token : Token}
    (hsymbol : Token.ofSymbol? char = some token) : token.spelling.toList = [char] := by
  unfold Token.ofSymbol? at hsymbol
  split at hsymbol
  all_goals first
    | cases hsymbol
      rfl
    | cases hsymbol

/-- No text has no tokens. -/
theorem lexemes_nil : lexemes [] = [] := by
  rw [lexemes]

/-- A text of parts of words has no quotes. -/
theorem even_count_quote_of_isWordPart (hchars : ∀ char ∈ chars, isWordPart char) :
    Even (chars.count '"') := by
  have hnone : chars.count '"' = 0 := by
    rw [List.count_eq_zero]
    exact fun hmem => absurd (hchars '"' hmem) (by decide)
  rw [hnone]
  exact Even.zero

namespace Token.ReadsBack

variable {first : Char} {more : List Char}

/-- A string without quotes in it reads back. -/
theorem str {inner : List Char} (hinner : '"' ∉ inner) :
    (Token.str (String.ofList inner)).ReadsBack := by
  have hspelling : (Token.str (String.ofList inner)).spelling.toList = '"' :: (inner ++ ['"']) := by
    simp [Token.spelling]
  refine .legal ?_ ?_
  · rw [hspelling, lexemes_of_quoted hinner, lexemes_nil]
  · rw [hspelling, List.count_cons_self, List.count_append, List.count_eq_zero.mpr hinner]
    decide

/-- A word reads back. -/
theorem word (hfirst : isWordStart first) (hmore : ∀ char ∈ more, isWordPart char) :
    (Token.ofWord (String.ofList (first :: more))).ReadsBack := by
  have hspelling : (Token.ofWord (String.ofList (first :: more))).spelling.toList =
      first :: more := by
    rw [spelling_ofWord, String.toList_ofList]
  have hword := @lexemes_of_word first more [] hfirst hmore nofun
  rw [List.append_nil, lexemes_nil] at hword
  refine .legal ?_ ?_
  · rw [hspelling, hword]
  · rw [hspelling]
    exact even_count_quote_of_isWordPart
      (List.forall_mem_cons.mpr ⟨isWordPart_iff.mpr (Or.inl hfirst), hmore⟩)

/-- A number reads back. -/
theorem int (hfirst : first.isDigit) (hmore : ∀ char ∈ more, char.isDigit) :
    (Token.int (String.ofList (first :: more))).ReadsBack := by
  have hspelling : (Token.int (String.ofList (first :: more))).spelling.toList = first :: more :=
    String.toList_ofList
  have hnumber := @lexemes_of_digits first more [] hfirst hmore nofun
  rw [List.append_nil, lexemes_nil] at hnumber
  have hparts : ∀ char ∈ first :: more, isWordPart char :=
    List.forall_mem_cons.mpr ⟨isWordPart_iff.mpr (Or.inr hfirst),
      fun char hmem => isWordPart_iff.mpr (Or.inr (hmore char hmem))⟩
  refine .legal ?_ ?_
  · rw [hspelling, hnumber]
  · rw [hspelling]
    exact even_count_quote_of_isWordPart hparts

/-- A symbol reads back. -/
theorem symbol {token : Token} (hsymbol : Token.ofSymbol? first = some token) :
    token.ReadsBack := by
  obtain ⟨_, _, _, hquote, _⟩ := not_start_of_ofSymbol? hsymbol
  refine .legal ?_ ?_
  · rw [spelling_ofSymbol? hsymbol, lexemes_of_ofSymbol? hsymbol, lexemes_nil]
  · rw [spelling_ofSymbol? hsymbol, List.count_cons_of_ne hquote]
    exact Even.zero

end Token.ReadsBack

/-- Every lexeme reads back. -/
theorem readsBack_lexeme (first : Char) (chars : List Char) :
    (lexeme first chars).1.ReadsBack := by
  have hassign : Token.assign.ReadsBack := .legal (by decide +kernel) (by decide)
  have heq : Token.eq.ReadsBack := .legal (by decide +kernel) (by decide)
  have hbang : Token.bang.ReadsBack := .legal (by decide +kernel) (by decide)
  have hnotEq : Token.notEq.ReadsBack := .legal (by decide +kernel) (by decide)
  unfold lexeme
  split
  · split
    · exact heq
    · exact hassign
  split
  · split
    · exact hnotEq
    · exact hbang
  split
  · rcases stringLexeme_cases chars with ⟨inner, rest, hinner, _, hlexeme⟩ | ⟨_, hlexeme⟩
    · rw [hlexeme]
      exact .str hinner
    · rw [hlexeme]
      exact .illegal _
  split
  · next hstart => exact .word hstart (List.all_eq_true.mp List.all_takeWhile)
  split
  · next hdigit => exact .int hdigit (List.all_eq_true.mp List.all_takeWhile)
  split
  · next token hsymbol => exact .symbol hsymbol
  · exact .illegal _

/-- Every token of a text reads back. -/
theorem readsBack_of_mem_lexemes {token : Token} (hmem : token ∈ lexemes chars) :
    token.ReadsBack := by
  fun_induction lexemes chars with
  | case1 => cases hmem
  | case2 first rest hwhite ih => exact ih hmem
  | case3 first rest hwhite ih =>
      rcases List.mem_cons.mp hmem with rfl | hrest
      · exact readsBack_lexeme first rest
      · exact ih hrest

/-- A legal token in front of others is read back in front of them. -/
theorem lexemes_spelled_cons {token : Token} (hself : lexemes token.spelling.toList = [token])
    (heven : Even (token.spelling.toList.count '"')) (tokens : List Token) :
    lexemes (spelled (token :: tokens)).toList = token :: lexemes (spelled tokens).toList := by
  cases tokens with
  | nil => rw [spelled_singleton, hself, spelled_nil, String.toList_empty, lexemes_nil]
  | cons next tokens =>
      have htext : (spelled (token :: next :: tokens)).toList =
          token.spelling.toList ++ ' ' :: (spelled (next :: tokens)).toList := by
        rw [spelled_cons_cons, String.toList_append, String.toList_append, List.append_assoc]
        rfl
      rw [htext, lexemes_append (by decide) heven, hself, List.singleton_append]

/-- An illegal token is read back as a word. -/
theorem lexemes_spelled_illegal (text : String) (tokens : List Token) :
    ∃ others, lexemes (spelled (.illegal text :: tokens)).toList = .ident "ILLEGAL" :: others := by
  -- the spelling starts with the word and a parenthesis, whatever the text is
  have hspelled : ∃ rest, spelled (.illegal text :: tokens) = "ILLEGAL(" ++ rest := by
    cases tokens with
    | nil => exact ⟨text ++ ")", (spelled_singleton _).trans String.append_assoc⟩
    | cons next tokens =>
        refine ⟨text ++ ")" ++ " " ++ spelled (next :: tokens), ?_⟩
        rw [spelled_cons_cons, Token.spelling]
        simp only [String.append_assoc]
  obtain ⟨rest, hspelled⟩ := hspelled
  have hparts : ∀ char ∈ "LLEGAL".toList, isWordPart char := List.all_eq_true.mp rfl
  have hseparates : Separates ('(' :: rest.toList) := by
    rintro char ⟨⟩
    decide
  have htext : ("ILLEGAL(" ++ rest).toList = 'I' :: ("LLEGAL".toList ++ '(' :: rest.toList) := by
    rw [String.toList_append]
    rfl
  refine ⟨lexemes ('(' :: rest.toList), ?_⟩
  rw [hspelled, htext, lexemes_of_word (by decide) hparts hseparates]
  rfl

/-- Tokens that read back one by one are read back together precisely if none is illegal. -/
theorem lexemes_spelled_iff {tokens : List Token} (hback : ∀ token ∈ tokens, token.ReadsBack) :
    lexemes (spelled tokens).toList = tokens ↔ ∀ text, .illegal text ∉ tokens := by
  induction tokens with
  | nil =>
      have hnone : lexemes (spelled []).toList = [] := by
        rw [spelled_nil, String.toList_empty, lexemes_nil]
      exact iff_of_true hnone fun _ => List.not_mem_nil
  | cons token tokens ih =>
      obtain ⟨htoken, hrest⟩ := List.forall_mem_cons.mp hback
      cases htoken with
      | illegal text =>
          obtain ⟨others, hothers⟩ := lexemes_spelled_illegal text tokens
          rw [hothers]
          refine iff_of_false (fun hsame => ?_) fun hnone => hnone text List.mem_cons_self
          cases (List.cons.inj hsame).1
      | legal hself heven =>
          have hlegal : ∀ text, .illegal text ≠ token := by
            rintro text rfl
            obtain ⟨others, hothers⟩ := lexemes_spelled_illegal text []
            cases (hself.symm.trans hothers)
          rw [lexemes_spelled_cons hself heven, List.cons_inj_right, ih hrest]
          refine forall_congr' fun text => ?_
          rw [List.mem_cons, not_or, and_iff_right (hlegal text)]

/-- The tokens of a text, spelled out with blanks between them, are the tokens of the new text, if
and only if none of them is illegal. -/
theorem tokenize_spelled_iff (source : String) :
    tokenize (spelled ((tokenize source).filter (· ≠ .eof))) = tokenize source ↔
      ∀ text, .illegal text ∉ tokenize source := by
  have hneof : ∀ token ∈ lexemes source.toList, decide (token ≠ .eof) = true := by
    intro token hmem
    rw [decide_eq_true_iff]
    rintro rfl
    exact eof_not_mem_lexemes _ hmem
  have htokens : (tokenize source).filter (· ≠ .eof) = lexemes source.toList := by
    rw [tokenize, List.filter_append, List.filter_eq_self.mpr hneof]
    exact List.append_nil _
  rw [htokens, tokenize, tokenize, List.append_cancel_right_eq,
    lexemes_spelled_iff fun token hmem => readsBack_of_mem_lexemes hmem]
  refine forall_congr' fun text => ?_
  simp

end MonkeyLang
