import MonkeyLang.Token.Lexer

/-!
# Which texts are cut into which tokens

`Cuts text tokens` says that a text is cut into the tokens whatever follows it, and
`CutsApart text tokens` that it is if no part of a word follows. Both are kept when texts are put
together (`Cuts.append`, `Cuts.appendApart`, `CutsApart.append`, `CutsApart.intercalate`), so how
a longer text is cut follows from its pieces. The other way round, `lexed_of_mem_lexemes` says what
the names and strings among the tokens of a text are made of.
-/

namespace MonkeyLang

/-- Whether a text does not continue a word that ends before it. -/
def Separates (chars : List Char) : Prop :=
  ∀ char ∈ chars.head?, isWordPart char = false

/-- The text is cut into the tokens, whatever follows it. -/
def Cuts (text : String) (tokens : List Token) : Prop :=
  ∀ rest, lexemes (text.toList ++ rest) = tokens ++ lexemes rest

/-- The text is cut into the tokens if no part of a word follows it. -/
def CutsApart (text : String) (tokens : List Token) : Prop :=
  ∀ rest, Separates rest → lexemes (text.toList ++ rest) = tokens ++ lexemes rest

/-- The text is cut into the tokens, whatever follows it, and continues no word before it. -/
structure Punctuates (text : String) (tokens : List Token) : Prop where
  cuts : Cuts text tokens
  separates : ∀ rest, Separates (text.toList ++ rest)

/-- Whether a text is read as an identifier: a letter or an underscore, then letters, digits and
underscores, and not a keyword. -/
structure IsIdentifier (name : String) : Prop where
  spelled : ∃ first rest, name.toList = first :: rest ∧ isWordStart first ∧
    ∀ char ∈ rest, isWordPart char
  ofWord_eq : Token.ofWord name = .ident name

/-! ## Texts put together -/

section Compose

variable {first second : String} {firstTokens secondTokens : List Token}

/-- What is cut whatever follows is cut apart. -/
theorem Cuts.apart (hcuts : Cuts first firstTokens) : CutsApart first firstTokens :=
  fun rest _ => hcuts rest

/-- A text before another one, where neither minds what follows. -/
theorem Cuts.append (hfirst : Cuts first firstTokens) (hsecond : Cuts second secondTokens) :
    Cuts (first ++ second) (firstTokens ++ secondTokens) := by
  intro rest
  rw [String.toList_append, List.append_assoc, hfirst, hsecond, List.append_assoc]

/-- A text before one that minds what follows. -/
theorem Cuts.appendApart (hfirst : Cuts first firstTokens)
    (hsecond : CutsApart second secondTokens) :
    CutsApart (first ++ second) (firstTokens ++ secondTokens) := by
  intro rest hrest
  rw [String.toList_append, List.append_assoc, hfirst, hsecond rest hrest, List.append_assoc]

/-- A text that minds what follows, before one that continues no word. -/
theorem CutsApart.append (hfirst : CutsApart first firstTokens)
    (hsecond : Punctuates second secondTokens) :
    Cuts (first ++ second) (firstTokens ++ secondTokens) := by
  intro rest
  rw [String.toList_append, List.append_assoc, hfirst _ (hsecond.separates rest), hsecond.cuts,
    List.append_assoc]

/-- The empty text has no tokens. -/
theorem cuts_empty : Cuts "" [] :=
  fun _ => rfl

/-- Texts between separators are cut one by one. -/
theorem CutsApart.intercalate {α : Type} {separator : String} {separatorTokens : List Token}
    {render : α → String} {tokens : α → List Token}
    (hseparator : Punctuates separator separatorTokens) (items : List α)
    (hitems : ∀ item ∈ items, CutsApart (render item) (tokens item)) :
    CutsApart (separator.intercalate (items.map render))
      (separatorTokens.intercalate (items.map tokens)) := by
  induction items with
  | nil => exact cuts_empty.apart
  | cons item items ih =>
      have hitem := hitems item (List.mem_cons_self ..)
      cases items with
      | nil =>
          rw [List.map_singleton, List.map_singleton, String.intercalate_singleton,
            List.intercalate_singleton]
          exact hitem
      | cons next items =>
          have hrest := ih fun other hmem => hitems other (List.mem_cons_of_mem item hmem)
          have hjoined := (hitem.append hseparator).appendApart hrest
          simp only [List.map_cons, String.intercalate_cons_cons, List.intercalate_cons_cons,
            List.append_assoc] at hjoined ⊢
          exact hjoined

end Compose

/-! ## Single lexemes -/

/-- White space is skipped. -/
theorem lexemes_of_isWhiteSpace {char : Char} (hwhite : isWhiteSpace char = true)
    (rest : List Char) : lexemes (char :: rest) = lexemes rest := by
  rw [lexemes, if_pos hwhite]

/-- Any other character starts a lexeme. -/
theorem lexemes_of_not_isWhiteSpace {char : Char} (hwhite : isWhiteSpace char = false)
    (rest : List Char) :
    lexemes (char :: rest) = (lexeme char rest).1 :: lexemes (lexeme char rest).2 := by
  rw [lexemes, if_neg (by simp [hwhite])]

/-- The visible characters of ASCII are no white space. -/
theorem isWhiteSpace_of_visible {char : Char} (hlow : 0x20 < char.toNat)
    (hhigh : char.toNat < 0x7F) : isWhiteSpace char = false := by
  rw [isWhiteSpace, List.any_eq_false]
  intro range hrange
  simp only [whiteSpaceRanges, List.mem_cons, List.not_mem_nil, or_false] at hrange
  simp only [Bool.and_eq_true, decide_eq_true_eq]
  rcases hrange with rfl | rfl | rfl | rfl | rfl | rfl | rfl | rfl | rfl | rfl
  all_goals
    intro hinside
    omega

/-- The digits of ASCII. -/
theorem isDigit_iff {char : Char} : char.isDigit ↔ 48 ≤ char.toNat ∧ char.toNat ≤ 57 := by
  simp only [Char.isDigit, Bool.and_eq_true, decide_eq_true_eq, UInt32.le_iff_toNat_le]
  exact Iff.rfl

/-- The letters of ASCII and the underscore. -/
theorem isWordStart_iff {char : Char} : isWordStart char ↔
    (65 ≤ char.toNat ∧ char.toNat ≤ 90 ∨ 97 ≤ char.toNat ∧ char.toNat ≤ 122) ∨
      char.toNat = 95 := by
  have hunfold : isWordStart char =
      ((decide ('A'.val ≤ char.val ∧ char.val ≤ 'Z'.val) ||
        ('a'.val ≤ char.val && char.val ≤ 'z'.val)) || char == '_') := rfl
  have hunderscore : char = '_' ↔ char.toNat = 95 := Char.toNat_inj.symm
  simp only [hunfold, Bool.or_eq_true, Bool.and_eq_true, decide_eq_true_eq, beq_iff_eq,
    UInt32.le_iff_toNat_le, hunderscore]
  exact Iff.rfl

/-- What starts a word is no digit. -/
theorem isDigit_of_isWordStart {char : Char} (hstart : isWordStart char) :
    char.isDigit = false := by
  rw [isWordStart_iff] at hstart
  rw [Bool.eq_false_iff, ne_eq, isDigit_iff]
  omega

/-- A part of a word is a start of a word or a digit. -/
theorem isWordPart_iff {char : Char} : isWordPart char ↔ isWordStart char ∨ char.isDigit := by
  simp only [isWordPart, isWordStart, Char.isAlphanum, Bool.or_eq_true]
  rw [or_right_comm]

/-- A symbol starts no other kind of lexeme. -/
theorem not_start_of_ofSymbol? {char : Char} {token : Token}
    (hsymbol : Token.ofSymbol? char = some token) :
    isWhiteSpace char = false ∧ char ≠ '=' ∧ char ≠ '!' ∧ char ≠ '"' ∧
      isWordStart char = false ∧ char.isDigit = false := by
  unfold Token.ofSymbol? at hsymbol
  split at hsymbol
  all_goals first | decide | cases hsymbol

/-- A symbol is a lexeme whatever follows it. -/
theorem lexemes_of_ofSymbol? {char : Char} {token : Token}
    (hsymbol : Token.ofSymbol? char = some token) (rest : List Char) :
    lexemes (char :: rest) = token :: lexemes rest := by
  obtain ⟨hwhite, hassign, hbang, hquote, hstart, hdigit⟩ := not_start_of_ofSymbol? hsymbol
  rw [lexemes_of_not_isWhiteSpace hwhite]
  simp [lexeme, hassign, hbang, hquote, hstart, hdigit, hsymbol]

/-- A part of a word is visible. -/
theorem isWhiteSpace_of_isWordPart {char : Char} (hpart : isWordPart char) :
    isWhiteSpace char = false := by
  rw [isWordPart_iff, isWordStart_iff, isDigit_iff] at hpart
  exact isWhiteSpace_of_visible (by omega) (by omega)

/-- Whether a character is white space or a symbol. -/
def isPunctuation (char : Char) : Bool :=
  isWhiteSpace char || (Token.ofSymbol? char).isSome

/-- Punctuation is no part of a word. -/
theorem isWordPart_of_isPunctuation {char : Char} (hchar : isPunctuation char) :
    isWordPart char = false := by
  rw [isPunctuation, Bool.or_eq_true] at hchar
  rw [Bool.eq_false_iff]
  intro hpart
  rcases hchar with hwhite | hsymbol
  · rw [isWhiteSpace_of_isWordPart hpart] at hwhite
    cases hwhite
  · obtain ⟨token, hsymbol⟩ := Option.isSome_iff_exists.mp hsymbol
    obtain ⟨_, _, _, _, hstart, hdigit⟩ := not_start_of_ofSymbol? hsymbol
    rw [isWordPart_iff, hstart, hdigit] at hpart
    simp at hpart

/-- A word is cut where no part of a word follows it. -/
theorem lexemes_of_word {first : Char} {more rest : List Char} (hfirst : isWordStart first)
    (hmore : ∀ char ∈ more, isWordPart char) (hrest : Separates rest) :
    lexemes (first :: (more ++ rest)) =
      .ofWord (String.ofList (first :: more)) :: lexemes rest := by
  -- None of the tests before the one for words can apply.
  have hne : ∀ symbol, isWordStart symbol = false → first ≠ symbol := by
    intro symbol hsymbol heq
    rw [heq, hsymbol] at hfirst
    cases hfirst
  have htake : rest.takeWhile isWordPart = [] ∧ rest.dropWhile isWordPart = rest := by
    cases rest with
    | nil => exact ⟨rfl, rfl⟩
    | cons char rest =>
        have hchar : isWordPart char = false := hrest char rfl
        simp [hchar]
  have hwhite := isWhiteSpace_of_isWordPart (isWordPart_iff.mpr (Or.inl hfirst))
  rw [lexemes_of_not_isWhiteSpace hwhite]
  simp [lexeme, hne '=' (by decide), hne '!' (by decide), hne '"' (by decide), hfirst,
    List.takeWhile_append_of_pos hmore, List.dropWhile_append_of_pos hmore, htake.1, htake.2]

/-- A number is cut where no digit follows it. -/
theorem lexemes_of_digits {first : Char} {more rest : List Char} (hfirst : first.isDigit)
    (hmore : ∀ char ∈ more, char.isDigit) (hrest : ∀ char ∈ rest.head?, char.isDigit = false) :
    lexemes (first :: (more ++ rest)) = .int (String.ofList (first :: more)) :: lexemes rest := by
  have hne : ∀ symbol, symbol.isDigit = false → first ≠ symbol := by
    intro symbol hsymbol heq
    rw [heq, hsymbol] at hfirst
    cases hfirst
  have hstart : isWordStart first = false := by
    rw [Bool.eq_false_iff]
    intro hstart
    rw [isDigit_of_isWordStart hstart] at hfirst
    cases hfirst
  have htake : rest.takeWhile Char.isDigit = [] ∧ rest.dropWhile Char.isDigit = rest := by
    cases rest with
    | nil => exact ⟨rfl, rfl⟩
    | cons char rest =>
        have hchar : char.isDigit = false := hrest char rfl
        simp [hchar]
  have hwhite := isWhiteSpace_of_isWordPart (isWordPart_iff.mpr (Or.inr hfirst))
  rw [lexemes_of_not_isWhiteSpace hwhite]
  simp [lexeme, hne '=' (by decide), hne '!' (by decide), hne '"' (by decide), hfirst, hstart,
    List.takeWhile_append_of_pos hmore, List.dropWhile_append_of_pos hmore, htake.1, htake.2]

/-- A string literal is cut at its closing quote. -/
theorem lexemes_of_quoted {text rest : List Char} (htext : '"' ∉ text) :
    lexemes ('"' :: (text ++ '"' :: rest)) = .str (String.ofList text) :: lexemes rest := by
  have hother : ∀ char ∈ text, (char != '"') = true := by
    intro char hmem
    simp only [bne_iff_ne]
    rintro rfl
    exact htext hmem
  rw [lexemes_of_not_isWhiteSpace (by decide)]
  simp [lexeme, stringLexeme, List.takeWhile_append_of_pos hother,
    List.dropWhile_append_of_pos hother]

/-! ## Single texts -/

/-- Punctuation is cut into its symbols. -/
theorem lexemes_of_punctuation {chars : List Char} (hchars : chars.all isPunctuation)
    (rest : List Char) :
    lexemes (chars ++ rest) = chars.filterMap Token.ofSymbol? ++ lexemes rest := by
  induction chars with
  | nil => rfl
  | cons char chars ih =>
      rw [List.all_cons, Bool.and_eq_true, isPunctuation, Bool.or_eq_true] at hchars
      have ih := ih hchars.2
      cases hsymbol : Token.ofSymbol? char with
      | some token =>
          rw [List.filterMap_cons_some hsymbol, List.cons_append, lexemes_of_ofSymbol? hsymbol, ih,
            List.cons_append]
      | none =>
          have hwhite : isWhiteSpace char = true := by simpa [hsymbol] using hchars.1
          rw [List.filterMap_cons_none hsymbol, List.cons_append, lexemes_of_isWhiteSpace hwhite,
            ih]

/-- A text of punctuation is cut into its symbols. -/
theorem punctuates_of_symbols {text : String} (first : Char) (more : List Char)
    (htext : text = String.ofList (first :: more)) (hchars : (first :: more).all isPunctuation) :
    Punctuates text ((first :: more).filterMap Token.ofSymbol?) := by
  constructor
  · intro rest
    rw [htext, String.toList_ofList]
    exact lexemes_of_punctuation hchars rest
  · intro rest char hmem
    rw [htext, String.toList_ofList, List.cons_append, List.head?_cons] at hmem
    cases hmem
    rw [List.all_cons, Bool.and_eq_true] at hchars
    exact isWordPart_of_isPunctuation hchars.1

/-- A word is cut apart. -/
theorem cutsApart_of_word {word : String} {first : Char} {more : List Char}
    (hword : word.toList = first :: more) (hfirst : isWordStart first)
    (hmore : ∀ char ∈ more, isWordPart char) : CutsApart word [.ofWord word] := by
  intro rest hrest
  rw [hword, List.cons_append, lexemes_of_word hfirst hmore hrest, ← hword, String.ofList_toList]
  rfl

/-- An identifier is cut apart. -/
theorem IsIdentifier.cutsApart {name : String} (hname : IsIdentifier name) :
    CutsApart name [.ident name] := by
  obtain ⟨⟨first, more, htext, hfirst, hmore⟩, hident⟩ := hname
  rw [← hident]
  exact cutsApart_of_word htext hfirst hmore

/-- A string literal is cut at its closing quote. -/
theorem cuts_quoted {text : String} (htext : '"' ∉ text.toList) :
    Cuts ("\"" ++ text ++ "\"") [.str text] := by
  intro rest
  have hchars : ("\"" ++ text ++ "\"").toList ++ rest = '"' :: (text.toList ++ '"' :: rest) := by
    simp
  rw [hchars, lexemes_of_quoted htext, String.ofList_toList]
  rfl

/-- The decimal form of a number is a digit and more digits. -/
theorem toList_repr_eq_cons (number : Nat) : ∃ first more, number.repr.toList = first :: more ∧
    first.isDigit ∧ ∀ char ∈ more, char.isDigit := by
  have hdigits : ∀ char ∈ number.repr.toList, char.isDigit := by
    intro char hmem
    rw [Nat.toList_repr] at hmem
    exact Nat.isDigit_of_mem_toDigits (by decide) (by decide) hmem
  cases hchars : number.repr.toList with
  | nil => exact absurd (String.toList_eq_nil_iff.mp hchars) Nat.repr_ne_empty
  | cons first more =>
      rw [hchars] at hdigits
      exact ⟨first, more, rfl, List.forall_mem_cons.mp hdigits⟩

/-- The decimal digits of a number are cut apart. -/
theorem cutsApart_repr (number : Nat) : CutsApart number.repr [.int number.repr] := by
  intro rest hrest
  obtain ⟨first, more, hchars, hfirst, hmore⟩ := toList_repr_eq_cons number
  have hseparates : ∀ char ∈ rest.head?, char.isDigit = false := by
    intro char hmem
    have hpart := hrest char hmem
    rw [Bool.eq_false_iff, ne_eq, isWordPart_iff] at hpart
    rw [Bool.eq_false_iff]
    exact fun hdigit => hpart (Or.inr hdigit)
  rw [hchars, List.cons_append, lexemes_of_digits hfirst hmore hseparates, ← hchars,
    String.ofList_toList]
  rfl

/-! ## What a text is cut into -/

/-- What the names and strings among the tokens of a text are made of. -/
def Token.Lexed : Token → Prop
  | ident name => IsIdentifier name
  | str text => '"' ∉ text.toList
  | _ => True

/-- The token of a word is the identifier of that name or a keyword. -/
theorem ofWord_cases (word : String) :
    Token.ofWord word = .ident word ∨
      Token.ofWord word ∈ [Token.kwFn, .kwLet, .kwTrue, .kwFalse, .kwIf, .kwElse, .kwReturn,
        .kwMacro] := by
  unfold Token.ofWord
  repeat' split
  all_goals simp

/-- A word is read as an identifier or a keyword. -/
theorem lexed_ofWord {word : String} {first : Char} {more : List Char}
    (hword : word.toList = first :: more) (hfirst : isWordStart first)
    (hmore : ∀ char ∈ more, isWordPart char) : (Token.ofWord word).Lexed := by
  rcases ofWord_cases word with hident | hkeyword
  · rw [hident]
    exact ⟨⟨first, more, hword, hfirst, hmore⟩, hident⟩
  · generalize Token.ofWord word = token at hkeyword
    simp only [List.mem_cons, List.not_mem_nil, or_false] at hkeyword
    rcases hkeyword with rfl | rfl | rfl | rfl | rfl | rfl | rfl | rfl <;> trivial

/-- A string literal has no quote inside. -/
theorem lexed_stringLexeme (chars : List Char) : (stringLexeme chars).1.Lexed := by
  unfold stringLexeme
  cases chars.dropWhile (· != '"') with
  | nil => trivial
  | cons quote rest =>
      show '"' ∉ (String.ofList (chars.takeWhile (· != '"'))).toList
      rw [String.toList_ofList]
      intro hmem
      have hother := List.all_eq_true.mp List.all_takeWhile '"' hmem
      simp at hother

/-- A symbol is neither a name nor a string. -/
theorem lexed_ofSymbol? {char : Char} {token : Token}
    (hsymbol : Token.ofSymbol? char = some token) : token.Lexed := by
  unfold Token.ofSymbol? at hsymbol
  split at hsymbol <;> cases hsymbol <;> trivial

/-- Every lexeme is made of what its kind of token is made of. -/
theorem lexed_lexeme (first : Char) (chars : List Char) : (lexeme first chars).1.Lexed := by
  unfold lexeme
  split
  · split <;> trivial
  split
  · split <;> trivial
  split
  · exact lexed_stringLexeme chars
  split
  · next hstart =>
      refine lexed_ofWord String.toList_ofList hstart fun char hmem => ?_
      exact List.all_eq_true.mp List.all_takeWhile char hmem
  split
  · trivial
  split
  · next token hsymbol => exact lexed_ofSymbol? hsymbol
  · trivial

/-- Every token of a text is made of what its kind of token is made of. -/
theorem lexed_of_mem_lexemes {chars : List Char} {token : Token} (hmem : token ∈ lexemes chars) :
    token.Lexed := by
  fun_induction lexemes chars with
  | case1 => cases hmem
  | case2 first rest hwhite ih => exact ih hmem
  | case3 first rest hwhite ih =>
      rcases List.mem_cons.mp hmem with rfl | hrest
      · exact lexed_lexeme first rest
      · exact ih hrest

/-- A word is not the end marker. -/
theorem ofWord_ne_eof (word : String) : Token.ofWord word ≠ .eof := by
  intro heof
  rcases ofWord_cases word with hident | hkeyword
  · rw [hident] at heof
    cases heof
  · rw [heof] at hkeyword
    simp at hkeyword

/-- No lexeme is the end marker. -/
theorem lexeme_ne_eof (first : Char) (chars : List Char) : (lexeme first chars).1 ≠ .eof := by
  unfold lexeme
  split
  · split <;> simp
  split
  · split <;> simp
  split
  · unfold stringLexeme
    split <;> simp
  split
  · exact ofWord_ne_eof _
  split
  · simp
  split
  · next token hsymbol =>
      rintro rfl
      unfold Token.ofSymbol? at hsymbol
      split at hsymbol <;> cases hsymbol
  · simp

/-- The end marker is not among the tokens of a text. -/
theorem eof_not_mem_lexemes (chars : List Char) : .eof ∉ lexemes chars := by
  fun_induction lexemes chars with
  | case1 => exact List.not_mem_nil
  | case2 first rest hwhite ih => exact ih
  | case3 first rest hwhite ih =>
      exact List.not_mem_cons_of_ne_of_not_mem (lexeme_ne_eof first rest).symm ih

end MonkeyLang
