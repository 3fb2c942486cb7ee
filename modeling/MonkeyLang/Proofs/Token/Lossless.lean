import MonkeyLang.Proofs.Token.Compose

/-!
# The lexer loses nothing

A source text is white space and lexemes, one chunk behind the other. The chunks put together are
the text, and their tokens are the tokens of the text. String literals are the stretches between an
odd quote and the next one, whatever is in them, and the white space outside of these stretches is
all that the tokens leave out. No word, number or sign ends where it could go on. Read
`tokenize_lossless` first.
-/

namespace MonkeyLang

/-- The text that a token was read from. -/
def Token.written : Token → String
  | illegal text => text
  | token => token.spelling

/-- Whether the lexeme of a token may end before a character: a word goes on as far as there are
parts of words, a number as far as there are digits, and a sign that an equals sign would change
takes it along. -/
def Token.EndsBefore (token : Token) (next : Char) : Prop :=
  match token with
  | ident _ | kwFn | kwLet | kwTrue | kwFalse | kwIf | kwElse | kwReturn | kwMacro =>
      isWordPart next = false
  | int _ => next.isDigit = false
  | assign | bang => next ≠ '='
  | _ => True

/-- The text without the white space outside of string literals, where `before` is what stands in
front of it. A literal is open behind an odd number of quotes. -/
def deleteWhiteSpace (before : List Char) : List Char → List Char
  | [] => []
  | char :: chars =>
      if isWhiteSpace char ∧ Even (before.count '"') then
        deleteWhiteSpace (before ++ [char]) chars
      else
        char :: deleteWhiteSpace (before ++ [char]) chars

/-- A chunk of a text: a white space character outside of all lexemes, or a lexeme. -/
inductive Chunk where
  | white (char : Char)
  | lexeme (token : Token)

namespace Chunk

/-- The characters of a chunk. -/
def chars : Chunk → List Char
  | white char => [char]
  | lexeme token => token.written.toList

/-- The token of a chunk, if it is a lexeme. -/
def token? : Chunk → Option Token
  | white _ => none
  | lexeme token => some token

end Chunk

/-- The text that chunks make up. -/
def chunksText (chunks : List Chunk) : List Char :=
  chunks.flatMap Chunk.chars

/-- Among the chunks of a text is the lexeme of a token, between the text before it and the text
after it. -/
def Placed (chunks : List Chunk) (before : List Char) (token : Token) (after : List Char) : Prop :=
  ∃ front back, chunks = front ++ .lexeme token :: back ∧ chunksText front = before ∧
    chunksText back = after

/-! ## Single lexemes -/

/-- A word is written as it is read. -/
theorem written_ofWord (word : String) : (Token.ofWord word).written = word := by
  unfold Token.ofWord
  repeat' split
  all_goals first | rfl | exact Eq.symm ‹_›

/-- A word ends where no part of a word follows. -/
theorem endsBefore_ofWord {word : String} {next : Char} (hnext : isWordPart next = false) :
    (Token.ofWord word).EndsBefore next := by
  unfold Token.ofWord
  repeat' split
  all_goals exact hnext

/-- A symbol is written as one character, and may end before any. -/
theorem written_ofSymbol? {char : Char} {token : Token}
    (hsymbol : Token.ofSymbol? char = some token) :
    token.written.toList = [char] ∧ ∀ next, token.EndsBefore next := by
  unfold Token.ofSymbol? at hsymbol
  split at hsymbol
  all_goals first
    | cases hsymbol
      exact ⟨rfl, fun _ => trivial⟩
    | cases hsymbol

/-- The first character behind a run fails the test of the run. -/
theorem eq_false_of_mem_head?_dropWhile {test : Char → Bool} {chars : List Char} {next : Char}
    (hnext : next ∈ (chars.dropWhile test).head?) : test next = false := by
  have hnot := List.head?_dropWhile_not test chars
  rw [Option.mem_def.mp hnext] at hnot
  simpa using hnot

/-- Behind the opening quote stands a string without quotes in it, and then the closing quote or the
end of the text. -/
theorem stringLexeme_cases (chars : List Char) :
    (∃ inner rest, '"' ∉ inner ∧ chars = inner ++ '"' :: rest ∧
      stringLexeme chars = (.str (String.ofList inner), rest)) ∨
    ('"' ∉ chars ∧ stringLexeme chars = (.illegal (String.ofList ('"' :: chars)), [])) := by
  have hsplit := @List.takeWhile_append_dropWhile Char (· != '"') chars
  have hinner : '"' ∉ chars.takeWhile (· != '"') := by
    intro hmem
    have hother := List.all_eq_true.mp List.all_takeWhile '"' hmem
    simp at hother
  unfold stringLexeme
  cases hrest : chars.dropWhile (· != '"') with
  | nil =>
      rw [hrest, List.append_nil] at hsplit
      rw [hsplit] at hinner ⊢
      exact Or.inr ⟨hinner, rfl⟩
  | cons quote rest =>
      have hquote : quote = '"' := by
        have hhead : quote ∈ (chars.dropWhile (· != '"')).head? := by
          rw [hrest]
          rfl
        simpa using eq_false_of_mem_head?_dropWhile hhead
      rw [hrest, hquote] at hsplit
      exact Or.inl ⟨_, rest, hinner, hsplit.symm, rfl⟩

/-- What is between two quotes ends at the second one. -/
theorem append_quote_inj {first second rest rest' : List Char} (hfirst : '"' ∉ first)
    (hsecond : '"' ∉ second) (heq : first ++ '"' :: rest = second ++ '"' :: rest') :
    first = second ∧ rest = rest' := by
  induction first generalizing second with
  | nil =>
      cases second with
      | nil => exact ⟨rfl, (List.cons.inj heq).2⟩
      | cons char second => exact absurd (List.cons.inj heq).1 (List.ne_of_not_mem_cons hsecond)
  | cons char first ih =>
      cases second with
      | nil => exact absurd (List.cons.inj heq).1.symm (List.ne_of_not_mem_cons hfirst)
      | cons other second =>
          obtain ⟨rfl, hrest⟩ := List.cons.inj heq
          obtain ⟨rfl, hrests⟩ := ih (List.not_mem_of_not_mem_cons hfirst)
            (List.not_mem_of_not_mem_cons hsecond) hrest
          exact ⟨rfl, hrests⟩

/-- A quote in two parts of a text is behind the first part or in it. -/
theorem quote_mem_cases {first rest before tail : List Char}
    (htext : first ++ rest = before ++ '"' :: tail) :
    (∃ inner, before = first ++ inner ∧ rest = inner ++ '"' :: tail) ∨
      ∃ more, first = before ++ '"' :: more ∧ more ++ rest = tail := by
  rcases List.append_eq_append_iff.mp htext with hbehind | ⟨inner, hfirst, hrest⟩
  · exact Or.inl hbehind
  · rcases List.cons_eq_append_iff.mp hrest with ⟨rfl, hrest⟩ | ⟨more, rfl, rfl⟩
    · exact Or.inl ⟨[], by rw [hfirst, List.append_nil, List.append_nil], hrest.symm⟩
    · exact Or.inr ⟨more, hfirst, rfl⟩

/-- A lexeme and what follows it make up the text. -/
theorem written_lexeme (first : Char) (chars : List Char) :
    (lexeme first chars).1.written.toList ++ (lexeme first chars).2 = first :: chars := by
  unfold lexeme
  split
  · next hfirst =>
      subst hfirst
      split <;> simp [Token.written, Token.spelling]
  split
  · next hfirst =>
      subst hfirst
      split <;> simp [Token.written, Token.spelling]
  split
  · next hfirst =>
      subst hfirst
      rcases stringLexeme_cases chars with ⟨inner, rest, _, rfl, hlexeme⟩ | ⟨_, hlexeme⟩
      · simp [hlexeme, Token.written, Token.spelling]
      · simp [hlexeme, Token.written]
  split
  · rw [written_ofWord, String.toList_ofList, List.cons_append, List.takeWhile_append_dropWhile]
  split
  · show (String.ofList _).toList ++ _ = _
    rw [String.toList_ofList, List.cons_append, List.takeWhile_append_dropWhile]
  split
  · next token hsymbol => rw [(written_ofSymbol? hsymbol).1, List.singleton_append]
  · show (String.ofList _).toList ++ _ = _
    rw [String.toList_ofList, List.singleton_append]

/-- Whether a character may stand in a lexeme that is no string. -/
def Visible (char : Char) : Prop :=
  isWhiteSpace char = false ∧ char ≠ '"'

instance (char : Char) : Decidable (Visible char) :=
  inferInstanceAs (Decidable (_ ∧ _))

/-- What a lexeme is like, and what may follow it: a string literal that is closed, one that is not
and extends to the end of the text, or a lexeme of visible characters that ends where it has to. -/
inductive Token.Lexeme : Token → List Char → Prop where
  | closed {text : String} {rest : List Char} :
      '"' ∉ text.toList → Lexeme (.str text) rest
  | unclosed {inner : List Char} :
      '"' ∉ inner → Lexeme (.illegal (String.ofList ('"' :: inner))) []
  | plain {token : Token} {rest : List Char} {first : Char} {more : List Char} :
      token.written.toList = first :: more → (∀ char ∈ first :: more, Visible char) →
      (∀ next ∈ rest.head?, token.EndsBefore next) → Lexeme token rest

/-- Parts of words are visible. -/
theorem visible_of_isWordPart {char : Char} (hpart : isWordPart char) : Visible char := by
  refine ⟨isWhiteSpace_of_isWordPart hpart, ?_⟩
  rintro rfl
  exact absurd hpart (by decide)

/-- What does not go on with an equals sign has another character behind it, or none. -/
theorem ne_equals_of_mem_head? {chars : List Char} (hother : ∀ rest, chars = '=' :: rest → False) :
    ∀ next ∈ chars.head?, next ≠ '=' := by
  rintro next hnext rfl
  obtain ⟨rest, rfl⟩ := List.head?_eq_some_iff.mp hnext
  exact hother rest rfl

/-- What starts with a character that is no white space is a lexeme. -/
theorem lexeme_isLexeme {first : Char} (hwhite : isWhiteSpace first = false) (chars : List Char) :
    (lexeme first chars).1.Lexeme (lexeme first chars).2 := by
  have hequals : Visible '=' := by decide
  have hbang : Visible '!' := by decide
  unfold lexeme
  split
  · split
    · have hwritten : Token.eq.written.toList = ['=', '='] := by decide
      refine .plain hwritten ?_ fun _ _ => trivial
      exact List.forall_mem_cons.mpr ⟨hequals, List.forall_mem_singleton.mpr hequals⟩
    · next hother =>
        have hwritten : Token.assign.written.toList = ['='] := by decide
        exact .plain hwritten (List.forall_mem_singleton.mpr hequals)
          (ne_equals_of_mem_head? hother)
  split
  · split
    · have hwritten : Token.notEq.written.toList = ['!', '='] := by decide
      refine .plain hwritten ?_ fun _ _ => trivial
      exact List.forall_mem_cons.mpr ⟨hbang, List.forall_mem_singleton.mpr hequals⟩
    · next hother =>
        have hwritten : Token.bang.written.toList = ['!'] := by decide
        exact .plain hwritten (List.forall_mem_singleton.mpr hbang)
          (ne_equals_of_mem_head? hother)
  split
  · rcases stringLexeme_cases chars with ⟨inner, rest, hinner, _, hlexeme⟩ | ⟨hinner, hlexeme⟩
    · rw [hlexeme]
      exact .closed (by rwa [String.toList_ofList])
    · rw [hlexeme]
      exact .unclosed hinner
  next hquote =>
  split
  · next hstart =>
      refine .plain ((congrArg String.toList (written_ofWord _)).trans String.toList_ofList) ?_
        fun next hnext => endsBefore_ofWord (eq_false_of_mem_head?_dropWhile hnext)
      refine List.forall_mem_cons.mpr ⟨⟨hwhite, hquote⟩, fun char hmem => ?_⟩
      exact visible_of_isWordPart (List.all_eq_true.mp List.all_takeWhile char hmem)
  split
  · next hdigit =>
      refine .plain String.toList_ofList ?_ fun next hnext => eq_false_of_mem_head?_dropWhile hnext
      refine List.forall_mem_cons.mpr ⟨⟨hwhite, hquote⟩, fun char hmem => ?_⟩
      have hdigit := List.all_eq_true.mp List.all_takeWhile char hmem
      exact visible_of_isWordPart (isWordPart_iff.mpr (Or.inr hdigit))
  split
  · next token hsymbol =>
      obtain ⟨hwritten, hends⟩ := written_ofSymbol? hsymbol
      exact .plain hwritten (List.forall_mem_singleton.mpr ⟨hwhite, hquote⟩)
        fun next _ => hends next
  · exact .plain String.toList_ofList (List.forall_mem_singleton.mpr ⟨hwhite, hquote⟩)
      fun _ _ => trivial

/-! ## Chunks -/

/-- What the chunks of a text are like, each in front of the others. -/
inductive Chunked : List Chunk → Prop where
  | nil : Chunked []
  | white {char : Char} {chunks : List Chunk} :
      isWhiteSpace char = true → Chunked chunks → Chunked (.white char :: chunks)
  | lexeme {token : Token} {chunks : List Chunk} :
      token.Lexeme (chunksText chunks) → Chunked chunks → Chunked (.lexeme token :: chunks)

/-- Every text is made of chunks, and its tokens are those of the chunks. -/
theorem exists_chunks (chars : List Char) : ∃ chunks, Chunked chunks ∧ chunksText chunks = chars ∧
    chunks.filterMap Chunk.token? = lexemes chars := by
  fun_induction lexemes chars with
  | case1 => exact ⟨[], .nil, rfl, rfl⟩
  | case2 first rest hwhite ih =>
      obtain ⟨chunks, hchunked, htext, htokens⟩ := ih
      exact ⟨.white first :: chunks, .white hwhite hchunked, congrArg (first :: ·) htext, htokens⟩
  | case3 first rest hwhite ih =>
      obtain ⟨chunks, hchunked, htext, htokens⟩ := ih
      refine ⟨.lexeme (lexeme first rest).1 :: chunks, .lexeme ?_ hchunked, ?_, ?_⟩
      · rw [htext]
        exact lexeme_isLexeme (by simpa using hwhite) rest
      · show (lexeme first rest).1.written.toList ++ chunksText chunks = first :: rest
        rw [htext, written_lexeme]
      · exact congrArg ((lexeme first rest).1 :: ·) htokens

/-! ## White space -/

/-- White space is deleted in one part of a text and then in the next. -/
theorem deleteWhiteSpace_append (before first second : List Char) :
    deleteWhiteSpace before (first ++ second) =
      deleteWhiteSpace before first ++ deleteWhiteSpace (before ++ first) second := by
  induction first generalizing before with
  | nil => rw [List.nil_append, deleteWhiteSpace, List.nil_append, List.append_nil]
  | cons char first ih =>
      rw [List.cons_append, deleteWhiteSpace, deleteWhiteSpace, ih, List.append_assoc]
      split <;> rfl

/-- Visible characters stay. -/
theorem deleteWhiteSpace_of_visible {chars : List Char}
    (hvisible : ∀ char ∈ chars, isWhiteSpace char = false) (before : List Char) :
    deleteWhiteSpace before chars = chars := by
  induction chars generalizing before with
  | nil => rfl
  | cons char chars ih =>
      obtain ⟨hfirst, hrest⟩ := List.forall_mem_cons.mp hvisible
      rw [deleteWhiteSpace, if_neg (by simp [hfirst]), ih hrest]

/-- A character that is no quote opens and closes no literal. -/
theorem count_quote_append_singleton {char : Char} (hchar : char ≠ '"') (before : List Char) :
    (before ++ [char]).count '"' = before.count '"' := by
  rw [List.count_append, List.count_cons_of_ne hchar, List.count_nil, Nat.add_zero]

/-- All characters inside of a string literal stay. -/
theorem deleteWhiteSpace_of_open {before chars : List Char} (hopen : ¬ Even (before.count '"'))
    (hchars : '"' ∉ chars) : deleteWhiteSpace before chars = chars := by
  induction chars generalizing before with
  | nil => rfl
  | cons char chars ih =>
      rw [List.mem_cons, not_or] at hchars
      have hopen' : ¬ Even ((before ++ [char]).count '"') := by
        rwa [count_quote_append_singleton (Ne.symm hchars.1)]
      rw [deleteWhiteSpace, if_neg (fun hboth => hopen hboth.2), ih hopen' hchars.2]

namespace Token.Lexeme

variable {token : Token} {rest before : List Char}

/-- A closed literal with its quotes. -/
theorem written_str (text : String) :
    (Token.str text).written.toList = '"' :: (text.toList ++ ['"']) := by
  simp [Token.written, Token.spelling]

/-- A lexeme has a character. -/
theorem written_ne_nil (hlexeme : token.Lexeme rest) : token.written.toList ≠ [] := by
  cases hlexeme with
  | closed => rw [written_str]; exact List.cons_ne_nil _ _
  | unclosed => rw [Token.written, String.toList_ofList]; exact List.cons_ne_nil _ _
  | plain hwritten => rw [hwritten]; exact List.cons_ne_nil _ _

/-- Nothing of a lexeme is deleted. -/
theorem deleteWhiteSpace_written (hlexeme : token.Lexeme rest) (heven : Even (before.count '"')) :
    deleteWhiteSpace before token.written.toList = token.written.toList := by
  have hopen : ¬ Even ((before ++ ['"']).count '"') := by
    rw [List.count_append, List.count_singleton_self, Nat.even_add_one]
    exact not_not_intro heven
  have hquote : ∀ (front chars : List Char),
      deleteWhiteSpace front ('"' :: chars) = '"' :: deleteWhiteSpace (front ++ ['"']) chars :=
    fun front chars => if_neg fun hboth => absurd hboth.1 (by decide)
  cases hlexeme with
  | closed htext =>
      rw [written_str, hquote, deleteWhiteSpace_append, deleteWhiteSpace_of_open hopen htext,
        hquote]
      rfl
  | unclosed hinner =>
      rw [Token.written, String.toList_ofList, hquote, deleteWhiteSpace_of_open hopen hinner]
  | plain hwritten hvisible =>
      rw [hwritten]
      exact deleteWhiteSpace_of_visible (fun char hmem => (hvisible char hmem).1) before

/-- The quotes of a lexeme: two of a closed literal, one of an open one, which is the end of the
text, and none of any other. -/
theorem count_quote_cases (hlexeme : token.Lexeme rest) :
    (∃ more, token.written.toList = '"' :: more ∧ more.count '"' = 1) ∨
    (∃ more, token.written.toList = '"' :: more ∧ more.count '"' = 0 ∧ rest = []) ∨
    token.written.toList.count '"' = 0 := by
  cases hlexeme with
  | closed htext =>
      refine Or.inl ⟨_, written_str _, ?_⟩
      rw [List.count_append, List.count_eq_zero.mpr htext, List.count_singleton_self]
  | unclosed hinner =>
      exact Or.inr (Or.inl ⟨_, String.toList_ofList, List.count_eq_zero.mpr hinner, rfl⟩)
  | plain hwritten hvisible =>
      refine Or.inr (Or.inr ?_)
      rw [hwritten, List.count_eq_zero]
      exact fun hmem => (hvisible _ hmem).2 rfl

/-- The quotes of a lexeme with text behind it come in pairs. -/
theorem even_count_quote (hlexeme : token.Lexeme rest) (hrest : rest ≠ []) :
    Even (token.written.toList.count '"') := by
  rcases hlexeme.count_quote_cases with ⟨more, hwritten, hcount⟩ | ⟨_, _, _, hnil⟩ | hcount
  · rw [hwritten, List.count_cons_self, hcount]
    decide
  · exact absurd hnil hrest
  · rw [hcount]
    decide

/-- A quote behind pairs of quotes is not inside of a lexeme. -/
theorem eq_nil_of_quote {more : List Char} (hlexeme : token.Lexeme rest)
    (hwritten : token.written.toList = before ++ '"' :: more) (heven : Even (before.count '"')) :
    before = [] := by
  cases before with
  | nil => rfl
  | cons char before =>
      have hquotes := hlexeme.count_quote_cases
      simp only [hwritten, List.cons_append, List.cons.injEq] at hquotes
      rcases hquotes with ⟨_, ⟨rfl, rfl⟩, hcount⟩ | ⟨_, ⟨_, rfl⟩, hcount, _⟩ | hcount
      · -- the quote closes the literal, so one quote is before it
        rw [List.count_append, List.count_cons_self] at hcount
        have hnone : before.count '"' = 0 := by omega
        rw [List.count_cons_self, hnone] at heven
        exact absurd heven (by decide)
      · rw [List.count_append, List.count_cons_self] at hcount
        omega
      · rw [← List.cons_append, List.count_append, List.count_cons_self] at hcount
        omega

/-- A lexeme that starts with a quote is a string literal, closed or not. -/
theorem of_quote {more : List Char} (hlexeme : token.Lexeme rest)
    (hwritten : token.written.toList = '"' :: more) :
    (∃ text, token = .str text ∧ more = text.toList ++ ['"'] ∧ '"' ∉ text.toList) ∨
    (token = .illegal (String.ofList ('"' :: more)) ∧ '"' ∉ more ∧ rest = []) := by
  cases hlexeme with
  | closed htext =>
      rw [written_str] at hwritten
      exact Or.inl ⟨_, rfl, (List.cons.inj hwritten).2.symm, htext⟩
  | unclosed hinner =>
      rw [Token.written, String.toList_ofList] at hwritten
      cases hwritten
      exact Or.inr ⟨rfl, hinner, rfl⟩
  | plain hplain hvisible =>
      rw [hplain] at hwritten
      cases hwritten
      exact absurd rfl (hvisible _ List.mem_cons_self).2

/-- A lexeme ends where it may. -/
theorem endsBefore (hlexeme : token.Lexeme rest) : ∀ next ∈ rest.head?, token.EndsBefore next := by
  cases hlexeme with
  | closed => exact fun _ _ => trivial
  | unclosed => exact fun _ _ => trivial
  | plain _ _ hends => exact hends

end Token.Lexeme

namespace Chunked

variable {chunks front back : List Chunk} {token : Token} {before tail : List Char}

/-- Only no chunks make up no text. -/
theorem eq_nil (hchunked : Chunked chunks) (htext : chunksText chunks = []) : chunks = [] := by
  cases hchunked with
  | nil => rfl
  | white => cases htext
  | lexeme hlexeme => exact absurd (List.append_eq_nil_iff.mp htext).1 hlexeme.written_ne_nil

/-- Deleting the white space outside of literals leaves the lexemes. -/
theorem deleteWhiteSpace_text (hchunked : Chunked chunks) (heven : Even (before.count '"')) :
    deleteWhiteSpace before (chunksText chunks) =
      (chunks.filterMap Chunk.token?).flatMap fun token => token.written.toList := by
  induction hchunked generalizing before with
  | nil => rfl
  | @white char chunks hwhite _ ih =>
      show deleteWhiteSpace before (char :: chunksText chunks) = _
      rw [deleteWhiteSpace, if_pos ⟨hwhite, heven⟩]
      refine ih ?_
      rwa [count_quote_append_singleton (ne_of_isWhiteSpace hwhite (by decide))]
  | @lexeme token chunks hlexeme hchunked ih =>
      show deleteWhiteSpace before (token.written.toList ++ chunksText chunks) =
        token.written.toList ++ _
      rw [deleteWhiteSpace_append, hlexeme.deleteWhiteSpace_written heven]
      by_cases hend : chunksText chunks = []
      · rw [hchunked.eq_nil hend]
        rfl
      · have heven' : Even ((before ++ token.written.toList).count '"') := by
          rw [List.count_append]
          exact heven.add (hlexeme.even_count_quote hend)
        rw [ih heven']
        rfl

/-- A lexeme among the chunks of a text is one in front of the chunks behind it. -/
theorem lexeme_of_append (hchunked : Chunked (front ++ .lexeme token :: back)) :
    token.Lexeme (chunksText back) := by
  induction front with
  | nil =>
      cases hchunked with
      | lexeme hlexeme => exact hlexeme
  | cons chunk front ih =>
      cases hchunked with
      | white _ hrest => exact ih hrest
      | lexeme _ hrest => exact ih hrest

/-- No lexeme starts inside of a literal. -/
theorem even_count_quote_front (hchunked : Chunked (front ++ .lexeme token :: back)) :
    Even ((chunksText front).count '"') := by
  induction front with
  | nil => exact Even.zero
  | cons chunk front ih =>
      cases hchunked with
      | @white char _ hwhite hrest =>
          show Even ((char :: chunksText front).count '"')
          rw [List.count_cons_of_ne (ne_of_isWhiteSpace hwhite (by decide))]
          exact ih hrest
      | @lexeme other _ hlexeme hrest =>
          show Even ((other.written.toList ++ chunksText front).count '"')
          rw [List.count_append]
          refine (hlexeme.even_count_quote fun hnil => ?_).add (ih hrest)
          exact List.append_ne_nil_of_right_ne_nil _ (List.cons_ne_nil _ _) (hrest.eq_nil hnil)

/-- A quote outside of the literals before it starts a lexeme. -/
theorem exists_lexeme_of_quote (hchunked : Chunked chunks)
    (htext : chunksText chunks = before ++ '"' :: tail) (heven : Even (before.count '"')) :
    ∃ front token back more, chunks = front ++ .lexeme token :: back ∧ chunksText front = before ∧
      token.written.toList = '"' :: more ∧ more ++ chunksText back = tail := by
  induction hchunked generalizing before with
  | nil => simp [chunksText] at htext
  | @white char chunks hwhite _ ih =>
      have hchar : char ≠ '"' := ne_of_isWhiteSpace hwhite (by decide)
      replace htext : char :: chunksText chunks = before ++ '"' :: tail := htext
      rcases List.cons_eq_append_iff.mp htext with ⟨_, hfirst⟩ | ⟨before, rfl, hrest⟩
      · exact absurd (List.cons.inj hfirst).1.symm hchar
      · rw [List.count_cons_of_ne hchar] at heven
        obtain ⟨front, token, back, more, rfl, rfl, hwritten, htail⟩ := ih hrest heven
        exact ⟨.white char :: front, token, back, more, rfl, rfl, hwritten, htail⟩
  | @lexeme first chunks hlexeme _ ih =>
      replace htext : first.written.toList ++ chunksText chunks = before ++ '"' :: tail := htext
      rcases quote_mem_cases htext with ⟨inner, rfl, hrest⟩ | ⟨more, hfirst, hrest⟩
      · have hfirst : Even (first.written.toList.count '"') :=
          hlexeme.even_count_quote (by simp [hrest])
        rw [List.count_append, Nat.even_add] at heven
        obtain ⟨front, token, back, more, rfl, rfl, hwritten, htail⟩ := ih hrest (heven.mp hfirst)
        exact ⟨.lexeme first :: front, token, back, more, rfl, rfl, hwritten, htail⟩
      · cases hlexeme.eq_nil_of_quote hfirst heven
        exact ⟨[], first, chunks, more, rfl, rfl, hfirst, hrest⟩

/-- A closed literal is the lexeme of a string, and nothing else is. -/
theorem placed_str_iff (hchunked : Chunked chunks) {text : String} {after : List Char} :
    Placed chunks before (.str text) after ↔
      chunksText chunks = before ++ '"' :: (text.toList ++ '"' :: after) ∧
        Even (before.count '"') ∧ '"' ∉ text.toList := by
  constructor
  · rintro ⟨front, back, rfl, rfl, rfl⟩
    refine ⟨?_, hchunked.even_count_quote_front, ?_⟩
    · simp [chunksText, Chunk.chars, Token.Lexeme.written_str]
    · rcases hchunked.lexeme_of_append.of_quote (Token.Lexeme.written_str text) with
        ⟨_, heq, _, htext⟩ | ⟨heq, _⟩
      · cases heq
        exact htext
      · cases heq
  · rintro ⟨hsource, heven, htext⟩
    obtain ⟨front, token, back, more, rfl, hfront, hwritten, htail⟩ :=
      hchunked.exists_lexeme_of_quote hsource heven
    rcases hchunked.lexeme_of_append.of_quote hwritten with
      ⟨other, rfl, rfl, hother⟩ | ⟨rfl, hmore, hback⟩
    · rw [List.append_assoc, List.singleton_append] at htail
      obtain ⟨htexts, hback⟩ := append_quote_inj hother htext htail
      cases String.toList_inj.mp htexts
      exact ⟨front, back, rfl, hfront, hback⟩
    · rw [hback, List.append_nil] at htail
      rw [htail] at hmore
      simp at hmore

/-- A literal that is not closed is one illegal lexeme, the last of the text. -/
theorem placed_illegal (hchunked : Chunked chunks) {inner : List Char}
    (htext : chunksText chunks = before ++ '"' :: inner) (heven : Even (before.count '"'))
    (hinner : '"' ∉ inner) : Placed chunks before (.illegal (String.ofList ('"' :: inner))) [] := by
  obtain ⟨front, token, back, more, rfl, hfront, hwritten, htail⟩ :=
    hchunked.exists_lexeme_of_quote htext heven
  rcases hchunked.lexeme_of_append.of_quote hwritten with ⟨_, _, rfl, _⟩ | ⟨rfl, _, hback⟩
  · simp [← htail] at hinner
  · rw [hback, List.append_nil] at htail
    rw [htail]
    exact ⟨front, back, rfl, hfront, hback⟩

/-- White space outside of the lexemes is white space. -/
theorem isWhiteSpace_of_mem (hchunked : Chunked chunks) {char : Char}
    (hmem : .white char ∈ chunks) : isWhiteSpace char = true := by
  induction hchunked with
  | nil => cases hmem
  | white hwhite _ ih =>
      rcases List.mem_cons.mp hmem with heq | hrest
      · cases heq
        exact hwhite
      · exact ih hrest
  | lexeme _ _ ih =>
      rcases List.mem_cons.mp hmem with heq | hrest
      · cases heq
      · exact ih hrest

end Chunked

/-- Every text is read without loss. Its tokens, as they are written, are the text without the white
space outside of string literals; each token is the lexeme of a chunk of the text. The string tokens
are the closed literals with the text between their quotes, a literal that is not closed is one
illegal token, and every word, number and sign is as long as it can be. -/
theorem tokenize_lossless (source : String) :
    ∃ tokens, tokenize source = tokens ++ [.eof] ∧
      tokens.flatMap (fun token => token.written.toList) = deleteWhiteSpace [] source.toList ∧
      ∃ chunks, chunksText chunks = source.toList ∧ chunks.filterMap Chunk.token? = tokens ∧
        (∀ char, .white char ∈ chunks → isWhiteSpace char = true) ∧
        (∀ before text after, Placed chunks before (.str text) after ↔
          source.toList = before ++ '"' :: (text.toList ++ '"' :: after) ∧
            Even (before.count '"') ∧ '"' ∉ text.toList) ∧
        (∀ before inner, source.toList = before ++ '"' :: inner → Even (before.count '"') →
          '"' ∉ inner → Placed chunks before (.illegal (String.ofList ('"' :: inner))) []) ∧
        ∀ before token after, Placed chunks before token after →
          ∀ next ∈ after.head?, token.EndsBefore next := by
  obtain ⟨chunks, hchunked, htext, htokens⟩ := exists_chunks source.toList
  refine ⟨lexemes source.toList, rfl, ?_, chunks, htext, htokens, ?_, ?_, ?_, ?_⟩
  · rw [← htokens, ← htext, hchunked.deleteWhiteSpace_text Even.zero]
  · exact fun char hmem => hchunked.isWhiteSpace_of_mem hmem
  · exact fun before text after => htext ▸ hchunked.placed_str_iff
  · exact fun before inner hsource heven hinner =>
      hchunked.placed_illegal (htext.trans hsource) heven hinner
  · rintro before token after ⟨front, back, rfl, rfl, rfl⟩
    exact hchunked.lexeme_of_append.endsBefore

/-- The blank inside of a literal is kept, those outside are not, and the last literal is not
closed. -/
theorem tokenize_lossless_unclosed :
    let source : String := "x= \"a b\" ==\"c d"
    ∃ tokens, tokenize source = tokens ++ [.eof] ∧
      tokens.flatMap (fun token => token.written.toList) = "x=\"a b\"==\"c d".toList ∧
      ∃ chunks, chunksText chunks = source.toList ∧ chunks.filterMap Chunk.token? = tokens ∧
        Placed chunks "x= ".toList (.str "a b") " ==\"c d".toList ∧
        Placed chunks "x= \"a b\" ==".toList (.illegal "\"c d") [] := by
  intro source
  obtain ⟨tokens, htokens, hwritten, chunks, htext, hchunks, _, hstr, hillegal, _⟩ :=
    tokenize_lossless source
  have hvisible : deleteWhiteSpace [] source.toList = "x=\"a b\"==\"c d".toList := by decide
  refine ⟨tokens, htokens, hwritten.trans hvisible, chunks, htext, hchunks, ?_, ?_⟩
  · exact (hstr _ "a b" _).mpr (by decide)
  · exact hillegal _ "c d".toList (by decide) (by decide) (by decide)

end MonkeyLang
