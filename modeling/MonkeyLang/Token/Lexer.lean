import MonkeyLang.Text.WhiteSpace
import MonkeyLang.Token.Basic

/-!
# From text to tokens

Source text is cut into lexemes from the left, each as long as possible, with white space skipped
between them. Every character that is not white space belongs to a lexeme: one that starts none of
the known kinds is an illegal lexeme of its own. `tokenize` is total because a lexeme takes at
least its first character (`lexeme_rest_length_le`).
-/

namespace MonkeyLang

/-- Whether a word may start with the character: an ASCII letter or an underscore. -/
def isWordStart (char : Char) : Bool :=
  char.isAlpha || char == '_'

/-- Whether a word may continue with the character: an ASCII letter, digit or underscore. -/
def isWordPart (char : Char) : Bool :=
  char.isAlphanum || char == '_'

/-- The string lexeme whose opening quote stands before `chars`, and the text after it. It extends
to the next quote, and is illegal if there is none. -/
def stringLexeme (chars : List Char) : Token × List Char :=
  let body := chars.takeWhile (· != '"')
  match chars.dropWhile (· != '"') with
  | [] => (.illegal (String.ofList ('"' :: body)), [])
  | _ :: rest => (.str (String.ofList body), rest)

/-- The lexeme that starts with the character `first`, which is not white space, and the text after
it. -/
def lexeme (first : Char) (chars : List Char) : Token × List Char :=
  if first = '=' then
    match chars with
    | '=' :: rest => (.eq, rest)
    | _ => (.assign, chars)
  else if first = '!' then
    match chars with
    | '=' :: rest => (.notEq, rest)
    | _ => (.bang, chars)
  else if first = '"' then
    stringLexeme chars
  else if isWordStart first then
    (.ofWord (String.ofList (first :: chars.takeWhile isWordPart)), chars.dropWhile isWordPart)
  else if first.isDigit then
    (.int (String.ofList (first :: chars.takeWhile Char.isDigit)), chars.dropWhile Char.isDigit)
  else
    match Token.ofSymbol? first with
    | some token => (token, chars)
    | none => (.illegal (String.ofList [first]), chars)

/-- Dropping a leading run of characters leaves a text that is not longer. -/
theorem length_dropWhile_le (test : Char → Bool) (chars : List Char) :
    (chars.dropWhile test).length ≤ chars.length :=
  (List.dropWhile_sublist test).length_le

/-- The text after a string lexeme is not longer than the text after its opening quote. -/
theorem stringLexeme_rest_length_le (chars : List Char) :
    (stringLexeme chars).2.length ≤ chars.length := by
  have hdrop := length_dropWhile_le (· != '"') chars
  unfold stringLexeme
  cases htail : chars.dropWhile (· != '"') with
  | nil => simp
  | cons quote rest =>
      rw [htail] at hdrop
      simp only [List.length_cons] at hdrop
      simp only
      omega

/-- The text after a lexeme is not longer than the text after its first character. -/
theorem lexeme_rest_length_le (first : Char) (chars : List Char) :
    (lexeme first chars).2.length ≤ chars.length := by
  unfold lexeme
  split
  · split <;> simp
  split
  · split <;> simp
  split
  · exact stringLexeme_rest_length_le chars
  split
  · exact length_dropWhile_le isWordPart chars
  split
  · exact length_dropWhile_le Char.isDigit chars
  split <;> simp

/-- The tokens of a text, without the end marker. -/
def lexemes (chars : List Char) : List Token :=
  match chars with
  | [] => []
  | first :: rest =>
      if isWhiteSpace first then
        lexemes rest
      else
        (lexeme first rest).1 :: lexemes (lexeme first rest).2
termination_by chars.length
decreasing_by
  · simp
  · have hrest := lexeme_rest_length_le first rest
    simp only [List.length_cons]
    omega

/-- The tokens of a source text, closed by the end marker. -/
def tokenize (source : String) : List Token :=
  lexemes source.toList ++ [.eof]

end MonkeyLang
