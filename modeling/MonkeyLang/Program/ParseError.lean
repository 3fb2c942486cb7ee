import MonkeyLang.Token.Basic

/-!
# Parse errors

Why a statement could not be read. Each cause names the tokens involved, and `ParseError.message`
is the only place with the wording.
-/

namespace MonkeyLang

/-- The cause for which a statement is dropped. The token found is `eof` at the end of the text. -/
inductive ParseError where
  /-- A fixed token was wanted, and another one comes next. -/
  | unexpected (wanted found : Token)
  /-- `let` is not followed by a name. -/
  | missingName (found : Token)
  /-- An integer literal is out of range. -/
  | integerRange (digits : String)
  /-- The token starts no operand. -/
  | noOperand (found : Token)
  /-- A parameter is not a name. -/
  | badParameter (found : Token)
  /-- The text ends inside a block. -/
  | unterminatedBlock
  deriving DecidableEq, Repr

/-- The message shown for a parse error. -/
def ParseError.message : ParseError → String
  | unexpected wanted found =>
      "expected next token to be " ++ wanted.spelling ++ ", got " ++ found.spelling ++ " instead"
  | missingName found =>
      "expected next token to be identifier, got " ++ found.spelling ++ " instead"
  | integerRange digits => "could not parse " ++ digits ++ " as integer"
  | noOperand found => "no prefix parse function for " ++ found.spelling ++ " found"
  | badParameter found => "expected parameter name, got " ++ found.spelling ++ " instead"
  | unterminatedBlock => "unterminated block, expected \x7d"

end MonkeyLang
