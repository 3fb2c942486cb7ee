/-!
# Tokens

The tokens of Monkey source text and the way each one is spelled in messages and when tokens are
written back. Words that look like identifiers are told apart from keywords by `Token.ofWord`.
-/

namespace MonkeyLang

/-- A token. `illegal` carries a character that starts no lexeme, or a whole string literal that is
never closed. `eof` stands after the last lexeme. -/
inductive Token where
  | illegal (text : String)
  | eof
  | ident (name : String)
  | int (digits : String)
  | str (text : String)
  | assign
  | plus
  | minus
  | bang
  | asterisk
  | slash
  | lt
  | gt
  | eq
  | notEq
  | comma
  | semicolon
  | colon
  | lparen
  | rparen
  | lbrace
  | rbrace
  | lbracket
  | rbracket
  | kwFn
  | kwLet
  | kwTrue
  | kwFalse
  | kwIf
  | kwElse
  | kwReturn
  | kwMacro
  deriving DecidableEq, Repr, Inhabited

namespace Token

/-- The spelling of a token. A string is spelled with its quotes. -/
def spelling : Token → String
  | illegal text => "ILLEGAL(" ++ text ++ ")"
  | eof => "EOF"
  | ident name => name
  | int digits => digits
  | str text => "\"" ++ text ++ "\""
  | assign => "="
  | plus => "+"
  | minus => "-"
  | bang => "!"
  | asterisk => "*"
  | slash => "/"
  | lt => "<"
  | gt => ">"
  | eq => "=="
  | notEq => "!="
  | comma => ","
  | semicolon => ";"
  | colon => ":"
  | lparen => "("
  | rparen => ")"
  | lbrace => "\x7b"
  | rbrace => "\x7d"
  | lbracket => "["
  | rbracket => "]"
  | kwFn => "fn"
  | kwLet => "let"
  | kwTrue => "true"
  | kwFalse => "false"
  | kwIf => "if"
  | kwElse => "else"
  | kwReturn => "return"
  | kwMacro => "macro"

/-- The token of a word: a keyword if the word is one, an identifier otherwise. -/
def ofWord (word : String) : Token :=
  if word = "fn" then kwFn
  else if word = "let" then kwLet
  else if word = "true" then kwTrue
  else if word = "false" then kwFalse
  else if word = "if" then kwIf
  else if word = "else" then kwElse
  else if word = "return" then kwReturn
  else if word = "macro" then kwMacro
  else ident word

/-- The token of a character that is a lexeme whatever follows it. -/
def ofSymbol? (char : Char) : Option Token :=
  match char with
  | '+' => some plus
  | '-' => some minus
  | '*' => some asterisk
  | '/' => some slash
  | '<' => some lt
  | '>' => some gt
  | ',' => some comma
  | ';' => some semicolon
  | ':' => some colon
  | '(' => some lparen
  | ')' => some rparen
  | '\x7b' => some lbrace
  | '\x7d' => some rbrace
  | '[' => some lbracket
  | ']' => some rbracket
  | _ => none

end Token

end MonkeyLang
