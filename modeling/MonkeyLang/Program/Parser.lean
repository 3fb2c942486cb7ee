import MonkeyLang.Program.Reading
import MonkeyLang.Program.Strength
import MonkeyLang.Text.Decimal
import MonkeyLang.Token.Lexer

/-!
# From tokens to programs

The parser looks one token ahead and never gives up: a statement that cannot be read is dropped,
its error is kept, and reading goes on with the tokens that are left. Operators bind by strength,
and an expression is extended for as long as the next token continues it more strongly than the
context does. The type of each function bounds the tokens that it leaves, so that `readProgram`
consumes every token.
-/

namespace MonkeyLang

/-- The tokens without a semicolon at their front. -/
def skipSemicolon : List Token → List Token
  | .semicolon :: rest => rest
  | tokens => tokens

/-- Skipping a semicolon adds no tokens. -/
theorem length_skipSemicolon_le (tokens : List Token) :
    (skipSemicolon tokens).length ≤ tokens.length := by
  unfold skipSemicolon
  split
  · exact Nat.le_succ _
  · exact Nat.le_refl _

/-- A statement that ends before `rest`, or after the semicolon at the front of `rest`. -/
def Reading.statement (statement : Stmt) (rest : List Token) : Reading (rest.length + 1) Stmt :=
  (Reading.found statement (skipSemicolon rest)).widen
    (Nat.succ_le_succ (length_skipSemicolon_le rest))

/-- Read the names that follow a parameter, each after a comma, and the closing parenthesis. -/
def readMoreParams (tokens : List Token) : Reading (tokens.length + 1) (List String) :=
  match tokens with
  | .comma :: .ident name :: rest =>
      ((readMoreParams rest).map (name :: ·)).widen (Nat.le_add_right _ 2)
  | .comma :: token :: rest =>
      (Reading.refused (.badParameter token) rest).widen (Nat.le_add_right _ 2)
  | [.comma] => .refusedAtEnd (.badParameter .eof)
  | tokens => (Reading.token .rparen tokens).map fun _ => []

/-- Read a parameter list up to its closing parenthesis. -/
def readParams (tokens : List Token) : Reading (tokens.length + 1) (List String) :=
  match tokens with
  | [] => .refusedAtEnd (.badParameter .eof)
  | .rparen :: rest => (Reading.found [] rest).widen (Nat.le_succ _)
  | .ident name :: rest => ((readMoreParams rest).map (name :: ·)).widen (Nat.le_succ _)
  | token :: rest => (Reading.refused (.badParameter token) rest).widen (Nat.le_succ _)

mutual

/-- Read an expression in a context of the given strength. -/
def readExpr (strength : Nat) (tokens : List Token) : Reading tokens.length Expr :=
  (readOperand tokens).andThen (Nat.le_refl _) fun operand rest hoperand =>
    (extendExpr strength operand rest).widen hoperand
termination_by tokens.length * 8 + 1

/-- Extend an expression for as long as the next token continues it more strongly than the context
binds. -/
def extendExpr (strength : Nat) (left : Expr) (tokens : List Token) :
    Reading (tokens.length + 1) Expr :=
  match tokens with
  | [] => .found left []
  | token :: rest =>
      match token.continuationAbove? strength with
      | some continuation => (continueExpr strength left continuation rest).widen (Nat.le_succ _)
      | none => .found left (token :: rest)
termination_by tokens.length * 8

/-- Read what follows the token of a continuation, and extend the expression further. -/
def continueExpr (strength : Nat) (left : Expr) (continuation : Continuation)
    (tokens : List Token) : Reading (tokens.length + 1) Expr :=
  match continuation with
  | .call =>
      (readList .rparen tokens).andThen (by omega) fun args rest hargs =>
      (extendExpr strength (.call left args) rest).widen (by omega)
  | .index =>
      (readExpr loosest tokens).andThen (by omega) fun position rest hposition =>
      (Reading.token .rbracket rest).andThen (by omega) fun _ rest₁ hclose =>
      (extendExpr strength (.index left position) rest₁).widen (by omega)
  | .operator op =>
      (readExpr op.strength tokens).andThen (by omega) fun right rest hright =>
      (extendExpr strength (.binary left op right) rest).widen (by omega)
termination_by tokens.length * 8 + 4

/-- Read an operand: a literal, a name, a unary operator with its operand, or a bracketed form. -/
def readOperand (tokens : List Token) : Reading tokens.length Expr :=
  match tokens with
  | [] => .refusedAtEnd (.noOperand .eof)
  | .ident name :: rest => .found (.ident name) rest
  | .int digits :: rest =>
      match wordOfDigits? digits with
      | some value => .found (.int value) rest
      | none => .refused (.integerRange digits) rest
  | .str text :: rest => .found (.str text) rest
  | .kwTrue :: rest => .found (.bool true) rest
  | .kwFalse :: rest => .found (.bool false) rest
  | .bang :: rest => readUnary .not rest
  | .minus :: rest => readUnary .negate rest
  | .lparen :: rest => readGroup rest
  | .kwIf :: rest => readCond rest
  | .kwFn :: rest => (readClosure rest).map fun (params, body) => .function params body
  | .kwMacro :: rest => (readClosure rest).map fun (params, body) => .macroLit params body
  | .lbracket :: rest => (readList .rbracket rest).map .array
  | .lbrace :: rest => (readPairs rest).map .hash
  | token :: rest => .refused (.noOperand token) rest
termination_by tokens.length * 8

/-- Read the operand of a unary operator. -/
def readUnary (op : UnaryOp) (tokens : List Token) : Reading (tokens.length + 1) Expr :=
  ((readExpr UnaryOp.strength tokens).map (.unary op)).widen (Nat.le_succ _)
termination_by tokens.length * 8 + 2

/-- Read an expression and the parenthesis that closes it. -/
def readGroup (tokens : List Token) : Reading (tokens.length + 1) Expr :=
  (readExpr loosest tokens).andThen (by omega) fun inner rest hinner =>
  ((Reading.token .rparen rest).map fun _ => inner).widen (by omega)
termination_by tokens.length * 8 + 2

/-- Read the condition and the blocks that follow `if`. -/
def readCond (tokens : List Token) : Reading (tokens.length + 1) Expr :=
  (Reading.token .lparen tokens).andThen (by omega) fun _ rest₁ hopen =>
  (readExpr loosest rest₁).andThen (by omega) fun condition rest₂ hcondition =>
  (Reading.token .rparen rest₂).andThen (by omega) fun _ rest₃ hclose =>
  (readBraced rest₃).andThen (by omega) fun consequence rest₄ hconsequence =>
  ((readElse rest₄).map (.cond condition consequence)).widen (by omega)
termination_by tokens.length * 8 + 2

/-- Read the alternative of a conditional, if `else` comes next. -/
def readElse (tokens : List Token) : Reading (tokens.length + 1) (Option Block) :=
  match tokens with
  | .kwElse :: rest => ((readBraced rest).map some).widen (Nat.le_succ _)
  | tokens => .found none tokens
termination_by tokens.length * 8

/-- Read the parameters and the body that follow `fn` or `macro`. -/
def readClosure (tokens : List Token) : Reading (tokens.length + 1) (List String × Block) :=
  (Reading.token .lparen tokens).andThen (by omega) fun _ rest₁ hopen =>
  (readParams rest₁).andThen (by omega) fun params rest₂ hparams =>
  ((readBraced rest₂).map (params, ·)).widen (by omega)
termination_by tokens.length * 8 + 5

/-- Read a block with its opening brace. -/
def readBraced (tokens : List Token) : Reading (tokens.length + 1) Block :=
  (Reading.token .lbrace tokens).andThen (by omega) fun _ rest hopen =>
  (readBlock rest).widen (by omega)
termination_by tokens.length * 8 + 4

/-- Read the statements of a block up to its closing brace. -/
def readBlock (tokens : List Token) : Reading (tokens.length + 1) Block :=
  match tokens with
  | [] => .refusedAtEnd .unterminatedBlock
  | .rbrace :: rest => (Reading.found [] rest).widen (Nat.le_succ _)
  | token :: rest =>
      (readStmt (token :: rest)).recover fun rest₁ hrest =>
      (readBlock rest₁).widen (Nat.succ_le_succ (Nat.le_succ_of_le hrest))
termination_by tokens.length * 8 + 3

/-- Read a list of expressions separated by commas, up to the token that closes it. -/
def readList (close : Token) (tokens : List Token) : Reading (tokens.length + 1) (List Expr) :=
  if tokens.head? = some close then
    (Reading.found [] tokens.tail).widen (by rw [List.length_tail]; omega)
  else
    readItem close tokens
termination_by tokens.length * 8 + 3

/-- Read the expressions that follow another one, each after a comma, and the closing token. -/
def readMoreItems (close : Token) (tokens : List Token) :
    Reading (tokens.length + 1) (List Expr) :=
  match tokens with
  | .comma :: rest => (readItem close rest).widen (Nat.le_succ _)
  | tokens => (Reading.token close tokens).map fun _ => []
termination_by tokens.length * 8

/-- Read an expression of a list, and those that follow it. -/
def readItem (close : Token) (tokens : List Token) : Reading (tokens.length + 1) (List Expr) :=
  (readExpr loosest tokens).andThen (by omega) fun item rest hitem =>
  ((readMoreItems close rest).map (item :: ·)).widen (by omega)
termination_by tokens.length * 8 + 2

/-- Read the pairs of a hash literal up to its closing brace. A comma may stand before the brace. -/
def readPairs (tokens : List Token) : Reading (tokens.length + 1) (List (Expr × Expr)) :=
  match tokens with
  | .rbrace :: rest => (Reading.found [] rest).widen (Nat.le_succ _)
  | tokens =>
      (readExpr loosest tokens).andThen (by omega) fun key rest₁ hkey =>
      (Reading.token .colon rest₁).andThen (by omega) fun _ rest₂ hcolon =>
      (readExpr loosest rest₂).andThen (by omega) fun value rest₃ hvalue =>
      ((readMorePairs rest₃).map ((key, value) :: ·)).widen (by omega)
termination_by tokens.length * 8 + 2

/-- Read the pairs that follow another one: none if the closing brace comes next, and otherwise what
stands after a comma. -/
def readMorePairs (tokens : List Token) : Reading (tokens.length + 1) (List (Expr × Expr)) :=
  match tokens with
  | .rbrace :: rest => (Reading.found [] rest).widen (Nat.le_succ _)
  | tokens =>
      (Reading.token .comma tokens).andThen (by omega) fun _ rest hcomma =>
      (readPairs rest).widen (by omega)
termination_by tokens.length * 8 + 3

/-- Read a statement and the semicolon after it, if there is one. -/
def readStmt (tokens : List Token) : Reading tokens.length Stmt :=
  match tokens with
  | .kwLet :: .ident name :: rest => (readBinding name rest).widen (Nat.le_succ _)
  | .kwLet :: token :: rest => .refused (.missingName token) (token :: rest)
  | [.kwLet] => .refusedAtEnd (.missingName .eof)
  | .kwReturn :: rest =>
      (readExpr loosest rest).andThen (Nat.le_succ _) fun value rest₁ hvalue =>
      (Reading.statement (.ret value) rest₁).widen (Nat.le_succ_of_le hvalue)
  | tokens =>
      (readExpr loosest tokens).andThen (Nat.le_refl _) fun value rest hvalue =>
      (Reading.statement (.expr value) rest).widen hvalue
termination_by tokens.length * 8 + 2

/-- Read the rest of a binding after its name. -/
def readBinding (name : String) (tokens : List Token) : Reading (tokens.length + 1) Stmt :=
  (Reading.token .assign tokens).andThen (by omega) fun _ rest₁ hassign =>
  (readExpr loosest rest₁).andThen (by omega) fun value rest₂ hvalue =>
  (Reading.statement (.bind name value) rest₂).widen (by omega)
termination_by tokens.length * 8 + 2

end

/-- What the parser makes of an input unit: the statements that could be read, in order, and the
errors of those that were dropped at any depth. -/
structure Parse where
  program : Program
  errors : List ParseError

/-- Read statements until no token is left. -/
def readProgram (tokens : List Token) : Parse :=
  match tokens with
  | [] => ⟨[], []⟩
  | token :: rest =>
      match readStmt (token :: rest) with
      | .done statement dropped rest₁ _hdone =>
          let remaining := readProgram rest₁
          ⟨statement :: remaining.program, dropped ++ remaining.errors⟩
      | .failed error dropped rest₁ _hfailed =>
          let remaining := readProgram rest₁
          ⟨remaining.program, dropped ++ error :: remaining.errors⟩
termination_by tokens.length
decreasing_by
  · exact _hdone
  · exact Nat.lt_succ_of_le _hfailed

/-- Parse a source text, keeping what could be read and every error. -/
def parseWithErrors (source : String) : Parse :=
  readProgram (lexemes source.toList)

/-- Parse a source text. It is accepted only if no statement had to be dropped. -/
def parse (source : String) : Except (List ParseError) Program :=
  let result := parseWithErrors source
  if result.errors.isEmpty then .ok result.program else .error result.errors

end MonkeyLang
