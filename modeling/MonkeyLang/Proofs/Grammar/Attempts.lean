import MonkeyLang.Program.Parser

/-!
# Where the parser tries to read a statement

A statement is tried at the front of what is left of a program or of a block. The attempts inside
one construct are listed in order, without those that are nested in others: read `attemptsInStmt`
and `attemptsInProgram`. `Attempted` is every attempt at any depth. An attempt is named by the
tokens at whose front it is made, because these decide what comes of it.
-/

namespace MonkeyLang

namespace Reading

variable {α : Type} {bound : Nat}

/-- The construct that was read, if there is one. -/
def value? : Reading bound α → Option α
  | done value .. => some value
  | failed .. => none

/-- The errors of the statements that were dropped inside. -/
def dropped : Reading bound α → List ParseError
  | done _ dropped .. => dropped
  | failed _ dropped .. => dropped

/-- The tokens that are left. -/
def rest : Reading bound α → List Token
  | done _ _ rest _ => rest
  | failed _ _ rest _ => rest

/-- Every error of a reading, its own one last. -/
def errors : Reading bound α → List ParseError
  | done _ dropped .. => dropped
  | failed error dropped .. => dropped ++ [error]

/-- The attempts behind a construct: none if it could not be read. -/
def onward (reading : Reading bound α)
    (attempts : (rest : List Token) → rest.length < bound → List (List Token)) :
    List (List Token) :=
  match reading with
  | done _ _ rest shorter => attempts rest shorter
  | failed .. => []

/-- What is left is within the bound. -/
theorem length_rest_le (reading : Reading (bound + 1) α) : reading.rest.length ≤ bound := by
  cases reading with
  | done value dropped rest shorter => exact Nat.le_of_lt_succ shorter
  | failed error dropped rest shorter => exact shorter

end Reading

/-- The statement that is read from the front of the tokens, if that succeeds. -/
def stmtAt? (tokens : List Token) : Option Stmt :=
  (readStmt tokens).value?

/-- The errors that reading a statement from the front of the tokens leaves. -/
def errorsAt (tokens : List Token) : List ParseError :=
  (readStmt tokens).errors

/-- The tokens that reading a statement from the front of the tokens consumes. -/
def consumedAt (tokens : List Token) : List Token :=
  tokens.take (tokens.length - (readStmt tokens).rest.length)

/-- The statements that are tried one after the other up to the brace that closes a block. A
statement that cannot be read does not end the block. -/
def attemptsInBlock (tokens : List Token) : List (List Token) :=
  match tokens with
  | [] => []
  | .rbrace :: _ => []
  | token :: rest => (token :: rest) :: attemptsInBlock (readStmt (token :: rest)).rest
termination_by tokens.length
decreasing_by exact Nat.lt_succ_of_le (Reading.length_rest_le (readStmt (token :: rest)))

/-- The attempts in a block with its opening brace. -/
def attemptsInBraced (tokens : List Token) : List (List Token) :=
  (Reading.token .lbrace tokens).onward fun rest _ => attemptsInBlock rest

/-- The attempts in the alternative of a conditional. -/
def attemptsInElse (tokens : List Token) : List (List Token) :=
  match tokens with
  | .kwElse :: rest => attemptsInBraced rest
  | _ => []

/-- The attempts in the body that follows `fn` or `macro` and the parameters. -/
def attemptsInClosure (tokens : List Token) : List (List Token) :=
  (Reading.token .lparen tokens).onward fun rest₁ _ =>
  (readParams rest₁).onward fun rest₂ _ => attemptsInBraced rest₂

mutual

/-- The attempts in an expression: those in its first operand, and those in what extends it. -/
def attemptsInExpr (strength : Nat) (tokens : List Token) : List (List Token) :=
  attemptsInOperand tokens ++
    (readOperand tokens).onward fun rest _ => attemptsInExtension strength rest
termination_by tokens.length * 8 + 1

/-- The attempts in what extends an expression. -/
def attemptsInExtension (strength : Nat) (tokens : List Token) : List (List Token) :=
  match tokens with
  | [] => []
  | token :: rest =>
      match token.continuationAbove? strength with
      | some continuation => attemptsInContinuation strength continuation rest
      | none => []
termination_by tokens.length * 8

/-- The attempts behind the token of a continuation. -/
def attemptsInContinuation (strength : Nat) (continuation : Continuation)
    (tokens : List Token) : List (List Token) :=
  match continuation with
  | .call =>
      attemptsInList .rparen tokens ++
        (readList .rparen tokens).onward fun rest _ => attemptsInExtension strength rest
  | .index =>
      attemptsInExpr loosest tokens ++
        (readExpr loosest tokens).onward fun rest _ =>
        (Reading.token .rbracket rest).onward fun rest₁ _ => attemptsInExtension strength rest₁
  | .operator op =>
      attemptsInExpr op.strength tokens ++
        (readExpr op.strength tokens).onward fun rest _ => attemptsInExtension strength rest
termination_by tokens.length * 8 + 4

/-- The attempts in an operand. Names and literals have none. -/
def attemptsInOperand (tokens : List Token) : List (List Token) :=
  match tokens with
  | .bang :: rest => attemptsInExpr UnaryOp.strength rest
  | .minus :: rest => attemptsInExpr UnaryOp.strength rest
  | .lparen :: rest => attemptsInExpr loosest rest
  | .kwIf :: rest => attemptsInCond rest
  | .kwFn :: rest => attemptsInClosure rest
  | .kwMacro :: rest => attemptsInClosure rest
  | .lbracket :: rest => attemptsInList .rbracket rest
  | .lbrace :: rest => attemptsInPairs rest
  | _ => []
termination_by tokens.length * 8

/-- The attempts in the condition and the blocks that follow `if`. -/
def attemptsInCond (tokens : List Token) : List (List Token) :=
  (Reading.token .lparen tokens).onward fun rest₁ _ =>
  attemptsInExpr loosest rest₁ ++
    (readExpr loosest rest₁).onward fun rest₂ _ =>
    (Reading.token .rparen rest₂).onward fun rest₃ _ =>
    attemptsInBraced rest₃ ++
      (readBraced rest₃).onward fun rest₄ _ => attemptsInElse rest₄
termination_by tokens.length * 8 + 2

/-- The attempts in a list of expressions. -/
def attemptsInList (close : Token) (tokens : List Token) : List (List Token) :=
  if tokens.head? = some close then [] else attemptsInItem close tokens
termination_by tokens.length * 8 + 3

/-- The attempts in the expressions that follow another one. -/
def attemptsInMoreItems (close : Token) (tokens : List Token) : List (List Token) :=
  match tokens with
  | .comma :: rest => attemptsInItem close rest
  | _ => []
termination_by tokens.length * 8

/-- The attempts in an expression of a list, and in those that follow it. -/
def attemptsInItem (close : Token) (tokens : List Token) : List (List Token) :=
  attemptsInExpr loosest tokens ++
    (readExpr loosest tokens).onward fun rest _ => attemptsInMoreItems close rest
termination_by tokens.length * 8 + 2

/-- The attempts in the pairs of a hash literal. -/
def attemptsInPairs (tokens : List Token) : List (List Token) :=
  match tokens with
  | .rbrace :: _ => []
  | tokens =>
      attemptsInExpr loosest tokens ++
        (readExpr loosest tokens).onward fun rest₁ _ =>
        (Reading.token .colon rest₁).onward fun rest₂ _ =>
        attemptsInExpr loosest rest₂ ++
          (readExpr loosest rest₂).onward fun rest₃ _ => attemptsInMorePairs rest₃
termination_by tokens.length * 8 + 2

/-- The attempts in the pairs that follow another one. -/
def attemptsInMorePairs (tokens : List Token) : List (List Token) :=
  match tokens with
  | .rbrace :: _ => []
  | tokens => (Reading.token .comma tokens).onward fun rest _ => attemptsInPairs rest
termination_by tokens.length * 8 + 3

end

/-- The attempts in a statement, those nested in other attempts left out. -/
def attemptsInStmt (tokens : List Token) : List (List Token) :=
  match tokens with
  | .kwLet :: .ident _ :: rest =>
      (Reading.token .assign rest).onward fun rest₁ _ => attemptsInExpr loosest rest₁
  | .kwLet :: _ => []
  | .kwReturn :: rest => attemptsInExpr loosest rest
  | tokens => attemptsInExpr loosest tokens

/-- The statements of a program that are tried one after the other until no token is left. -/
def attemptsInProgram (tokens : List Token) : List (List Token) :=
  match tokens with
  | [] => []
  | token :: rest => (token :: rest) :: attemptsInProgram (readStmt (token :: rest)).rest
termination_by tokens.length
decreasing_by exact Nat.lt_succ_of_le (Reading.length_rest_le (readStmt (token :: rest)))

/-- A statement is tried at these tokens when the program is read, at any depth. -/
inductive Attempted (program : List Token) : List Token → Prop where
  | top {tokens : List Token} : tokens ∈ attemptsInProgram program → Attempted program tokens
  | nested {outer tokens : List Token} :
      Attempted program outer → tokens ∈ attemptsInStmt outer → Attempted program tokens

end MonkeyLang
