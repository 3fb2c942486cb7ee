import Mathlib.Algebra.Group.Nat.Defs
import MonkeyLang.Program.Parser

/-!
# The grammar of programs

Which token sequences are renderings of which trees. `Phrase level tokens expr` says that the tokens
are a rendering of the expression at a level or a tighter one, and `Statements tokens program` that
they are a rendering of a program or of the inside of a block. The levels of the operators, and the
tokens that may not follow a statement, are given here on their own. The parser is compared with
them in `Proofs.Grammar.Soundness` and `Proofs.Grammar.Completeness`.
-/

namespace MonkeyLang

/-- The token of a unary operator. -/
def UnaryOp.token : UnaryOp → Token
  | not => .bang
  | negate => .minus

/-- Whether a token could continue an expression that stands before it. -/
def Token.Continues (token : Token) : Prop :=
  token ∈ [Token.lparen, .lbracket, .plus, .minus, .asterisk, .slash, .lt, .gt, .eq, .notEq]

instance (token : Token) : Decidable token.Continues :=
  inferInstanceAs (Decidable (_ ∈ _))

namespace Grammar

/-- How tightly an expression holds together. A `chain` is a primary expression with any number of
calls and index positions behind it. -/
inductive Level where
  | equality
  | comparison
  | sum
  | product
  | unary
  | chain
  deriving DecidableEq, Repr

/-- The place of a level in the order from loose to tight. -/
def Level.rank : Level → Nat
  | equality => 1
  | comparison => 2
  | sum => 3
  | product => 4
  | unary => 5
  | chain => 6

end Grammar

open Grammar (Level)

/-- The level of a binary operator. -/
def BinaryOp.level : BinaryOp → Level
  | equal | notEqual => .equality
  | less | greater => .comparison
  | add | subtract => .sum
  | multiply | divide => .product

namespace Grammar

/-- The number that decimal digits denote. -/
def number (digits : String) : Nat :=
  Nat.ofDigitChars 10 digits.toList 0

/-- The names of parameters, separated by commas. -/
def paramTokens (params : List String) : List Token :=
  (params.map Token.ident).intersperse .comma

mutual

/-- `Phrase level tokens expr` says that the tokens are a rendering of the expression on the level
or on a tighter one. Operators on one level group to the left: the left operand of an operator may
be on its level, and the right operand has to be tighter. -/
inductive Phrase : Level → List Token → Expr → Prop where
  | loosen {loose tight : Level} {tokens : List Token} {expr : Expr} :
      loose.rank ≤ tight.rank → Phrase tight tokens expr → Phrase loose tokens expr
  | binary {op : BinaryOp} {tight : Level} {leftTokens rightTokens : List Token}
      {left right : Expr} :
      Phrase op.level leftTokens left → op.level.rank < tight.rank →
      Phrase tight rightTokens right →
      Phrase op.level (leftTokens ++ op.token :: rightTokens) (.binary left op right)
  | unary {op : UnaryOp} {tokens : List Token} {operand : Expr} :
      Phrase .unary tokens operand → Phrase .unary (op.token :: tokens) (.unary op operand)
  | call {calleeTokens argTokens : List Token} {callee : Expr} {args : List Expr} :
      Phrase .chain calleeTokens callee → Items argTokens args →
      Phrase .chain (calleeTokens ++ .lparen :: (argTokens ++ [.rparen])) (.call callee args)
  | index {collectionTokens positionTokens : List Token} {collection position : Expr} :
      Phrase .chain collectionTokens collection → Phrase .equality positionTokens position →
      Phrase .chain (collectionTokens ++ .lbracket :: (positionTokens ++ [.rbracket]))
        (.index collection position)
  | primary {tokens : List Token} {expr : Expr} :
      Primary tokens expr → Phrase .chain tokens expr

/-- `Primary tokens expr` says that the tokens are a rendering of an expression that needs no
operator: a name, a literal, a conditional, or any expression in parentheses, which leave no
trace in the tree. -/
inductive Primary : List Token → Expr → Prop where
  | ident (name : String) : Primary [.ident name] (.ident name)
  | int {digits : String} :
      number digits ≤ 2 ^ 63 - 1 → Primary [.int digits] (.int (.ofNat (number digits)))
  | str (text : String) : Primary [.str text] (.str text)
  | kwTrue : Primary [.kwTrue] (.bool true)
  | kwFalse : Primary [.kwFalse] (.bool false)
  | group {tokens : List Token} {expr : Expr} :
      Phrase .equality tokens expr → Primary (.lparen :: (tokens ++ [.rparen])) expr
  | cond {conditionTokens tokens : List Token} {condition : Expr} {consequence : Block} :
      Phrase .equality conditionTokens condition → Statements tokens consequence →
      Primary (.kwIf :: .lparen :: (conditionTokens ++ .rparen :: .lbrace :: (tokens ++ [.rbrace])))
        (.cond condition consequence none)
  | condElse {conditionTokens tokens elseTokens : List Token} {condition : Expr}
      {consequence alternative : Block} :
      Phrase .equality conditionTokens condition → Statements tokens consequence →
      Statements elseTokens alternative →
      Primary (.kwIf :: .lparen :: (conditionTokens ++ .rparen :: .lbrace ::
          (tokens ++ .rbrace :: .kwElse :: .lbrace :: (elseTokens ++ [.rbrace]))))
        (.cond condition consequence (some alternative))
  | function (params : List String) {tokens : List Token} {body : Block} :
      Statements tokens body →
      Primary (.kwFn :: .lparen :: (paramTokens params ++ .rparen :: .lbrace ::
          (tokens ++ [.rbrace])))
        (.function params body)
  | macroLit (params : List String) {tokens : List Token} {body : Block} :
      Statements tokens body →
      Primary (.kwMacro :: .lparen :: (paramTokens params ++ .rparen :: .lbrace ::
          (tokens ++ [.rbrace])))
        (.macroLit params body)
  | array {tokens : List Token} {elements : List Expr} :
      Items tokens elements → Primary (.lbracket :: (tokens ++ [.rbracket])) (.array elements)
  | hash {tokens : List Token} {pairs : List (Expr × Expr)} :
      Pairs tokens pairs → Primary (.lbrace :: (tokens ++ [.rbrace])) (.hash pairs)

/-- `Items tokens exprs` says that the tokens are renderings of the expressions, separated by
commas. -/
inductive Items : List Token → List Expr → Prop where
  | nil : Items [] []
  | one {tokens : List Token} {expr : Expr} : Phrase .equality tokens expr → Items tokens [expr]
  | more {tokens restTokens : List Token} {expr next : Expr} {rest : List Expr} :
      Phrase .equality tokens expr → Items restTokens (next :: rest) →
      Items (tokens ++ .comma :: restTokens) (expr :: next :: rest)

/-- `Pairs tokens pairs` says that the tokens are renderings of the pairs, separated by commas. A
comma may stand behind the last pair too. -/
inductive Pairs : List Token → List (Expr × Expr) → Prop where
  | nil : Pairs [] []
  | one {keyTokens valueTokens : List Token} {key value : Expr} :
      Phrase .equality keyTokens key → Phrase .equality valueTokens value →
      Pairs (keyTokens ++ .colon :: valueTokens) [(key, value)]
  | more {keyTokens valueTokens restTokens : List Token} {key value : Expr}
      {rest : List (Expr × Expr)} :
      Phrase .equality keyTokens key → Phrase .equality valueTokens value →
      Pairs restTokens rest →
      Pairs (keyTokens ++ .colon :: (valueTokens ++ .comma :: restTokens)) ((key, value) :: rest)

/-- `Statement tokens statement` says that the tokens are a rendering of the statement, without a
semicolon behind it. -/
inductive Statement : List Token → Stmt → Prop where
  | bind (name : String) {tokens : List Token} {value : Expr} :
      Phrase .equality tokens value →
      Statement (.kwLet :: .ident name :: .assign :: tokens) (.bind name value)
  | ret {tokens : List Token} {value : Expr} :
      Phrase .equality tokens value → Statement (.kwReturn :: tokens) (.ret value)
  | expr {tokens : List Token} {value : Expr} :
      Phrase .equality tokens value → Statement tokens (.expr value)

/-- `Statements tokens statements` says that the tokens are a rendering of the statements. A
semicolon may stand behind each. Where it is missing, what comes next must not be able to continue
the statement. -/
inductive Statements : List Token → List Stmt → Prop where
  | nil : Statements [] []
  | closed {tokens restTokens : List Token} {statement : Stmt} {rest : List Stmt} :
      Statement tokens statement → Statements restTokens rest →
      Statements (tokens ++ .semicolon :: restTokens) (statement :: rest)
  | unclosed {tokens restTokens : List Token} {statement : Stmt} {rest : List Stmt} :
      Statement tokens statement → (∀ next ∈ restTokens.head?, ¬ next.Continues) →
      Statements restTokens rest →
      Statements (tokens ++ restTokens) (statement :: rest)

end

end Grammar

end MonkeyLang
