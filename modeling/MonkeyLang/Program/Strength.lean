import MonkeyLang.Expr.Basic
import MonkeyLang.Token.Basic

/-!
# Binding strength

How strongly tokens hold on to the expression before them, and how they continue it. Equality binds
most loosely, then comparison, sums, products, unary operators, calls and indexing. Two tables say
this of a token: its strength, by which the parser decides whether it goes on, and its operator,
which the parser then asks for. A token that binds at all has something to go on with
(`Token.isSome_continuation?`), so the parser is never left without a continuation.
-/

namespace MonkeyLang

/-- The binding strength of a context that any operator may continue. -/
def loosest : Nat := 0

/-- The binding strength of a unary operator on its operand. -/
def UnaryOp.strength : Nat := 5

/-- How strongly a token binds the expression before it. Most tokens do not bind it at all. -/
def Token.strength : Token → Nat
  | eq | notEq => 1
  | lt | gt => 2
  | plus | minus => 3
  | asterisk | slash => 4
  | lparen => 6
  | lbracket => 7
  | _ => loosest

/-- The binary operator that a token stands for. -/
def Token.operator? : Token → Option BinaryOp
  | plus => some .add
  | minus => some .subtract
  | asterisk => some .multiply
  | slash => some .divide
  | lt => some .less
  | gt => some .greater
  | eq => some .equal
  | notEq => some .notEqual
  | _ => none

/-- The token of a binary operator. -/
def BinaryOp.token : BinaryOp → Token
  | add => .plus
  | subtract => .minus
  | multiply => .asterisk
  | divide => .slash
  | less => .lt
  | greater => .gt
  | equal => .eq
  | notEqual => .notEq

/-- The binding strength of a binary operator on its right operand. -/
def BinaryOp.strength (op : BinaryOp) : Nat :=
  op.token.strength

/-- The ways in which an expression can go on. -/
inductive Continuation where
  | operator (op : BinaryOp)
  | call
  | index

/-- How strongly a continuation binds what stands before it. -/
def Continuation.strength : Continuation → Nat
  | operator op => op.strength
  | call => Token.lparen.strength
  | index => Token.lbracket.strength

namespace Token

/-- How a token continues the expression before it, if it can. -/
def continuation? : Token → Option Continuation
  | lparen => some .call
  | lbracket => some .index
  | token => token.operator?.map .operator

/-- A token that binds more strongly than some context opens a call or an index position, or stands
for an operator. -/
theorem isSome_continuation? {token : Token} {strength : Nat} (hbinds : strength < token.strength) :
    token.continuation?.isSome := by
  cases token with
  | plus | minus | asterisk | slash | lt | gt | eq | notEq | lparen | lbracket => rfl
  | _ => exact absurd hbinds (Nat.not_lt_zero strength)

/-- How a token continues the expression before it, if it binds more strongly than `strength`. -/
def continuationAbove? (strength : Nat) (token : Token) : Option Continuation :=
  if hbinds : strength < token.strength then
    some (token.continuation?.get (isSome_continuation? hbinds))
  else
    none

end Token

end MonkeyLang
