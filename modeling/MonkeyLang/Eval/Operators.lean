import MonkeyLang.Value.Equality
import MonkeyLang.Value.Hash

/-!
# Operators on values

Integer arithmetic is exact or it fails: a result that is not a word is a fault, as is a division by
zero. Division rounds toward zero. Booleans and null are compared with each other, and strings are
joined by `+`. No other operands go together.
-/

namespace MonkeyLang

/-- The fault of a binary operator on operands that do not go together. -/
def operandFault (op : BinaryOp) (left right : Value) : Fault :=
  if left.kind = right.kind then .unknownBinary op left.kind
  else .typeMismatch left.kind op right.kind

/-- The exact result of an operation on words, if it is a word. -/
def exactResult (left : Int64) (op : BinaryOp) (right : Int64) (exact : Int) :
    Except Fault Value :=
  match word? exact with
  | some word => .ok (.int word)
  | none => .error (.overflow left op right)

/-- A binary operator on integers. -/
def BinaryOp.onInts (op : BinaryOp) (left right : Int64) : Except Fault Value :=
  match op with
  | add => exactResult left op right (left.toInt + right.toInt)
  | subtract => exactResult left op right (left.toInt - right.toInt)
  | multiply => exactResult left op right (left.toInt * right.toInt)
  | divide =>
      if right = 0 then .error (.divisionByZero left)
      else exactResult left op right (left.toInt.tdiv right.toInt)
  | less => .ok (.bool (left.toInt < right.toInt))
  | greater => .ok (.bool (right.toInt < left.toInt))
  | equal => .ok (.bool (left = right))
  | notEqual => .ok (.bool (left ≠ right))

/-- A binary operator on two operands that are booleans or null. -/
def BinaryOp.onTruth (op : BinaryOp) (left right : Value) : Except Fault Value :=
  match op with
  | equal => .ok (.bool (left == right))
  | notEqual => .ok (.bool (left != right))
  | _ => .error (operandFault op left right)

/-- A binary operator on any two operands. -/
def BinaryOp.apply (op : BinaryOp) (left right : Value) : Except Fault Value :=
  match left, right with
  | .int left, .int right => op.onInts left right
  | .str left', .str right' =>
      if op = add then .ok (.str (left' ++ right')) else .error (operandFault op left right)
  | .bool _, .bool _ => op.onTruth left right
  | .bool _, .null => op.onTruth left right
  | .null, .bool _ => op.onTruth left right
  | .null, .null => op.onTruth left right
  | _, _ => .error (operandFault op left right)

/-- A unary operator on an operand. -/
def UnaryOp.apply (op : UnaryOp) (operand : Value) : Except Fault Value :=
  match op with
  | not => .ok (.bool !operand.truthy)
  | negate =>
      match operand with
      | .int value =>
          match word? (-value.toInt) with
          | some word => .ok (.int word)
          | none => .error (.negationOverflow value)
      | other => .error (.unknownUnary op other.kind)

/-- The element at a position, or null outside the list. -/
def elementAt (elements : List Value) (position : Int64) : Value :=
  if position.toInt < 0 then .null else elements[position.toInt.toNat]?.getD .null

/-- Index a collection: an array by an integer, or a hash by any hashable value. What is not there
is null. -/
def Value.indexBy (collection position : Value) : Except Fault Value :=
  match collection, position with
  | array elements, int position => .ok (elementAt elements position)
  | hash entries, key => do
      let hashKey ← key.hashKey
      return ((entryFor? hashKey entries).map Entry.value).getD .null
  | _, _ => .error (.notIndexable collection.kind position.kind)

end MonkeyLang
