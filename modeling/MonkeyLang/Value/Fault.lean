import MonkeyLang.Expr.Render
import MonkeyLang.Value.Kind

/-!
# Faults

Why an evaluation fails. Each cause carries what its message shows, and `Fault.message` is the only
place with the wording.
-/

namespace MonkeyLang

/-- The cause of a failed evaluation. -/
inductive Fault where
  /-- No scope in reach binds the name. -/
  | unbound (name : String)
  /-- The operands of a binary operator have different types that do not go together. -/
  | typeMismatch (left : Kind) (op : BinaryOp) (right : Kind)
  /-- A binary operator is not defined on two operands of this type. -/
  | unknownBinary (op : BinaryOp) (kind : Kind)
  /-- A unary operator is not defined on this type. -/
  | unknownUnary (op : UnaryOp) (kind : Kind)
  /-- The exact result of an operation is not a word. -/
  | overflow (left : Int64) (op : BinaryOp) (right : Int64)
  /-- The exact negation is not a word. -/
  | negationOverflow (operand : Int64)
  | divisionByZero (dividend : Int64)
  | notAFunction (kind : Kind)
  /-- A function or macro was given a wrong number of arguments. -/
  | arity (want got : Nat)
  | unhashable (kind : Kind)
  | notIndexable (collection position : Kind)
  /-- A named operation was given a wrong number of arguments. -/
  | argCount (operation : String) (got want : Nat)
  /-- A named operation does not accept arguments of this type. -/
  | argNotSupported (operation : String) (found : Kind)
  /-- A named operation wants an argument of another type. -/
  | argKind (operation : String) (want found : Kind)
  /-- The value has no expression that stands for it. -/
  | notReifiable (kind : Kind)
  /-- A macro did not answer with quoted code. -/
  | macroResult (name : String) (found : Kind)
  /-- A named operation could not write its output. -/
  | outputFailed (operation : String) (reason : String)
  deriving DecidableEq, Repr

/-- The message shown for a fault. -/
def Fault.message : Fault → String
  | unbound name => "identifier not found: " ++ name
  | typeMismatch left op right =>
      "type mismatch: " ++ left.name ++ " " ++ op.symbol ++ " " ++ right.name
  | unknownBinary op kind =>
      "unknown operator: " ++ kind.name ++ " " ++ op.symbol ++ " " ++ kind.name
  | unknownUnary op kind => "unknown operator: " ++ op.symbol ++ kind.name
  | overflow left op right =>
      "integer overflow: " ++ decimal left.toInt ++ " " ++ op.symbol ++ " " ++ decimal right.toInt
  | negationOverflow operand => "integer overflow: -" ++ decimal operand.toInt
  | divisionByZero dividend => "division by zero: " ++ decimal dividend.toInt ++ " / 0"
  | notAFunction kind => "not a function: " ++ kind.name
  | arity want got =>
      "wrong number of arguments: want=" ++ want.repr ++ ", got=" ++ got.repr
  | unhashable kind => "unusable as hash key: " ++ kind.name
  | notIndexable collection position =>
      "index operator not supported: " ++ collection.name ++ "[" ++ position.name ++ "]"
  | argCount operation got want =>
      "wrong number of arguments to `" ++ operation ++ "`: got=" ++ got.repr ++ ", want=" ++
        want.repr
  | argNotSupported operation found =>
      "argument to `" ++ operation ++ "` not supported, got " ++ found.name
  | argKind operation want found =>
      "argument to `" ++ operation ++ "` must be " ++ want.name ++ ", got " ++ found.name
  | notReifiable kind => "cannot unquote value of type " ++ kind.name
  | macroResult name found =>
      "macro " ++ name ++ " must return a quoted expression, got " ++ found.name
  | outputFailed operation reason => "`" ++ operation ++ "` failed: " ++ reason

end MonkeyLang
