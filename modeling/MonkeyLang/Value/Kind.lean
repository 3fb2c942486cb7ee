/-!
# Kinds of values

The type of a value as the language names it. Messages speak of values only by their kind.
-/

namespace MonkeyLang

/-- The type of a value. -/
inductive Kind where
  | integer
  | boolean
  | null
  | string
  | array
  | hash
  | function
  | builtin
  | returned
  | error
  | quote
  | macroFn
  deriving DecidableEq, Repr

/-- The name of a type as it stands in messages. -/
def Kind.name : Kind → String
  | integer => "INTEGER"
  | boolean => "BOOLEAN"
  | null => "NULL"
  | string => "STRING"
  | array => "ARRAY"
  | hash => "HASH"
  | function => "FUNCTION"
  | builtin => "BUILTIN"
  | returned => "RETURN_VALUE"
  | error => "ERROR"
  | quote => "QUOTE"
  | macroFn => "MACRO"

end MonkeyLang
