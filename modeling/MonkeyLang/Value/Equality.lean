import MonkeyLang.Expr.Equality
import MonkeyLang.Value.Basic

/-!
# Equality of values

Values of different types differ. Functions and macros equal nothing, not even themselves. Hashes
are equal if they store equal keys and values under the same hash keys.
-/

namespace MonkeyLang

mutual

/-- Whether two values are equal. -/
def Value.equal : Value → Value → Bool
  | .int value, .int value' => value == value'
  | .bool value, .bool value' => value == value'
  | .null, .null => true
  | .str text, .str text' => text == text'
  | .array elements, .array elements' => equalValues elements elements'
  | .hash entries, .hash entries' => equalEntries entries entries'
  | .builtin builtin, .builtin builtin' => builtin == builtin'
  | .returned value, .returned value' => value.equal value'
  | .error message, .error message' => message == message'
  | .quote expr, .quote expr' => expr == expr'
  | _, _ => false

/-- Whether two lists of values are equal item by item. -/
def equalValues : List Value → List Value → Bool
  | [], [] => true
  | value :: values, value' :: values' => value.equal value' && equalValues values values'
  | _, _ => false

/-- Whether two lists of entries are equal entry by entry. -/
def equalEntries : List (Entry Value) → List (Entry Value) → Bool
  | [], [] => true
  | ⟨hashKey, key, value⟩ :: entries, ⟨hashKey', key', value'⟩ :: entries' =>
      hashKey == hashKey' && key.equal key' && value.equal value' && equalEntries entries entries'
  | _, _ => false

end

instance : BEq Value := ⟨Value.equal⟩

end MonkeyLang
