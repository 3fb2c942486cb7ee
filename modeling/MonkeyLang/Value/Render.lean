import MonkeyLang.Expr.Render
import MonkeyLang.Value.Basic

/-!
# Printing values

Strings print as their text, without quotes, at every depth. Functions and macros print as the code
they were made from, and quoted code prints as the expression inside. In what order the entries of a
hash are printed is left open: it is a parameter, and nothing but the text depends on it.
-/

namespace MonkeyLang

/-- An order to print the entries of hashes in: some permutation of the entries of each hash. All
that is assumed is that the order is a function of the hash, that is, of the hash keys and the texts
of its entries. -/
structure HashOrder where
  arrange : List (Entry String) → List (Entry String)
  perm : ∀ entries, (arrange entries).Perm entries

/-- The order in which entries are represented. -/
def HashOrder.stored : HashOrder := ⟨id, .refl⟩

/-- The text of an entry, given the texts of its key and its value. -/
def Entry.text (entry : Entry String) : String :=
  entry.key ++ ": " ++ entry.value

mutual

/-- The printed form of a value, with the entries of each hash in the given order. -/
def Value.render (order : HashOrder) : Value → String
  | .int value => decimal value.toInt
  | .bool value => if value then "true" else "false"
  | .null => "null"
  | .str text => text
  | .array elements => "[" ++ ", ".intercalate (renderValues order elements) ++ "]"
  | .hash entries =>
      let arranged := order.arrange (renderEntries order entries)
      "\x7b" ++ ", ".intercalate (arranged.map Entry.text) ++ "\x7d"
  | .function params body _ => renderClosure "fn" params (renderStmts body)
  | .builtin _ => "builtin function"
  | .returned value => value.render order
  | .error message => "ERROR: " ++ message
  | .quote expr => "QUOTE(" ++ expr.render ++ ")"
  | .macroFn params body _ => renderClosure "macro" params (renderStmts body)

/-- The printed forms of values. -/
def renderValues (order : HashOrder) : List Value → List String
  | [] => []
  | value :: values => value.render order :: renderValues order values

/-- The entries of a hash with the printed forms of their keys and values. -/
def renderEntries (order : HashOrder) : List (Entry Value) → List (Entry String)
  | [] => []
  | ⟨hashKey, key, value⟩ :: entries =>
      ⟨hashKey, key.render order, value.render order⟩ :: renderEntries order entries

end

end MonkeyLang
