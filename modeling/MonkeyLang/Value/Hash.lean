import MonkeyLang.Text.Bytes
import MonkeyLang.Value.Basic
import MonkeyLang.Value.Digest
import MonkeyLang.Value.Fault

/-!
# Hashes

Integers, booleans and strings are hashable. A hash keeps one entry for each hash key. It is a
finite map, represented by the list of its entries by increasing hash keys, so that the same entries
make the same list whatever order they came in. This order is one of the representation only: the
order of printing is a parameter of its own (`HashOrder`). Strings are told apart by their digest
alone.
-/

namespace MonkeyLang

/-- The place of a kind in the order of representation. -/
def HashKind.rank : HashKind → Nat
  | boolean => 0
  | integer => 1
  | string => 2

/-- The order by which entries are represented: by kind, then by unsigned digest. -/
def HashKey.before (left right : HashKey) : Bool :=
  left.kind.rank < right.kind.rank ||
    (left.kind = right.kind && left.digest.toNat < right.digest.toNat)

/-- The hash key of a value. The digest of an integer is its bit pattern. -/
def Value.hashKey : Value → Except Fault HashKey
  | int value => .ok ⟨.integer, value.toUInt64⟩
  | bool value => .ok ⟨.boolean, if value then 1 else 0⟩
  | str text => .ok ⟨.string, fnv1a (utf8 text)⟩
  | other => .error (.unhashable other.kind)

variable {α : Type}

/-- Put an entry in its place of the representation, instead of the entry with the same hash key if
there is one. -/
def insertEntry (entry : Entry α) : List (Entry α) → List (Entry α)
  | [] => [entry]
  | head :: tail =>
      if entry.hashKey = head.hashKey then entry :: tail
      else if entry.hashKey.before head.hashKey then entry :: head :: tail
      else head :: insertEntry entry tail

/-- The entry stored under a hash key. -/
def entryFor? (hashKey : HashKey) (entries : List (Entry α)) : Option (Entry α) :=
  entries.find? (·.hashKey = hashKey)

end MonkeyLang
