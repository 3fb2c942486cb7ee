import Mathlib.Algebra.BigOperators.Group.List.Basic
import Mathlib.Algebra.GroupWithZero.Nat
import MonkeyLang.Eval.Builtins
import MonkeyLang.Eval.Outcome

/-!
# Printing in any order

The entries of hashes are printed in an order that is a parameter. Read `Value.utf8ByteSize_render`
first: the text of a value has the same number of bytes in every order, so a sink has room for it in
every order or in none. Whether `puts` fails on a sink is thus no matter of the order, and where it
does not fail it answers as it does in an evaluation.
-/

namespace MonkeyLang

variable (order order' : HashOrder)

/-- Change the key and the value of an entry. -/
def Entry.map {α β : Type} (change : α → β) (entry : Entry α) : Entry β :=
  ⟨entry.hashKey, change entry.key, change entry.value⟩

/-- Values are printed one by one. -/
theorem renderValues_eq_map (values : List Value) :
    renderValues order values = values.map (Value.render order) := by
  induction values with
  | nil => rfl
  | cons value values ih => rw [renderValues, ih, List.map_cons]

/-- Entries are printed one by one. -/
theorem renderEntries_eq_map (entries : List (Entry Value)) :
    renderEntries order entries = entries.map (Entry.map (Value.render order)) := by
  induction entries with
  | nil => rfl
  | cons entry entries ih =>
      rw [renderEntries, ih, List.map_cons]
      rfl

/-! ## The number of bytes -/

/-- The bytes of a listing: those of its items, and those of the separators between them. -/
theorem utf8ByteSize_intercalate (separator : String) (texts : List String) :
    (separator.intercalate texts).utf8ByteSize =
      (texts.map String.utf8ByteSize).sum + (texts.length - 1) * separator.utf8ByteSize := by
  induction texts with
  | nil => simp
  | cons text texts ih =>
      cases texts with
      | nil => simp
      | cons next texts =>
          rw [String.intercalate_cons_cons, String.utf8ByteSize_append, String.utf8ByteSize_append,
            ih]
          simp only [List.map_cons, List.sum_cons, List.length_cons, Nat.add_sub_cancel,
            Nat.add_mul, Nat.one_mul]
          omega

/-- Listings have as many bytes if their items do, in whatever order. -/
theorem utf8ByteSize_intercalate_of_perm {separator : String} {texts texts' : List String}
    (hperm : (texts.map String.utf8ByteSize).Perm (texts'.map String.utf8ByteSize)) :
    (separator.intercalate texts).utf8ByteSize = (separator.intercalate texts').utf8ByteSize := by
  have hlength : texts.length = texts'.length := by
    simpa using hperm.length_eq
  rw [utf8ByteSize_intercalate, utf8ByteSize_intercalate, hperm.sum_eq, hlength]

mutual

/-- A value has as many bytes in every order. -/
theorem Value.utf8ByteSize_render : ∀ value : Value,
    (value.render order).utf8ByteSize = (value.render order').utf8ByteSize
  | .array elements => by
      have hperm := List.Perm.of_eq (utf8ByteSize_renderValues elements)
      simp only [Value.render, String.utf8ByteSize_append]
      rw [utf8ByteSize_intercalate_of_perm hperm]
  | .hash entries => by
      have hentries := utf8ByteSize_renderEntries entries
      have harranged : ∀ order : HashOrder,
          ((order.arrange (renderEntries order entries)).map Entry.text).Perm
            ((renderEntries order entries).map Entry.text) :=
        fun order => (order.perm _).map _
      have hperm : (((order.arrange (renderEntries order entries)).map Entry.text).map
          String.utf8ByteSize).Perm
          (((order'.arrange (renderEntries order' entries)).map Entry.text).map
            String.utf8ByteSize) :=
        ((harranged order).map _).trans (hentries ▸ ((harranged order').map _).symm)
      simp only [Value.render, String.utf8ByteSize_append]
      rw [utf8ByteSize_intercalate_of_perm hperm]
  | .returned value => by
      rw [Value.render, Value.render, value.utf8ByteSize_render]
  | .int _ | .bool _ | .null | .str _ | .function .. | .builtin _ | .error _ | .quote _
  | .macroFn .. => by
      simp only [Value.render]

/-- Values have as many bytes, one by one. -/
theorem utf8ByteSize_renderValues : ∀ values : List Value,
    (renderValues order values).map String.utf8ByteSize =
      (renderValues order' values).map String.utf8ByteSize
  | [] => rfl
  | value :: values => by
      rw [renderValues, renderValues, List.map_cons, List.map_cons, value.utf8ByteSize_render,
        utf8ByteSize_renderValues values]

/-- Entries have as many bytes, one by one. -/
theorem utf8ByteSize_renderEntries : ∀ entries : List (Entry Value),
    ((renderEntries order entries).map Entry.text).map String.utf8ByteSize =
      ((renderEntries order' entries).map Entry.text).map String.utf8ByteSize
  | [] => rfl
  | ⟨hashKey, key, value⟩ :: entries => by
      simp only [renderEntries, List.map_cons, Entry.text, String.utf8ByteSize_append]
      rw [key.utf8ByteSize_render, value.utf8ByteSize_render, utf8ByteSize_renderEntries entries]

end

-- Another order makes another text of the same length.
example :
    let hash : Value := .hash [⟨⟨.integer, 1⟩, .int 1, .null⟩, ⟨⟨.integer, 2⟩, .int 2, .null⟩]
    hash.render .stored = "\x7b1: null, 2: null\x7d" ∧
      hash.render ⟨List.reverse, List.reverse_perm⟩ = "\x7b2: null, 1: null\x7d" := by
  decide

/-! ## The text of what was printed -/

/-- The text that was printed when an evaluation ended. -/
def Outcome.text? {α : Type} : Outcome α → Option String
  | .done _ machine | .stopped _ machine => some (putsText order machine.printed)
  | .tooDeep => none

/-- Values are printed one list after the other. -/
theorem putsText_append (values values' : List Value) :
    putsText order (values ++ values') = putsText order values ++ putsText order values' := by
  rw [putsText, List.map_append, String.join_append]
  rfl

/-- The length of an encoding. -/
theorem length_utf8 (text : String) : (utf8 text).length = text.utf8ByteSize := by
  simp [utf8]

/-- Values that are printed have as many bytes in every order. -/
theorem length_utf8_putsText (values : List Value) :
    (utf8 (putsText order values)).length = (utf8 (putsText order' values)).length := by
  rw [length_utf8, length_utf8]
  induction values with
  | nil => rfl
  | cons value values ih =>
      have hcons (order : HashOrder) : putsText order (value :: values) =
          value.render order ++ "\n" ++ putsText order values := String.join_cons
      simp only [hcons, String.utf8ByteSize_append, value.utf8ByteSize_render order order', ih]

/-! ## Printing to a sink -/

/-- On a sink that takes everything, `puts` prints its arguments and answers as in an evaluation. -/
theorem putsTo_unlimited (args : List Value) :
    Builtin.puts.apply args = .ok (.null, args) ∧
    putsTo order .unlimited args = (utf8 (putsText order args), .ok .null) :=
  ⟨rfl, rfl⟩

/-- A sink has room for the arguments of `puts` in every order, and then all of them are printed, or
in none, and then `puts` prints what there is room for and fails. -/
theorem putsTo_limited (room : Nat) (args : List Value) :
    (∀ order, (utf8 (putsText order args)).length ≤ room ∧
      putsTo order ⟨some room, false⟩ args = (utf8 (putsText order args), .ok .null)) ∨
    ∀ order, room < (utf8 (putsText order args)).length ∧
      putsTo order ⟨some room, false⟩ args =
        ((utf8 (putsText order args)).take room,
          .error (.outputFailed "puts" SinkFault.closed.message)) := by
  rcases Nat.lt_or_ge room (utf8 (putsText .stored args)).length with hroom | hroom
  · refine Or.inr fun order => ?_
    rw [length_utf8_putsText .stored order] at hroom
    rw [putsTo, Sink.deliver_of_lt hroom]
    exact ⟨hroom, rfl⟩
  · refine Or.inl fun order => ?_
    rw [length_utf8_putsText .stored order] at hroom
    rw [putsTo, Sink.deliver_of_le hroom]
    exact ⟨hroom, rfl⟩

end MonkeyLang
