import MonkeyLang.Text.Sink
import MonkeyLang.Value.Fault
import MonkeyLang.Value.Render

/-!
# Builtin functions

A builtin answers with a value and with values to print, which only `puts` makes use of. Arrays are
never changed: `rest` and `push` answer with new ones. The length of a string is that of its UTF-8
encoding.

What a program prints is kept as the list of the values printed, and `putsText` is their text in a
given order of hashes. Evaluation assumes that standard output accepts everything that is written to
it, so there `puts` does not fail. `putsTo` is what it does on a sink that may.
-/

namespace MonkeyLang

/-- The text of values that `puts` prints: each on a line of its own. -/
def putsText (order : HashOrder) (values : List Value) : String :=
  String.join (values.map fun value => value.render order ++ "\n")

/-- Print values to a sink: the bytes that it kept, and what `puts` answers. -/
def putsTo (order : HashOrder) (sink : Sink) (args : List Value) :
    List UInt8 × Except Fault Value :=
  let delivery := sink.deliver (putsText order args)
  match delivery.result with
  | .ok _ => (delivery.kept, .ok .null)
  | .error fault => (delivery.kept, .error (.outputFailed Builtin.puts.name fault.message))

/-- Apply a function to an argument that has to be an array. -/
def onArray (builtin : Builtin) (f : List Value → Value) : Value → Except Fault (Value × List Value)
  | .array elements => .ok (f elements, [])
  | other => .error (.argKind builtin.name .array other.kind)

/-- What a builtin answers to its arguments, and the values that it prints. -/
def Builtin.apply (builtin : Builtin) (args : List Value) : Except Fault (Value × List Value) :=
  match builtin, args with
  | len, [.str text] => .ok (.int (.ofNat text.utf8ByteSize), [])
  | len, [.array elements] => .ok (.int (.ofNat elements.length), [])
  | len, [other] => .error (.argNotSupported len.name other.kind)
  | first, [arg] => onArray first (fun elements => elements.head?.getD .null) arg
  | last, [arg] => onArray last (fun elements => elements.getLast?.getD .null) arg
  | rest, [arg] =>
      onArray rest (fun elements => if elements.isEmpty then .null else .array elements.tail) arg
  | push, [arg, value] => onArray push (fun elements => .array (elements ++ [value])) arg
  | puts, args => .ok (.null, args)
  | push, args => .error (.argCount push.name args.length 2)
  | other, args => .error (.argCount other.name args.length 1)

end MonkeyLang
