import MonkeyLang.Text.Bytes

/-!
# Sinks

A sink takes bytes up to its capacity and fails on the first byte beyond it, keeping those before. A
sink may also fail whenever it is flushed.
-/

namespace MonkeyLang

/-- Why a sink fails. -/
inductive SinkFault where
  | closed
  | unflushed
  deriving DecidableEq, Repr

/-- The message shown for the failure of a sink. -/
def SinkFault.message : SinkFault → String
  | closed => "pipe closed"
  | unflushed => "flush failed"

/-- A place to write to: the number of bytes that it still takes, if that is limited, and whether
it fails when it is flushed. -/
structure Sink where
  room : Option Nat
  flushFails : Bool

/-- What comes of writing: the bytes that were kept, and the sink after it or its failure. -/
structure Delivery where
  kept : List UInt8
  result : Except SinkFault Sink

namespace Sink

/-- The sink that never fails. -/
def unlimited : Sink := ⟨none, false⟩

/-- Write bytes. -/
def write (sink : Sink) (bytes : List UInt8) : Delivery :=
  match sink.room with
  | none => ⟨bytes, .ok sink⟩
  | some room =>
      if bytes.length ≤ room then
        ⟨bytes, .ok { sink with room := some (room - bytes.length) }⟩
      else
        ⟨bytes.take room, .error .closed⟩

/-- Write a text and flush the sink. -/
def deliver (sink : Sink) (text : String) : Delivery :=
  let delivery := sink.write (utf8 text)
  match delivery.result with
  | .ok sink' => if sink'.flushFails then ⟨delivery.kept, .error .unflushed⟩ else delivery
  | .error _ => delivery

variable {room : Nat} {text : String}

/-- A sink with room for a text keeps all of it. -/
theorem deliver_of_le (hroom : (utf8 text).length ≤ room) :
    deliver ⟨some room, false⟩ text =
      ⟨utf8 text, .ok ⟨some (room - (utf8 text).length), false⟩⟩ := by
  simp [deliver, write, hroom]

/-- A sink without room for a text keeps what it has room for. -/
theorem deliver_of_lt (hroom : room < (utf8 text).length) :
    deliver ⟨some room, false⟩ text = ⟨(utf8 text).take room, .error .closed⟩ := by
  simp [deliver, write, Nat.not_le.mpr hroom]

end Sink

end MonkeyLang
