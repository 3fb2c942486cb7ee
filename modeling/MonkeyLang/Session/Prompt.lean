import MonkeyLang.Session.Basic
import MonkeyLang.Session.HostError
import MonkeyLang.Text.Sink

/-!
# The prompt

The prompt loop asks for a line, takes it as an input unit of one session and writes the reply,
until the input ends. Only the input and the sink can end it early: a line that is not text, or a
sink that fails. What the units print goes past the sink, and the transcript tells both apart. Each
reply is printed in an order of hashes of its own.
-/

namespace MonkeyLang

/-- The text that asks for a line. -/
def promptText : String := ">> "

/-- The text of a reply. -/
def Reply.text (order : HashOrder) : Reply → String
  | value result => result.render order ++ "\n"
  | nothing => ""
  | rejected errors =>
      "Woops! We ran into some monkey business here!\n parser errors:\n" ++
        String.join (errors.map fun error => "\t" ++ error.message ++ "\n")

/-- The lines of an input, each with its line feed. The last line may have none. -/
def inputLines : List UInt8 → List (List UInt8)
  | [] => []
  | byte :: bytes =>
      if byte = 10 then
        [byte] :: inputLines bytes
      else
        match inputLines bytes with
        | [] => [[byte]]
        | line :: lines => (byte :: line) :: lines

/-- A piece of a transcript: bytes that the sink kept, or values that a unit printed. -/
inductive Piece where
  | kept (bytes : List UInt8)
  | printed (values : List Value)

/-- What a prompt loop wrote and printed, in order, and how it ended. -/
structure Transcript where
  pieces : List Piece
  result : Except HostError Unit

namespace Transcript

/-- A transcript that ends. -/
def ended : Transcript := ⟨[], .ok ()⟩

/-- A transcript that fails. -/
def failed (error : HostError) : Transcript := ⟨[], .error error⟩

/-- The transcript with an earlier piece in front. -/
def after (piece : Piece) (transcript : Transcript) : Transcript :=
  ⟨piece :: transcript.pieces, transcript.result⟩

/-- The bytes that the sink kept. -/
def output (transcript : Transcript) : List UInt8 :=
  transcript.pieces.flatMap fun
    | .kept bytes => bytes
    | .printed _ => []

/-- The values that the units printed. -/
def printed (transcript : Transcript) : List Value :=
  transcript.pieces.flatMap fun
    | .kept _ => []
    | .printed values => values

/-- What an observer of both sees. -/
def interleaved (order : HashOrder) (transcript : Transcript) : List UInt8 :=
  transcript.pieces.flatMap fun
    | .kept bytes => bytes
    | .printed values => utf8 (putsText order values)

end Transcript

/-- Write a text to the sink and go on, unless the sink fails. -/
def writeThen (sink : Sink) (text : String) (next : Sink → Option Transcript) :
    Option Transcript :=
  let delivery := sink.deliver text
  match delivery.result with
  | .ok sink' => (next sink').map (·.after (.kept delivery.kept))
  | .error fault => some ((Transcript.failed (.inputOutput fault.message)).after
      (.kept delivery.kept))

/-- What comes of a line at the prompt. -/
inductive Turn where
  | answered (answer : Answer)
  | failed (error : HostError)
  | tooDeep

/-- Take a line at the prompt. It has to be text. -/
def Session.turn (session : Session) (depth : Nat) (line : List UInt8) : Turn :=
  match ofUtf8? line with
  | none => .failed (.inputOutput notUtf8)
  | some source =>
      match session.run depth source with
      | some answer => .answered answer
      | none => .tooDeep

/-- Prompt for the given lines one by one, and print the reply to the line at each position in the
order for that position. There is no transcript if evaluation nests more deeply than `depth`. -/
def promptLoop (depth : Nat) (orders : Nat → HashOrder) (session : Session) (sink : Sink) :
    List (List UInt8) → Option Transcript
  | [] => writeThen sink promptText fun _ => some .ended
  | line :: lines =>
      writeThen sink promptText fun sink₁ =>
        match session.turn depth line with
        | .failed error => some (.failed error)
        | .tooDeep => none
        | .answered answer =>
            (writeThen sink₁ (answer.reply.text (orders 0)) fun sink₂ =>
              promptLoop depth (fun position => orders (position + 1)) answer.session sink₂
                lines).map (·.after (.printed answer.printed))

/-- Run the prompt loop of a new session over an input. -/
def runPrompt (depth : Nat) (orders : Nat → HashOrder) (sink : Sink) (input : List UInt8) :
    Option Transcript :=
  promptLoop depth orders .new sink (inputLines input)

end MonkeyLang
