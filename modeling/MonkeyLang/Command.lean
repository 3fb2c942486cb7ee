import MonkeyLang.Session.Prompt
import MonkeyLang.Session.Script

/-!
# The command

With an argument the command runs the script it names and writes its value. Without one it greets
the user and prompts. A host error goes to the error output and makes the command fail.
-/

namespace MonkeyLang

/-- What the command is started with: its arguments, the name of the user if it is known, a way to
read files, and the input. -/
structure Invocation where
  args : List String
  user : Option String
  fileContent : String → Except String (List UInt8)
  input : List UInt8

/-- What the command leaves behind. -/
structure Completion where
  output : List UInt8
  errorOutput : String
  status : Nat

/-- The greeting before the first prompt. -/
def greeting (user : Option String) : String :=
  "Hello " ++ user.getD "there" ++ "! This is the Monkey programming language!\n" ++
    "Feel free to type in commands\n"

/-- The completion after some output: the status is 1 if there is a host error, which is then
reported. -/
def Completion.ofResult {α : Type} (output : List UInt8) : Except HostError α → Completion
  | .ok _ => ⟨output, "", 0⟩
  | .error error => ⟨output, error.message ++ "\n", 1⟩

/-- What the command writes for a script: the text that it printed, and its value on a line if it
has one. -/
def ScriptRun.output (order : HashOrder) (run : ScriptRun) : String :=
  putsText order run.printed ++
    match run.result with
    | .ok (some value) => value.render order ++ "\n"
    | _ => ""

/-- Run the command, printing hashes in the given order. It does not complete if evaluation nests
more deeply than `depth`. -/
def Invocation.run (depth : Nat) (order : HashOrder) (invocation : Invocation) :
    Option Completion :=
  match invocation.args with
  | path :: _ =>
      (runScript depth path (invocation.fileContent path)).map fun run =>
        .ofResult (utf8 (run.output order)) run.result
  | [] =>
      (runPrompt depth (fun _ => order) .unlimited invocation.input).map fun transcript =>
        .ofResult (utf8 (greeting invocation.user) ++ transcript.interleaved order)
          transcript.result

end MonkeyLang
