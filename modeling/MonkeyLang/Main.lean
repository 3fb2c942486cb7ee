import MonkeyLang.Command

/-!
# The executable

Connects the command to the terminal and to files: lines are read, taken by the session and answered
one at a time.
-/

namespace MonkeyLang.Executable

/-- The nesting depth granted to evaluations. -/
def depthLimit : Nat := 1000000000

/-- The order in which hashes are printed. -/
def printOrder : HashOrder := .stored

/-- The reason for a failed file operation, in the words of the operating system. -/
def reason : IO.Error → String
  | .noFileOrDirectory .. => "No such file or directory (os error 2)"
  | .permissionDenied _ code details | .inappropriateType _ code details
  | .otherError code details =>
      details ++ " (os error " ++ code.toNat.repr ++ ")"
  | other => other.toString

/-- The content of a file, or the reason why it cannot be read. -/
def fileContent (path : String) : IO (Except String (List UInt8)) := do
  try
    let bytes ← IO.FS.readBinFile path
    return .ok bytes.data.toList
  catch error =>
    return .error (reason error)

/-- Read a line with its line feed, given what was read of it so far in reverse. The line is empty
at the end of the input. -/
partial def readLine (input : IO.FS.Stream) (reversed : List UInt8) : IO (List UInt8) := do
  let bytes ← input.read 1
  match bytes.data.toList with
  | [] => return reversed.reverse
  | byte :: _ =>
      if byte = 10 then
        return (byte :: reversed).reverse
      else
        readLine input (byte :: reversed)

/-- Report a host error and give the status of failure. -/
def report (error : HostError) : IO UInt32 := do
  IO.eprintln error.message
  return 1

/-- Report that evaluation nests too deeply and give the status of failure. -/
def reportTooDeep : IO UInt32 := do
  IO.eprintln "evaluation nests too deeply"
  return 1

/-- Prompt for lines until the input ends. -/
partial def prompt (input output : IO.FS.Stream) (session : Session) : IO UInt32 := do
  output.putStr promptText
  output.flush
  let line ← readLine input []
  if line.isEmpty then
    return 0
  match session.turn depthLimit line with
  | .failed error => report error
  | .tooDeep => reportTooDeep
  | .answered answer =>
      output.putStr (putsText printOrder answer.printed)
      output.putStr (answer.reply.text printOrder)
      output.flush
      prompt input output answer.session

/-- Run a script and write its value. -/
def script (output : IO.FS.Stream) (path : String) : IO UInt32 := do
  match runScript depthLimit path (← fileContent path) with
  | none => reportTooDeep
  | some run =>
      output.putStr (run.output printOrder)
      output.flush
      match run.result with
      | .ok _ => return 0
      | .error error => report error

/-- Run the command with the given arguments. -/
def command (args : List String) : IO UInt32 := do
  let output ← IO.getStdout
  try
    match args with
    | path :: _ => script output path
    | [] =>
        output.putStr (greeting (← IO.getEnv "USER"))
        prompt (← IO.getStdin) output .new
  catch error =>
    report (.inputOutput (reason error))

end MonkeyLang.Executable

/-- Run the interpreter. -/
def main (args : List String) : IO UInt32 :=
  MonkeyLang.Executable.command args
