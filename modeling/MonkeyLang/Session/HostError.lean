import MonkeyLang.Program.ParseError

/-!
# Host errors

What can go wrong around an evaluation: a script that does not parse or cannot be read, or a failure
of input or output. A failed evaluation is not among them: its report is a value.
-/

namespace MonkeyLang

/-- An error of the surroundings. The reasons are those of the operating system. -/
inductive HostError where
  | parse (errors : List ParseError)
  | unreadableScript (path reason : String)
  | inputOutput (reason : String)

/-- The reason given for bytes that are not the encoding of a text. -/
def notUtf8 : String := "stream did not contain valid UTF-8"

/-- The message shown for a host error. -/
def HostError.message : HostError → String
  | parse errors => "parser errors:\n\t" ++ "\n\t".intercalate (errors.map ParseError.message)
  | unreadableScript path reason => "could not read `" ++ path ++ "`: " ++ reason
  | inputOutput reason => reason

end MonkeyLang
