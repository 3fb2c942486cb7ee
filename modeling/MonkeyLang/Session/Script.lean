import MonkeyLang.Session.Basic
import MonkeyLang.Session.HostError
import MonkeyLang.Text.Bytes

/-!
# Scripts

A script is one input unit of a new session. It has to be text and has to parse.
-/

namespace MonkeyLang

/-- What a script came to: its value, if it has one, or the error that prevented it, and the values
that it printed. -/
structure ScriptRun where
  result : Except HostError (Option Value)
  printed : List Value

/-- Run a source text as a script. There is no result if evaluation nests more deeply than
`depth`. -/
def runSource (depth : Nat) (source : String) : Option ScriptRun :=
  (Session.new.run depth source).map fun answer =>
    match answer.reply with
    | .value value => ⟨.ok (some value), answer.printed⟩
    | .nothing => ⟨.ok none, answer.printed⟩
    | .rejected errors => ⟨.error (.parse errors), answer.printed⟩

/-- Run the script at `path`, given its content or the reason why it cannot be read. -/
def runScript (depth : Nat) (path : String) (content : Except String (List UInt8)) :
    Option ScriptRun :=
  match content with
  | .error reason => some ⟨.error (.unreadableScript path reason), []⟩
  | .ok bytes =>
      match ofUtf8? bytes with
      | none => some ⟨.error (.unreadableScript path notUtf8), []⟩
      | some source => runSource depth source

end MonkeyLang
