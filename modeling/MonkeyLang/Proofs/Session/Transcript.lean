import Mathlib
import MonkeyLang.Proofs.Print.Order
import MonkeyLang.Proofs.Session.Basic
import MonkeyLang.Session.Prompt

/-!
# What a prompt loop writes

One session takes the lines of the input one after the other, up to the first that is no text. The
whole exchange is the prompt and, for each of these lines, the reply and the prompt again. A sink
that takes fewer bytes keeps as many of the exchange as it takes and then fails. In what orders the
replies print their hashes decides about the bytes of the exchange, but not about their number. Read
`Exchanges` first, then `exchanges_promptLoop`.
-/

namespace MonkeyLang

/-- A split of an input into lines: each has its line feed at the end and no other one, but the
last may have none. -/
inductive SplitsInto : List UInt8 → List (List UInt8) → Prop where
  | nil : SplitsInto [] []
  | last {line : List UInt8} : line ≠ [] → 10 ∉ line → SplitsInto line [line]
  | fed {line bytes : List UInt8} {lines : List (List UInt8)} :
      10 ∉ line → SplitsInto bytes lines →
        SplitsInto (line ++ 10 :: bytes) ((line ++ [10]) :: lines)

/-- The texts of the lines before the first line that is no text. -/
def legible : List (List UInt8) → List String
  | [] => []
  | line :: lines =>
      match ofUtf8? line with
      | none => []
      | some source => source :: legible lines

/-- What reading the lines comes to: it fails at the first line that is no text. -/
def inputResult (lines : List (List UInt8)) : Except HostError Unit :=
  if ∀ line ∈ lines, (ofUtf8? line).isSome then .ok () else .error (.inputOutput notUtf8)

/-- The replies of one session to the units that it takes one after the other. -/
inductive Session.Replies (depth : Nat) : Session → List String → List Reply → Prop where
  | nil {session : Session} : Replies depth session [] []
  | cons {session : Session} {source : String} {sources : List String} {answer : Answer}
      {replies : List Reply} :
      session.run depth source = some answer → Replies depth answer.session sources replies →
        Replies depth session (source :: sources) (answer.reply :: replies)

/-- The lines that show a reply. -/
def Reply.lines (order : HashOrder) : Reply → List String
  | value result => [result.render order]
  | nothing => []
  | rejected errors =>
      ["Woops! We ran into some monkey business here!", " parser errors:"] ++
        errors.map fun error => "\t" ++ error.message

/-- The bytes that show a reply: its lines, each with a line feed. -/
def Reply.shown (order : HashOrder) (reply : Reply) : List UInt8 :=
  (reply.lines order).flatMap fun line => utf8 line ++ [10]

/-- The whole exchange: the prompt, and each reply, in the order for its position, with the next
prompt. -/
def exchange (orders : Nat → HashOrder) (replies : List Reply) : List UInt8 :=
  utf8 ">> " ++ (replies.mapIdx fun position reply =>
    reply.shown (orders position) ++ utf8 ">> ").flatten

/-- The bytes that a sink keeps of what is written to it, and how the writing ends if it ends with
`result` on a sink that never fails. -/
def Sink.cut (sink : Sink) (bytes : List UInt8) (result : Except HostError Unit) :
    List UInt8 × Except HostError Unit :=
  match sink.room with
  | none => (bytes, result)
  | some room =>
      if bytes.length ≤ room then
        (bytes, result)
      else
        (bytes.take room, .error (.inputOutput SinkFault.closed.message))

/-- What the sink has seen of a transcript, and how it ended. -/
def Transcript.seen (transcript : Transcript) : List UInt8 × Except HostError Unit :=
  (transcript.output, transcript.result)

/-- On every sink that can be flushed, the run leaves the cut of one exchange. -/
def Exchanges (run : Sink → Option Transcript) (bytes : List UInt8)
    (result : Except HostError Unit) : Prop :=
  ∀ sink : Sink, sink.flushFails = false →
    (run sink).map Transcript.seen = some (sink.cut bytes result)

/-! ## Lines and replies -/

/-- A byte that is no line feed becomes the first byte of the first line. -/
theorem SplitsInto.cons {byte : UInt8} {bytes : List UInt8} {lines : List (List UInt8)}
    (hbyte : byte ≠ 10) :
    SplitsInto bytes lines →
      SplitsInto (byte :: bytes)
        (match lines with
          | [] => [[byte]]
          | line :: lines => (byte :: line) :: lines) := by
  intro hsplits
  have hunfed {line : List UInt8} (hline : 10 ∉ line) : 10 ∉ byte :: line :=
    List.not_mem_cons_of_ne_of_not_mem hbyte.symm hline
  cases hsplits with
  | nil => exact .last (List.cons_ne_nil _ _) (hunfed List.not_mem_nil)
  | last hne hline => exact .last (List.cons_ne_nil _ _) (hunfed hline)
  | fed hline hsplits => exact .fed (hunfed hline) hsplits

/-- The lines of an input are a split of it. -/
theorem splitsInto_inputLines (input : List UInt8) : SplitsInto input (inputLines input) := by
  induction input with
  | nil => exact .nil
  | cons byte bytes ih =>
      unfold inputLines
      split
      · next hbyte =>
          subst hbyte
          exact @SplitsInto.fed [] _ _ List.not_mem_nil ih
      · next hbyte => exact SplitsInto.cons hbyte ih

/-- A text that is put together is encoded part by part. -/
theorem utf8_append (text text' : String) : utf8 (text ++ text') = utf8 text ++ utf8 text' := by
  simp [utf8]

/-- Texts that are joined are encoded one by one. -/
theorem utf8_join (texts : List String) : utf8 (String.join texts) = texts.flatMap utf8 := by
  induction texts with
  | nil => rfl
  | cons text texts ih => rw [String.join_cons, utf8_append, ih, List.flatMap_cons]

/-- The text of a reply is its lines, each with a line feed. -/
theorem Reply.utf8_text (order : HashOrder) (reply : Reply) :
    utf8 (reply.text order) = reply.shown order := by
  have hfeed : utf8 "\n" = [10] := by cbv
  cases reply with
  | value result =>
      calc utf8 (result.render order ++ "\n")
          = utf8 (result.render order) ++ [10] := by rw [utf8_append, hfeed]
        _ = shown order (.value result) := (List.flatMap_singleton _ _).symm
  | nothing => rfl
  | rejected errors =>
      have hbanner : utf8 "Woops! We ran into some monkey business here!\n parser errors:\n" =
          ["Woops! We ran into some monkey business here!", " parser errors:"].flatMap
            (fun line => utf8 line ++ [10]) := by cbv
      calc utf8 ("Woops! We ran into some monkey business here!\n parser errors:\n" ++
            String.join (errors.map fun error => "\t" ++ error.message ++ "\n"))
          = ["Woops! We ran into some monkey business here!", " parser errors:"].flatMap
              (fun line => utf8 line ++ [10]) ++
            (errors.map fun error => "\t" ++ error.message).flatMap
              (fun line => utf8 line ++ [10]) := by
            rw [utf8_append, utf8_join, hbanner, List.flatMap_map, List.flatMap_map]
            simp only [utf8_append, hfeed]
        _ = shown order (.rejected errors) := (List.flatMap_append).symm

/-- A reply has as many bytes in every order. -/
theorem Reply.length_shown (order order' : HashOrder) (reply : Reply) :
    (reply.shown order).length = (reply.shown order').length := by
  cases reply with
  | value result =>
      have hsize := result.utf8ByteSize_render order order'
      simp only [shown, lines, List.flatMap_singleton, List.length_append, length_utf8, hsize]
  | nothing => rfl
  | rejected errors => rfl

/-- The exchange starts with the first reply, and goes on with the orders behind its own. -/
theorem exchange_cons (orders : Nat → HashOrder) (reply : Reply) (replies : List Reply) :
    exchange orders (reply :: replies) =
      utf8 ">> " ++ (reply.shown (orders 0) ++
        exchange (fun position => orders (position + 1)) replies) := by
  rw [exchange, exchange, List.mapIdx_cons, List.flatten_cons, List.append_assoc]

/-- The exchange has as many bytes in all orders. -/
theorem length_exchange (orders orders' : Nat → HashOrder) (replies : List Reply) :
    (exchange orders replies).length = (exchange orders' replies).length := by
  induction replies generalizing orders orders' with
  | nil => rfl
  | cons reply replies ih =>
      simp only [exchange_cons, List.length_append, reply.length_shown (orders 0) (orders' 0),
        ih (fun position => orders (position + 1)) fun position => orders' (position + 1)]

/-! ## Writing to a sink that takes fewer bytes -/

/-- What a unit prints goes past the sink. -/
theorem seen_after_printed (transcript : Transcript) (values : List Value) :
    (transcript.after (.printed values)).seen = transcript.seen := rfl

/-- What the sink keeps comes before what it keeps later. -/
theorem seen_after_kept (transcript : Transcript) (bytes : List UInt8) :
    (transcript.after (.kept bytes)).seen = transcript.seen.map (bytes ++ ·) id := rfl

section Cut

variable {room : Nat} {flushFails : Bool} {bytes bytes' : List UInt8}
  {result : Except HostError Unit}

/-- A sink with room for the bytes keeps them all. -/
theorem cut_of_le (hroom : bytes.length ≤ room) :
    Sink.cut ⟨some room, flushFails⟩ bytes result = (bytes, result) :=
  if_pos hroom

/-- A sink without room for the bytes keeps those that it has room for, and fails. -/
theorem cut_of_lt (hroom : room < bytes.length) :
    Sink.cut ⟨some room, flushFails⟩ bytes result =
      (bytes.take room, .error (.inputOutput SinkFault.closed.message)) :=
  if_neg (Nat.not_le.mpr hroom)

/-- A sink that has kept some bytes has room for that much less. -/
theorem cut_append_of_le (hroom : bytes.length ≤ room) :
    Sink.cut ⟨some room, flushFails⟩ (bytes ++ bytes') result =
      (Sink.cut ⟨some (room - bytes.length), flushFails⟩ bytes' result).map (bytes ++ ·) id := by
  have hlength : (bytes ++ bytes').length = bytes.length + bytes'.length := List.length_append
  rcases Nat.lt_or_ge (room - bytes.length) bytes'.length with hrest | hrest
  · rw [cut_of_lt hrest, cut_of_lt (by omega), List.take_append, List.take_of_length_le hroom]
    rfl
  · rw [cut_of_le hrest, cut_of_le (by omega)]
    rfl

/-- A sink without room for the bytes keeps nothing of what follows them. -/
theorem cut_append_of_lt (hroom : room < bytes.length) :
    Sink.cut ⟨some room, flushFails⟩ (bytes ++ bytes') result =
      (bytes.take room, .error (.inputOutput SinkFault.closed.message)) := by
  have hlength : (bytes ++ bytes').length = bytes.length + bytes'.length := List.length_append
  rw [cut_of_lt (by omega), List.take_append_of_le_length (Nat.le_of_lt hroom)]

end Cut

/-- Writing a text that the sink takes and going on to an exchange. -/
theorem Exchanges.writeThen_of_ok {next : Sink → Option Transcript} {bytes : List UInt8}
    {result : Except HostError Unit} (hnext : Exchanges next bytes result) {sink sink' : Sink}
    {text : String} (hdeliver : sink.deliver text = ⟨utf8 text, .ok sink'⟩)
    (hflush : sink'.flushFails = false) :
    (writeThen sink text next).map Transcript.seen =
      some ((sink'.cut bytes result).map (utf8 text ++ ·) id) := by
  obtain ⟨transcript, hsome, hseen⟩ := Option.map_eq_some_iff.mp (hnext sink' hflush)
  simp only [writeThen, hdeliver, hsome, Option.map_some, seen_after_kept, hseen]

/-- Writing a text and going on to an exchange is the exchange with the text in front: a sink that
has no room for the text keeps a part of it and nothing of the rest. -/
theorem Exchanges.writeThen {next : Sink → Option Transcript} {bytes : List UInt8}
    {result : Except HostError Unit} (hnext : Exchanges next bytes result) (text : String) :
    Exchanges (fun sink => writeThen sink text next) (utf8 text ++ bytes) result := by
  rintro ⟨room, flushFails⟩ hflush
  obtain rfl : flushFails = false := hflush
  cases room with
  | none =>
      have hdeliver : Sink.deliver ⟨none, false⟩ text = ⟨utf8 text, .ok ⟨none, false⟩⟩ := rfl
      exact hnext.writeThen_of_ok hdeliver rfl
  | some room =>
      rcases Nat.lt_or_ge room (utf8 text).length with hroom | hroom
      · rw [cut_append_of_lt hroom]
        simp only [MonkeyLang.writeThen, Sink.deliver_of_lt hroom, Option.map_some,
          seen_after_kept]
        simp [Transcript.seen, Transcript.failed, Transcript.output]
      · rw [cut_append_of_le hroom]
        exact hnext.writeThen_of_ok (Sink.deliver_of_le hroom) rfl

/-- A run that writes nothing leaves the empty exchange. -/
theorem exchanges_of_silent {transcript : Transcript} (hsilent : transcript.output = []) :
    Exchanges (fun _ => some transcript) [] transcript.result := by
  rintro ⟨_ | room, flushFails⟩ -
  · simp [Transcript.seen, Sink.cut, hsilent]
  · simp [Transcript.seen, Sink.cut, hsilent]

/-! ## The loop -/

/-- Reading goes on after a line that is a text. -/
theorem inputResult_cons {line : List UInt8} {source : String} (hline : ofUtf8? line = some source)
    (lines : List (List UInt8)) : inputResult (line :: lines) = inputResult lines := by
  simp [inputResult, hline]

/-- Reading fails at a line that is no text. -/
theorem inputResult_of_none {line : List UInt8} (hline : ofUtf8? line = none)
    (lines : List (List UInt8)) : inputResult (line :: lines) = .error (.inputOutput notUtf8) := by
  simp [inputResult, hline]

/-- The prompt loop over the given lines leaves the exchange of the replies to those before the
first that is no text. -/
theorem exchanges_promptLoop {depth : Nat} {lines : List (List UInt8)} {session : Session}
    {replies : List Reply} (hreplies : session.Replies depth (legible lines) replies)
    (orders : Nat → HashOrder) :
    Exchanges (fun sink => promptLoop depth orders session sink lines) (exchange orders replies)
      (inputResult lines) := by
  induction lines generalizing session replies orders with
  | nil =>
      cases hreplies
      exact (exchanges_of_silent rfl).writeThen promptText
  | cons line lines ih =>
      cases hline : ofUtf8? line with
      | none =>
          have hturn : session.turn depth line = .failed (.inputOutput notUtf8) := by
            rw [Session.turn, hline]
          rw [legible, hline] at hreplies
          cases hreplies
          rw [inputResult_of_none hline]
          refine Exchanges.writeThen ?_ promptText
          rw [hturn]
          exact exchanges_of_silent rfl
      | some source =>
          rw [legible, hline] at hreplies
          cases hreplies with
          | @cons _ _ _ answer replies hrun hreplies =>
              have hturn : session.turn depth line = .answered answer := by
                simp only [Session.turn, hline, hrun]
              rw [inputResult_cons hline, exchange_cons, ← Reply.utf8_text]
              refine Exchanges.writeThen ?_ promptText
              intro sink hflush
              have hrest := (ih hreplies fun position => orders (position + 1)).writeThen
                (answer.reply.text (orders 0)) sink hflush
              simp only [hturn, Option.map_map, Function.comp_def, seen_after_printed]
              exact hrest

/-- Take an input whose units all end, and let the replies be printed in any orders. A sink that
never fails sees the prompt and, line by line, what one session says to the line and the prompt
again, up to the first line that is no text, where the reading fails. Let another run, in orders of
its own, write to a sink that takes only so many bytes. If these are as many as the first run wrote,
the sink sees the whole exchange and the result is the same. Otherwise it sees exactly as many bytes
of the exchange as it takes, and its own failure is the result. Where both runs print in the same
orders, this exchange is what the first run wrote. -/
theorem runPrompt_transcript {depth : Nat} {input : List UInt8} {replies : List Reply}
    (hreplies : Session.new.Replies depth (legible (inputLines input)) replies)
    (orders : Nat → HashOrder) :
    SplitsInto input (inputLines input) ∧
    (∃ transcript, runPrompt depth orders .unlimited input = some transcript ∧
      transcript.output = exchange orders replies ∧
      transcript.result = inputResult (inputLines input)) ∧
    ∀ orders' room, ∃ transcript,
      runPrompt depth orders' ⟨some room, false⟩ input = some transcript ∧
      ((exchange orders replies).length ≤ room →
        transcript.output = exchange orders' replies ∧
        transcript.result = inputResult (inputLines input)) ∧
      (room < (exchange orders replies).length →
        transcript.output = (exchange orders' replies).take room ∧
        transcript.result = .error (.inputOutput SinkFault.closed.message)) := by
  refine ⟨splitsInto_inputLines input, ?_, fun orders' room => ?_⟩
  · obtain ⟨transcript, hrun, hseen⟩ :=
      Option.map_eq_some_iff.mp (exchanges_promptLoop hreplies orders .unlimited rfl)
    exact ⟨transcript, hrun, congrArg Prod.fst hseen, congrArg Prod.snd hseen⟩
  · obtain ⟨transcript, hrun, hseen⟩ :=
      Option.map_eq_some_iff.mp (exchanges_promptLoop hreplies orders' ⟨some room, false⟩ rfl)
    rw [length_exchange orders orders']
    refine ⟨transcript, hrun, fun hroom => ?_, fun hroom => ?_⟩
    · rw [cut_of_le hroom] at hseen
      exact ⟨congrArg Prod.fst hseen, congrArg Prod.snd hseen⟩
    · rw [cut_of_lt hroom] at hseen
      exact ⟨congrArg Prod.fst hseen, congrArg Prod.snd hseen⟩

/-- The first line fails, the second does not parse and the third is no text. A sink with room for
40 bytes fails within the report on the second line, before the third is read. -/
theorem runPrompt_transcript_cut_report :
    let input : List UInt8 := [120, 10, 33, 10, 255, 10, 49]
    let replies : List Reply :=
      [.value (.error (Fault.unbound "x").message), .rejected [.noOperand .eof]]
    let orders : Nat → HashOrder := fun _ => .stored
    Session.new.Replies 9 (legible (inputLines input)) replies ∧
    (∃ transcript, runPrompt 9 orders .unlimited input = some transcript ∧
      transcript.output = exchange orders replies ∧
      transcript.result = .error (.inputOutput notUtf8)) ∧
    ∃ transcript, runPrompt 9 orders ⟨some 40, false⟩ input = some transcript ∧
      transcript.output = utf8 ">> ERROR: identifier not found: x\n>> Woo" ∧
      transcript.result = .error (.inputOutput SinkFault.closed.message) := by
  intro input replies orders
  have hlegible : legible (inputLines input) = ["x\n", "!\n"] := by
    dsimp only [input]
    cbv
  have hbroken : inputResult (inputLines input) = .error (.inputOutput notUtf8) :=
    if_neg (by decide +kernel)
  have hfirst : Session.new.run 9 "x\n" =
      some ⟨.value (.error (Fault.unbound "x").message), [], .new⟩ := by
    have hparse : parse "x\n" = .ok [.expr (.ident "x")] := by cbv
    have hfails : evalStmts (eval 9) ⟨0⟩ none [.expr (.ident "x")] ⟨Session.new.store, []⟩ =
        .stopped (.fault (.unbound "x")) ⟨Session.new.store, []⟩ := by cbv
    have hunit : Session.new.evalUnit 9 [.expr (.ident "x")] ⟨Session.new.store, []⟩ =
        some (some (.error (Fault.unbound "x").message), ⟨Session.new.store, []⟩) :=
      congrArg settle hfails
    exact (Session.run_of_parse hparse).trans (congrArg (Option.map Session.new.answer) hunit)
  have hsecond : Session.new.run 9 "!\n" = some ⟨.rejected [.noOperand .eof], [], .new⟩ := by
    have hparse : parse "!\n" = .error [.noOperand .eof] := by cbv
    rw [Session.run, hparse]
  have hreplies : Session.new.Replies 9 (legible (inputLines input)) replies := by
    rw [hlegible]
    exact .cons hfirst (.cons hsecond .nil)
  have hcut : (exchange orders replies).take 40 =
      utf8 ">> ERROR: identifier not found: x\n>> Woo" := by
    decide +kernel
  have hlong : 40 < (exchange orders replies).length := by decide +kernel
  obtain ⟨-, ⟨transcript, hrun, houtput, hresult⟩, hlimited⟩ :=
    runPrompt_transcript hreplies orders
  obtain ⟨transcript', hrun', -, hkept⟩ := hlimited orders 40
  obtain ⟨houtput', hresult'⟩ := hkept hlong
  exact ⟨hreplies, ⟨transcript, hrun, houtput, hresult.trans hbroken⟩,
    transcript', hrun', houtput'.trans hcut, hresult'⟩

end MonkeyLang
