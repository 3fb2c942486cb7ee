import MonkeyLang.Program.ParseError

/-!
# Readings

A reading is what comes of reading one construct from the front of a token list: the construct or
the error that prevented it, the errors of the statements that were dropped inside it, and the
tokens that are left. Its type bounds the tokens that are left, which is why the loops of the
parser end.
-/

namespace MonkeyLang

/-- The result of reading one construct. The tokens left are fewer than `bound`, except that a
failed reading may leave none when `bound` is zero. A failure has exactly one error of its own. -/
inductive Reading (bound : Nat) (α : Type) where
  | done (value : α) (dropped : List ParseError) (rest : List Token)
      (shorter : rest.length < bound)
  | failed (error : ParseError) (dropped : List ParseError) (rest : List Token)
      (shorter : rest.length ≤ bound - 1)

namespace Reading

variable {α β : Type} {bound small large : Nat}

/-- A construct that ends before `rest`. -/
def found (value : α) (rest : List Token) : Reading (rest.length + 1) α :=
  done value [] rest (Nat.lt_succ_self _)

/-- An error after which reading goes on with `rest`. -/
def refused (error : ParseError) (rest : List Token) : Reading (rest.length + 1) α :=
  failed error [] rest (Nat.le_refl _)

/-- An error at the end of the tokens. -/
def refusedAtEnd (error : ParseError) : Reading bound α :=
  failed error [] [] (Nat.zero_le _)

/-- The same reading under a larger bound. -/
def widen (hle : small ≤ large) : Reading small α → Reading large α
  | done value dropped rest shorter => done value dropped rest (by omega)
  | failed error dropped rest shorter => failed error dropped rest (by omega)

/-- Put the errors of statements that were dropped earlier in front. -/
def after (earlier : List ParseError) : Reading bound α → Reading bound α
  | done value dropped rest shorter => done value (earlier ++ dropped) rest shorter
  | failed error dropped rest shorter => failed error (earlier ++ dropped) rest shorter

/-- Apply a function to the construct that was read. -/
def map (f : α → β) : Reading bound α → Reading bound β
  | done value dropped rest shorter => done (f value) dropped rest shorter
  | failed error dropped rest shorter => failed error dropped rest shorter

/-- Read a construct and then, from what it leaves, the next one. A failure ends the sequence. -/
def andThen (first : Reading small α) (hle : small ≤ large)
    (next : (value : α) → (rest : List Token) → rest.length < small → Reading large β) :
    Reading large β :=
  match first with
  | done value dropped rest shorter => (next value rest shorter).after dropped
  | failed error dropped rest shorter => failed error dropped rest (by omega)

/-- Read a construct and then a list of more, going on also if the first one fails. What failed is
dropped and its error is kept. -/
def recover (first : Reading (small + 1) α)
    (next : (rest : List Token) → rest.length ≤ small → Reading large (List α)) :
    Reading large (List α) :=
  match first with
  | done value dropped rest shorter =>
      ((next rest (Nat.le_of_lt_succ shorter)).map (value :: ·)).after dropped
  | failed error dropped rest shorter => (next rest shorter).after (dropped ++ [error])

/-- Read one fixed token. Another token is left where it is. -/
def token (wanted : Token) (tokens : List Token) : Reading (tokens.length + 1) Unit :=
  match tokens with
  | [] => refusedAtEnd (.unexpected wanted .eof)
  | next :: rest =>
      if next = wanted then done () [] rest (Nat.lt_succ_of_lt (Nat.lt_succ_self _))
      else refused (.unexpected wanted next) (next :: rest)

end Reading

end MonkeyLang
