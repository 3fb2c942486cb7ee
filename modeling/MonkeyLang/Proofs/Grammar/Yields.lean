import MonkeyLang.Proofs.Grammar.Basic

/-!
# Readings without errors

`Reading.Yields` says that a reading succeeds and that no statement was dropped inside it. One lemma
for each way to build a reading says when it yields a construct, so that what a reading function
accepts can be taken apart and put together without looking at bounds. The first functions read
that way are those for parameter lists (`yields_readParams`).
-/

namespace MonkeyLang.Reading

variable {α β : Type} {bound small large : Nat}

/-- The reading is that of `value`, with no error on the way, and leaves the tokens `rest`. -/
def Yields (reading : Reading bound α) (value : α) (rest : List Token) : Prop :=
  match reading with
  | done found dropped left _ => found = value ∧ dropped = [] ∧ left = rest
  | failed .. => False

/-- What a reading leaves is within its bound. -/
theorem Yields.length_lt {reading : Reading bound α} {value : α} {rest : List Token}
    (h : reading.Yields value rest) : rest.length < bound := by
  cases reading with
  | done found dropped left shorter =>
      obtain ⟨-, -, rfl⟩ := h
      exact shorter
  | failed => exact h.elim

/-- A reading without errors is known but for its bound. -/
theorem Yields.eq_done {reading : Reading bound α} {value : α} {rest : List Token}
    (h : reading.Yields value rest) : ∃ shorter, reading = .done value [] rest shorter := by
  cases reading with
  | done found dropped left shorter =>
      obtain ⟨rfl, rfl, rfl⟩ := h
      exact ⟨shorter, rfl⟩
  | failed => exact h.elim

@[simp] theorem yields_found {value found : α} {rest left : List Token} :
    (Reading.found found left).Yields value rest ↔ found = value ∧ left = rest := by
  simp [Reading.found, Yields]

@[simp] theorem yields_refused {error : ParseError} {value : α} {rest left : List Token} :
    ¬ (refused error left).Yields value rest :=
  id

@[simp] theorem yields_refusedAtEnd {error : ParseError} {value : α} {rest : List Token} :
    ¬ (refusedAtEnd error : Reading bound α).Yields value rest :=
  id

@[simp] theorem yields_widen {hle : small ≤ large} {reading : Reading small α} {value : α}
    {rest : List Token} : (reading.widen hle).Yields value rest ↔ reading.Yields value rest := by
  cases reading <;> rfl

@[simp] theorem yields_after {earlier : List ParseError} {reading : Reading bound α} {value : α}
    {rest : List Token} :
    (reading.after earlier).Yields value rest ↔ earlier = [] ∧ reading.Yields value rest := by
  cases reading with
  | done found dropped left shorter =>
      simp only [after, Yields, List.append_eq_nil_iff]
      constructor
      · rintro ⟨hfound, ⟨hearlier, hdropped⟩, hleft⟩
        exact ⟨hearlier, hfound, hdropped, hleft⟩
      · rintro ⟨hearlier, hfound, hdropped, hleft⟩
        exact ⟨hfound, ⟨hearlier, hdropped⟩, hleft⟩
  | failed => exact ⟨False.elim, And.right⟩

@[simp] theorem yields_map {f : α → β} {reading : Reading bound α} {result : β}
    {rest : List Token} :
    (reading.map f).Yields result rest ↔ ∃ value, reading.Yields value rest ∧ f value = result := by
  cases reading with
  | done found dropped left shorter =>
      constructor
      · rintro ⟨rfl, hdropped, hleft⟩
        exact ⟨found, ⟨rfl, hdropped, hleft⟩, rfl⟩
      · rintro ⟨value, ⟨rfl, hdropped, hleft⟩, rfl⟩
        exact ⟨rfl, hdropped, hleft⟩
  | failed => exact ⟨False.elim, fun ⟨_, h, _⟩ => h⟩

/-- A sequence yields what its second part yields from what the first part leaves. -/
theorem yields_andThen {first : Reading small α} {hle : small ≤ large}
    {next : (value : α) → (rest : List Token) → rest.length < small → Reading large β}
    {result : β} {rest : List Token} :
    (first.andThen hle next).Yields result rest ↔
      ∃ value middle, ∃ hmiddle : middle.length < small,
        first.Yields value middle ∧ (next value middle hmiddle).Yields result rest := by
  cases first with
  | done found dropped left shorter =>
      simp only [andThen, yields_after]
      constructor
      · rintro ⟨hdropped, hnext⟩
        exact ⟨found, left, shorter, ⟨rfl, hdropped, rfl⟩, hnext⟩
      · rintro ⟨value, middle, hmiddle, ⟨rfl, hdropped, rfl⟩, hnext⟩
        exact ⟨hdropped, hnext⟩
  | failed => exact ⟨False.elim, fun ⟨_, _, _, h, _⟩ => h⟩

/-- A list yields its first construct and what the others yield. An error in the first is never
forgotten. -/
theorem yields_recover {first : Reading (small + 1) α}
    {next : (rest : List Token) → rest.length ≤ small → Reading large (List α)}
    {results : List α} {rest : List Token} :
    (first.recover next).Yields results rest ↔
      ∃ value middle, ∃ hmiddle : middle.length ≤ small, ∃ values,
        first.Yields value middle ∧ (next middle hmiddle).Yields values rest ∧
          value :: values = results := by
  cases first with
  | done found dropped left shorter =>
      simp only [recover, yields_after, yields_map]
      constructor
      · rintro ⟨hdropped, values, hnext, rfl⟩
        exact ⟨found, left, Nat.le_of_lt_succ shorter, values, ⟨rfl, hdropped, rfl⟩, hnext, rfl⟩
      · rintro ⟨value, middle, hmiddle, values, ⟨rfl, hdropped, rfl⟩, hnext, rfl⟩
        exact ⟨hdropped, values, hnext, rfl⟩
  | failed error dropped left shorter =>
      simp only [recover, yields_after, List.append_eq_nil_iff]
      constructor
      · rintro ⟨⟨-, h⟩, -⟩
        exact absurd h (List.cons_ne_nil _ _)
      · rintro ⟨_, _, _, _, h, _⟩
        exact h.elim

@[simp] theorem yields_token {wanted : Token} {tokens rest : List Token} {result : Unit} :
    (token wanted tokens).Yields result rest ↔ tokens = wanted :: rest := by
  cases tokens with
  | nil => simp [token]
  | cons next left =>
      by_cases hnext : next = wanted
      · simp [token, Yields, hnext]
      · simp [token, hnext]

@[simp] theorem yields_statement {value statement : Stmt} {rest left : List Token} :
    (Reading.statement statement left).Yields value rest ↔
      statement = value ∧ skipSemicolon left = rest := by
  simp [Reading.statement]

end MonkeyLang.Reading

namespace MonkeyLang

open Grammar

/-- Digits are read as the number that they denote, if it is in the range of integers. -/
theorem wordOfDigits?_eq_some {digits : String} {value : Int64} :
    wordOfDigits? digits = some value ↔
      number digits ≤ 2 ^ 63 - 1 ∧ Int64.ofNat (number digits) = value := by
  rw [wordOfDigits?, word?_eq_some_iff]
  change value.toInt = (number digits : Int) ↔ _
  constructor
  · intro hvalue
    have hle : value.toInt ≤ 2 ^ 63 - 1 := Int64.toInt_le value
    refine ⟨by omega, ?_⟩
    rw [← Int64.ofInt_eq_ofNat, ← hvalue, Int64.ofInt_toInt]
  · rintro ⟨hle, rfl⟩
    exact Int64.toInt_ofNat_of_lt (by omega)

/-- The names that follow a parameter, each after a comma. -/
def moreParamTokens (params : List String) : List Token :=
  params.flatMap fun name => [.comma, .ident name]

@[simp] theorem paramTokens_nil : paramTokens [] = [] := rfl

/-- A parameter list is its first name and the names that follow it. -/
theorem paramTokens_cons (name : String) (params : List String) :
    paramTokens (name :: params) = .ident name :: moreParamTokens params := by
  induction params generalizing name with
  | nil => rfl
  | cons next params ih =>
      have hnext := ih next
      simp only [paramTokens, moreParamTokens, List.map_cons, List.flatMap_cons, List.cons_append,
        List.nil_append, List.intersperse_cons_cons] at hnext ⊢
      rw [hnext]

/-- What follows a parameter is read as the names between the commas. -/
theorem yields_readMoreParams {tokens rest : List Token} {params : List String} :
    (readMoreParams tokens).Yields params rest ↔
      tokens = moreParamTokens params ++ .rparen :: rest := by
  fun_induction readMoreParams tokens generalizing params with
  | case1 name left ih =>
      simp only [Reading.yields_widen, Reading.yields_map, ih]
      constructor
      · rintro ⟨names, rfl, rfl⟩
        rfl
      · intro htokens
        cases params with
        | nil => simp [moreParamTokens] at htokens
        | cons first params =>
            simp only [moreParamTokens, List.flatMap_cons, List.cons_append, List.nil_append,
              List.cons.injEq, true_and, Token.ident.injEq] at htokens
            exact ⟨params, htokens.2, by rw [htokens.1]⟩
  | case2 token left hname =>
      simp only [Reading.yields_widen, Reading.yields_refused, false_iff]
      intro htokens
      cases params with
      | nil => simp [moreParamTokens] at htokens
      | cons first params =>
          simp only [moreParamTokens, List.flatMap_cons, List.cons_append, List.nil_append,
            List.cons.injEq, true_and] at htokens
          exact hname first htokens.1
  | case3 => cases params <;> simp [moreParamTokens]
  | case4 tokens hcomma hother hlast =>
      simp only [Reading.yields_map, Reading.yields_token]
      cases params with
      | nil => simp [moreParamTokens]
      | cons first params =>
          constructor
          · rintro ⟨_, _, hnil⟩
            exact absurd hnil.symm (List.cons_ne_nil _ _)
          · intro htokens
            exact (hcomma first _ htokens).elim

/-- A parameter list is read as the names in it. -/
theorem yields_readParams {tokens rest : List Token} {params : List String} :
    (readParams tokens).Yields params rest ↔ tokens = paramTokens params ++ .rparen :: rest := by
  unfold readParams
  split
  · cases params <;> simp [paramTokens_cons]
  · simp only [Reading.yields_widen, Reading.yields_found]
    cases params <;> simp [paramTokens_cons]
  next name left =>
    simp only [Reading.yields_widen, Reading.yields_map, yields_readMoreParams]
    cases params with
    | nil => simp
    | cons first params =>
        simp only [paramTokens_cons, List.cons_append, List.cons.injEq, Token.ident.injEq]
        constructor
        · rintro ⟨names, htokens, rfl, rfl⟩
          exact ⟨rfl, htokens⟩
        · rintro ⟨rfl, htokens⟩
          exact ⟨params, htokens, rfl, rfl⟩
  next token left hclose hname =>
    simp only [Reading.yields_widen, Reading.yields_refused, false_iff]
    intro htokens
    cases params with
    | nil =>
        simp only [paramTokens_nil, List.nil_append, List.cons.injEq] at htokens
        exact hclose htokens.1
    | cons first params =>
        simp only [paramTokens_cons, List.cons_append, List.cons.injEq] at htokens
        exact hname first htokens.1

end MonkeyLang
