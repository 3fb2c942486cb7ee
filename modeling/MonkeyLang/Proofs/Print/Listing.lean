import Mathlib.Data.List.Basic
import MonkeyLang.Proofs.Token.Lexer

/-!
# Reading printed lists in one way

A list is printed as its items between separators, before a text that closes it. If each item ends
where it does because of what follows it, so does the list: read `Printing.listing_inj`. What ends
an item is said by `Ends`, and that an item or a separator is not taken for the end of the list by
the token with which it begins.
-/

namespace MonkeyLang

/-- Whether the printed form of an expression may begin with the token. -/
def Token.startsExpr : Token → Bool
  | .ident _ | .int _ | .str _ | .minus | .lparen | .lbracket | .lbrace => true
  | .kwTrue | .kwFalse | .kwIf | .kwFn | .kwMacro => true
  | _ => false

/-- Whether an item of a printed list, or the separator before it, may begin with the token. -/
def Token.continuesList (token : Token) : Bool :=
  token.startsExpr || token = .kwLet || token = .kwReturn || token = .comma

/-- No word and no conditional goes on with the text. -/
structure Stops (rest : List Char) : Prop where
  separates : Separates rest
  not_else : (lexemes rest).head? ≠ some .kwElse

/-- No expression goes on with the text, also not with the arguments of a call. -/
structure Ends (rest : List Char) : Prop extends Stops rest where
  not_call : rest.head? ≠ some '('

/-- The text goes on with an item of a list or with a separator. -/
def ContinuesList (text : List Char) : Prop :=
  ∃ token ∈ (lexemes text).head?, token.continuesList

/-- The text ends an expression, and the list that the expression stands in. -/
structure ClosesList (text : List Char) : Prop extends Ends text where
  closes : ∃ token ∈ (lexemes text).head?, token.continuesList = false

theorem ClosesList.not_continuesList {text : List Char} (h : ClosesList text) :
    ¬ ContinuesList text := by
  rintro ⟨token, htoken, hcontinues⟩
  obtain ⟨closing, hclosing, hcloses⟩ := h.closes
  cases Option.mem_unique htoken hclosing
  rw [hcontinues] at hcloses
  cases hcloses

/-- A symbol ends an expression, unless it opens the arguments of a call. -/
theorem ends_symbol {char : Char} {token : Token} (hsymbol : Token.ofSymbol? char = some token)
    (hne : char ≠ '(') (rest : List Char) : Ends (char :: rest) where
  separates := by
    have hpart : isPunctuation char := by simp [isPunctuation, hsymbol]
    simpa [Separates] using isWordPart_of_isPunctuation hpart
  not_else := by
    rw [lexemes_of_ofSymbol? hsymbol]
    rintro ⟨⟩
    revert hsymbol
    unfold Token.ofSymbol?
    split <;> simp
  not_call := by simpa using hne

/-- A blank ends an expression, unless `else` follows. -/
theorem ends_blank {rest : List Char} (helse : (lexemes rest).head? ≠ some .kwElse) :
    Ends (' ' :: rest) where
  separates := by simp [Separates, isWordPart]
  not_else := by rwa [lexemes_of_isWhiteSpace (by decide)]
  not_call := by simp

/-- A symbol with which no item begins closes a list. -/
theorem closesList_symbol {char : Char} {token : Token}
    (hsymbol : Token.ofSymbol? char = some token) (hne : char ≠ '(')
    (htoken : token.continuesList = false) (rest : List Char) : ClosesList (char :: rest) where
  toEnds := ends_symbol hsymbol hne rest
  closes := ⟨token, by rw [lexemes_of_ofSymbol? hsymbol]; rfl, htoken⟩

/-- A blank before the end of a list belongs to the end. -/
theorem ClosesList.blank {rest : List Char} (h : ClosesList rest) : ClosesList (' ' :: rest) where
  toEnds := ends_blank h.not_else
  closes := by rw [lexemes_of_isWhiteSpace (by decide)]; exact h.closes

/-- How the items of a list are printed, and which of them are printed so that their text is cut
into tokens as it should be. -/
structure Printing (α : Type) where
  render : α → String
  tokens : α → List Token
  Proper : α → Prop
  cuts : ∀ item, Proper item → CutsApart (render item) (tokens item)
  starts : ∀ item, Proper item → ∃ token ∈ (tokens item).head?, token.continuesList

/-- A separator of the items of a list. -/
structure SeparatesItems (separator : String) (tokens : List Token) : Prop
    extends Punctuates separator tokens where
  continues : ∀ token ∈ tokens, token.continuesList
  not_call : ∀ rest, (separator.toList ++ rest).head? ≠ some '('

namespace Printing

variable {α : Type} {printing : Printing α} {separator : String} {separatorTokens : List Token}
  {item other : α} {items others : List α} {rest rest' : List Char}

/-- An item is the only one that can stand at the front of a text, if expressions end with what
follows it. -/
def Unique (printing : Printing α) (item : α) : Prop :=
  ∀ ⦃other rest rest'⦄, printing.Proper other → Ends rest → Ends rest' →
    (printing.render item).toList ++ rest = (printing.render other).toList ++ rest' →
    item = other ∧ rest = rest'

/-- The text of items, each one after a separator, and of what follows. -/
def trailing (printing : Printing α) (separator : String) : List α → List Char → List Char
  | [], rest => rest
  | item :: items, rest =>
      separator.toList ++
        ((printing.render item).toList ++ printing.trailing separator items rest)

/-- The text of items between separators, and of what follows. -/
def listing (printing : Printing α) (separator : String) : List α → List Char → List Char
  | [], rest => rest
  | item :: items, rest =>
      (printing.render item).toList ++ printing.trailing separator items rest

/-- A listing is what is printed. -/
theorem toList_intercalate_append (printing : Printing α) (separator : String) (items : List α)
    (rest : List Char) :
    (separator.intercalate (items.map printing.render)).toList ++ rest =
      printing.listing separator items rest := by
  induction items with
  | nil => rfl
  | cons item items ih =>
      cases items with
      | nil => simp [listing, trailing]
      | cons next items =>
          rw [List.map_cons, List.map_cons, String.intercalate_cons_cons, ← List.map_cons]
          simp only [String.toList_append, List.append_assoc, ih]
          rfl

/-- Two items at the front of one text begin with the same tokens. -/
theorem tokens_append_eq (printing : Printing α) {item other : α} (hitem : printing.Proper item)
    (hother : printing.Proper other) (hrest : Separates rest) (hrest' : Separates rest')
    (h : (printing.render item).toList ++ rest = (printing.render other).toList ++ rest') :
    printing.tokens item ++ lexemes rest = printing.tokens other ++ lexemes rest' := by
  rw [← printing.cuts item hitem rest hrest, ← printing.cuts other hother rest' hrest', h]

/-- An item continues a list. -/
theorem continuesList_append (hitem : printing.Proper item) (hrest : Separates rest) :
    ContinuesList ((printing.render item).toList ++ rest) := by
  obtain ⟨token, htoken, hcontinues⟩ := printing.starts item hitem
  refine ⟨token, ?_, hcontinues⟩
  rw [printing.cuts item hitem rest hrest]
  exact List.mem_head?_append_of_mem_head? htoken

/-- An item behind a separator continues a list. -/
theorem continuesList_separator (hseparator : SeparatesItems separator separatorTokens)
    (hitem : printing.Proper item) (hrest : Separates rest) :
    ContinuesList (separator.toList ++ ((printing.render item).toList ++ rest)) := by
  rw [ContinuesList, hseparator.cuts]
  cases separatorTokens with
  | nil => exact continuesList_append hitem hrest
  | cons token tokens => exact ⟨token, rfl, hseparator.continues token List.mem_cons_self⟩

/-- What follows an item of a list ends the item. -/
theorem ends_trailing (hseparator : SeparatesItems separator separatorTokens)
    (hitems : ∀ item ∈ items, printing.Proper item) (hrest : Ends rest) :
    Ends (printing.trailing separator items rest) := by
  induction items with
  | nil => exact hrest
  | cons item items ih =>
      obtain ⟨hitem, hothers⟩ := List.forall_mem_cons.mp hitems
      obtain ⟨token, htoken, hcontinues⟩ :=
        continuesList_separator hseparator hitem (ih hothers).separates
      refine ⟨⟨hseparator.separates _, fun helse => ?_⟩, hseparator.not_call _⟩
      cases Option.mem_unique htoken helse
      cases hcontinues

/-- Items behind separators are the only ones before the end of the list. -/
theorem trailing_inj (hseparator : SeparatesItems separator separatorTokens)
    (hunique : ∀ item ∈ items, printing.Unique item)
    (hitems : ∀ item ∈ items, printing.Proper item)
    (hothers : ∀ other ∈ others, printing.Proper other) (hrest : ClosesList rest)
    (hrest' : ClosesList rest')
    (h : printing.trailing separator items rest = printing.trailing separator others rest') :
    items = others ∧ rest = rest' := by
  induction items generalizing others with
  | nil =>
      cases others with
      | nil => exact ⟨rfl, h⟩
      | cons other others =>
          obtain ⟨hother, hothers⟩ := List.forall_mem_cons.mp hothers
          have hends := ends_trailing hseparator hothers hrest'.toEnds
          refine absurd ?_ hrest.not_continuesList
          rw [show rest = _ from h]
          exact continuesList_separator hseparator hother hends.separates
  | cons item items ih =>
      obtain ⟨hitem, hitems⟩ := List.forall_mem_cons.mp hitems
      obtain ⟨hself, hunique⟩ := List.forall_mem_cons.mp hunique
      have hends := ends_trailing hseparator hitems hrest.toEnds
      cases others with
      | nil =>
          refine absurd ?_ hrest'.not_continuesList
          rw [show rest' = _ from h.symm]
          exact continuesList_separator hseparator hitem hends.separates
      | cons other others =>
          obtain ⟨hother, hmore⟩ := List.forall_mem_cons.mp hothers
          have hends' := ends_trailing hseparator hmore hrest'.toEnds
          obtain ⟨rfl, htrailing⟩ := hself hother hends hends' (List.append_cancel_left h)
          obtain ⟨rfl, hclose⟩ := ih hunique hitems hmore htrailing
          exact ⟨rfl, hclose⟩

/-- If every item of a list is the only one that can stand where it does, so is the list. -/
theorem listing_inj (hseparator : SeparatesItems separator separatorTokens)
    (hunique : ∀ item ∈ items, printing.Unique item)
    (hitems : ∀ item ∈ items, printing.Proper item)
    (hothers : ∀ other ∈ others, printing.Proper other) (hrest : ClosesList rest)
    (hrest' : ClosesList rest')
    (h : printing.listing separator items rest = printing.listing separator others rest') :
    items = others ∧ rest = rest' := by
  cases items with
  | nil =>
      cases others with
      | nil => exact ⟨rfl, h⟩
      | cons other others =>
          obtain ⟨hother, hothers⟩ := List.forall_mem_cons.mp hothers
          have hends := ends_trailing hseparator hothers hrest'.toEnds
          refine absurd ?_ hrest.not_continuesList
          rw [show rest = _ from h]
          exact continuesList_append hother hends.separates
  | cons item items =>
      have hends := ends_trailing hseparator (List.forall_mem_cons.mp hitems).2 hrest.toEnds
      cases others with
      | nil =>
          refine absurd ?_ hrest'.not_continuesList
          rw [show rest' = _ from h.symm]
          exact continuesList_append (hitems item List.mem_cons_self) hends.separates
      | cons other others =>
          -- A separator in front makes a listing a trailing one.
          exact trailing_inj hseparator hunique hitems hothers hrest hrest'
            (congrArg (separator.toList ++ ·) h)

end Printing

end MonkeyLang
