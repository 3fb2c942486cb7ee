import Mathlib.Data.List.Perm.Basic
import MonkeyLang.Proofs.Eval.HashLiteral
import MonkeyLang.Proofs.Print.Order
import MonkeyLang.Proofs.Print.Reread
import MonkeyLang.Proofs.Value.Equality

/-!
# Printed data reads back as itself

Integers, booleans, arrays and hashes of these are printed as literals, and the literals evaluate to
the values, in whatever order the entries of hashes were printed. A negative integer is printed as
one number and read as the negation of another, so a `Literal` has two expressions: the one that is
printed, and the one that is parsed from its tokens and evaluated. Literals are built as the values
are, and every printed form of data is one. Read `parse_render_data` first.
-/

namespace MonkeyLang

open Grammar
open HashLiteral (StoredUnderOwnKeys)

/-- Whether a value is built from integers other than the least one, booleans, arrays, and hashes
with integers and booleans as keys. The entries of a hash are in increasing order, as in every hash,
and each is stored under the hash key of its own key. -/
inductive Value.IsData : Value → Prop where
  | int {value : Int64} : value ≠ Int64.minValue → IsData (.int value)
  | bool (value : Bool) : IsData (.bool value)
  | array {elements : List Value} :
      (∀ element ∈ elements, IsData element) → IsData (.array elements)
  | hash {entries : List (Entry Value)} :
      Ascending entries → StoredUnderOwnKeys entries →
      (∀ entry ∈ entries, entry.key.kind = .integer ∨ entry.key.kind = .boolean) →
      (∀ entry ∈ entries, IsData entry.key) → (∀ entry ∈ entries, IsData entry.value) →
      IsData (.hash entries)

mutual

/-- Whether the second value is the first one with the entries of each hash in it in any order, also
in different orders for equal hashes. These are the ways to print the first value. -/
inductive Value.Rearranged : Value → Value → Prop where
  | same {value : Value} :
      value.kind ≠ .array → value.kind ≠ .hash → Value.Rearranged value value
  | array {elements elements' : List Value} :
      List.Forall₂ Value.Rearranged elements elements' →
      Value.Rearranged (.array elements) (.array elements')
  | hash {entries ordered entries' : List (Entry Value)} :
      entries.Perm ordered → List.Forall₂ Entry.Rearranged ordered entries' →
      Value.Rearranged (.hash entries) (.hash entries')

/-- Whether an entry is another one with a rearranged value. -/
inductive Entry.Rearranged : Entry Value → Entry Value → Prop where
  | mk {hashKey : HashKey} {key value value' : Value} :
      Value.Rearranged value value' →
      Entry.Rearranged ⟨hashKey, key, value⟩ ⟨hashKey, key, value'⟩

end

/-! ## Literals -/

/-- A value with the literal that it is printed as and the expression that the literal is read as.
From the given depth on that evaluates to the value, and changes nothing. -/
structure Literal where
  value : Value
  printed : Expr
  parsed : Expr
  depth : Nat
  wellFormed : printed.All Expr.WellFormed Block.WellFormed
  phrase : Phrase .unary printed.tokens parsed
  evaluates : ∀ depth', depth ≤ depth' → ∀ env machine,
    eval depth' env parsed machine = .done value machine

namespace Literal

/-- What may stand between commas. -/
theorem item (literal : Literal) : Phrase .equality literal.printed.tokens literal.parsed :=
  .loosen (by decide) literal.phrase

/-- A boolean. -/
def bool (value : Bool) : Literal where
  value := .bool value
  printed := .bool value
  parsed := .bool value
  depth := 1
  wellFormed := .bool trivial
  phrase := by
    cases value with
    | true => exact (Phrase.primary .kwTrue).ofChain .unary
    | false => exact (Phrase.primary .kwFalse).ofChain .unary
  evaluates depth' hdepth env machine := by
    cases hdepth <;> rfl

/-- An integer that is not negative. -/
def unsigned (value : Int64) (hunsigned : 0 ≤ value.toInt) : Literal where
  value := .int value
  printed := .int value
  parsed := .int value
  depth := 1
  wellFormed := .int trivial
  phrase := (renders_int hunsigned).chain.ofChain .unary
  evaluates depth' hdepth env machine := by
    cases hdepth <;> rfl

/-- The tokens of a negative integer are the negation of its amount. -/
theorem phrase_negative {value amount : Int64} (hnegative : value.toInt < 0)
    (hamount : amount.toInt = -value.toInt) :
    Phrase .unary (Expr.int value).tokens (.unary .negate (.int amount)) := by
  have hunsigned : 0 ≤ amount.toInt := by omega
  have htokens : (Expr.int value).tokens = .minus :: (Expr.int amount).tokens := by
    simp [Expr.tokens, hnegative, hamount, Int.le_of_lt hnegative]
  have hphrase : Phrase .unary (UnaryOp.negate.token :: (Expr.int amount).tokens)
      (.unary .negate (.int amount)) := .unary ((renders_int hunsigned).chain.ofChain .unary)
  rwa [htokens]

/-- The negation of the amount of a negative integer is that integer. -/
theorem eval_negative {value amount : Int64} (hamount : amount.toInt = -value.toInt) (depth : Nat)
    (env : Env) (machine : Machine) :
    eval (depth + 2) env (.unary .negate (.int amount)) machine = .done (.int value) machine := by
  have hword : word? (-amount.toInt) = some value := by
    rw [word?_eq_some_iff, hamount, Int.neg_neg]
  show Eval.ofExcept (UnaryOp.negate.apply (.int amount)) machine = _
  simp only [UnaryOp.apply, hword]
  rfl

/-- A negative integer is read as the negation of its amount. -/
def negative (value amount : Int64) (hnegative : value.toInt < 0)
    (hamount : amount.toInt = -value.toInt) : Literal where
  value := .int value
  printed := .int value
  parsed := .unary .negate (.int amount)
  depth := 2
  wellFormed := .int trivial
  phrase := phrase_negative hnegative hamount
  evaluates depth' hdepth env machine := by
    obtain ⟨more, rfl⟩ := Nat.exists_eq_add_of_le' hdepth
    exact eval_negative hamount more env machine

/-- The literals of elements evaluate to the elements. -/
theorem evalAll_map_parsed {literals : List Literal} {depth : Nat}
    (hdepth : (literals.map Literal.depth).sum ≤ depth) (env : Env) (machine : Machine) :
    evalAll (eval depth) env (literals.map parsed) machine =
      .done (literals.map value) machine := by
  induction literals with
  | nil => rfl
  | cons literal literals ih =>
      rw [List.map_cons, List.sum_cons] at hdepth
      have hfirst := literal.evaluates depth (by omega) env machine
      rw [List.map_cons, evalAll, Eval.bind_of_done hfirst, Eval.bind_of_done (ih (by omega))]
      rfl

/-- An array of literals. -/
def array (literals : List Literal) : Literal where
  value := .array (literals.map value)
  printed := .array (literals.map printed)
  parsed := .array (literals.map parsed)
  depth := (literals.map depth).sum + 1
  wellFormed := .array trivial (List.forall_mem_map.mpr fun literal _ => literal.wellFormed)
  phrase := by
    have hitems := items_of_phrases fun literal (_ : literal ∈ literals) => literal.item
    rw [Expr.tokens, exprsTokens_eq_map, List.map_map]
    exact (Phrase.primary (.array hitems)).ofChain .unary
  evaluates depth' hdepth env machine := by
    obtain ⟨more, rfl⟩ := Nat.exists_eq_add_of_le' hdepth
    exact Eval.bind_of_done (evalAll_map_parsed (Nat.le_add_left _ more) env machine) _

/-- A depth that suffices for the key of an entry and for its value. -/
def entryDepth (entry : Entry Literal) : Nat :=
  entry.key.depth + entry.value.depth

/-- The literals of keys and values evaluate to entries, which are inserted in order. -/
theorem evalPairs_map_parsed {literals : List (Entry Literal)} {depth : Nat}
    (hstored : StoredUnderOwnKeys (literals.map (Entry.map value)))
    (hdepth : (literals.map entryDepth).sum ≤ depth) (entries : List (Entry Value)) (env : Env)
    (machine : Machine) :
    evalPairs (eval depth) env entries
        (literals.map fun entry => (entry.key.parsed, entry.value.parsed)) machine =
      .done ((literals.map (Entry.map value)).foldl
        (fun entries entry => insertEntry entry entries) entries) machine := by
  induction literals generalizing entries with
  | nil => rfl
  | cons entry literals ih =>
      rw [List.map_cons, List.sum_cons, entryDepth] at hdepth
      obtain ⟨hstoredFirst, hstoredRest⟩ := List.forall_mem_cons.mp hstored
      have hkey := entry.key.evaluates depth (by omega) env machine
      have hvalue := entry.value.evaluates depth (by omega) env machine
      rw [List.map_cons, HashLiteral.evalPairs_cons_eq_done_iff]
      exact ⟨_, _, _, _, _, hkey, hstoredFirst, hvalue, ih hstoredRest (by omega) _⟩

/-- A hash of literals, which are stored under the hash keys of their own keys. -/
def hash (literals : List (Entry Literal))
    (hstored : StoredUnderOwnKeys (literals.map (Entry.map value))) : Literal where
  value := .hash (insertEntries (literals.map (Entry.map value)))
  printed := .hash (literals.map fun entry => (entry.key.printed, entry.value.printed))
  parsed := .hash (literals.map fun entry => (entry.key.parsed, entry.value.parsed))
  depth := (literals.map entryDepth).sum + 1
  wellFormed := .hash trivial (List.forall_mem_map.mpr fun entry _ => entry.key.wellFormed)
    (List.forall_mem_map.mpr fun entry _ => entry.value.wellFormed)
  phrase := by
    have hpairs := pairs_of_phrases (fun entry (_ : entry ∈ literals) => entry.key.item)
      fun entry _ => entry.value.item
    rw [Expr.tokens, pairsTokens_eq_map, List.map_map]
    exact (Phrase.primary (.hash hpairs)).ofChain .unary
  evaluates depth' hdepth env machine := by
    obtain ⟨more, rfl⟩ := Nat.exists_eq_add_of_le' hdepth
    have hpairs := evalPairs_map_parsed hstored (Nat.le_add_left _ more) [] env machine
    exact Eval.bind_of_done hpairs _

/-- The printed form of a literal is one statement. -/
theorem parse_render (literal : Literal) :
    parse literal.printed.render = .ok [.expr literal.parsed] := by
  have hlexemes : lexemes literal.printed.render.toList = literal.printed.tokens := by
    have hend : Separates [] := by simp [Separates]
    simpa [lexemes] using literal.wellFormed.cutsApart [] hend
  rw [parse_eq_ok_iff_readProgram, readProgram_eq_iff, hlexemes]
  have hend : ∀ next ∈ ([] : List Token).head?, ¬ next.Continues := by simp
  have hstatements := Statements.unclosed (.expr literal.item) hend .nil
  rwa [List.append_nil] at hstatements

/-- The value of a program that is a literal. -/
theorem evalProgram_parsed (literal : Literal) {depth : Nat} (hdepth : literal.depth ≤ depth)
    (env : Env) (machine : Machine) :
    evalProgram depth env [.expr literal.parsed] machine = some (some literal.value, machine) := by
  have heval := literal.evaluates depth hdepth env machine
  have hstatement : evalStmt (eval depth) env (.expr literal.parsed) machine =
      .done (some literal.value) machine := Eval.bind_of_done heval _
  unfold evalProgram
  rw [evalStmts, Eval.bind_of_done hstatement]
  rfl

end Literal

/-! ## Data -/

/-- Where each item of a list comes from some source together with what it is related to, the whole
lists do. -/
theorem exists_map_eq_of_forall₂ {α β γ δ : Type} {related : α → β → Prop} {items : List α}
    {others : List β} (left : γ → α) (right : γ → δ) (shown : β → δ)
    (hrelated : List.Forall₂ related items others)
    (hsource : ∀ item ∈ items, ∀ other, related item other →
      ∃ source, left source = item ∧ right source = shown other) :
    ∃ sources : List γ, sources.map left = items ∧ sources.map right = others.map shown := by
  induction hrelated with
  | nil => exact ⟨[], rfl, rfl⟩
  | @cons item other items others hfirst _ ih =>
      obtain ⟨hsourceFirst, hsourceRest⟩ := List.forall_mem_cons.mp hsource
      obtain ⟨source, rfl, hright⟩ := hsourceFirst other hfirst
      obtain ⟨sources, rfl, hrights⟩ := ih hsourceRest
      refine ⟨source :: sources, rfl, ?_⟩
      rw [List.map_cons, List.map_cons, hright, hrights]

namespace Value

/-- Data contains no code. -/
theorem IsData.codeFree {value : Value} (hdata : value.IsData) : value.CodeFree := by
  induction hdata with
  | int | bool => exact IsAtom.codeFree trivial
  | array _ ih => exact codeFree_array.mpr ih
  | hash _ _ _ _ _ ihkeys ihvalues =>
      exact codeFree_hash.mpr fun entry hmem => ⟨ihkeys entry hmem, ihvalues entry hmem⟩

/-- Data may be printed in the order of its entries. -/
theorem IsData.rearranged_self {value : Value} (hdata : value.IsData) : value.Rearranged value := by
  induction hdata with
  | int | bool => exact .same nofun nofun
  | array _ ih => exact .array (List.forall₂_same.mpr ih)
  | hash _ _ _ _ _ _ ihvalues =>
      exact .hash (.refl _) (List.forall₂_same.mpr fun entry hmem => .mk (ihvalues entry hmem))

section HasLiteral

variable (order : HashOrder)

/-- A literal of the first value is printed as the second one is. -/
def HasLiteral (value printed : Value) : Prop :=
  ∃ literal : Literal, literal.value = value ∧ literal.printed.render = printed.render order

/-- An integer other than the least one. -/
theorem hasLiteral_int {value : Int64} (hvalue : value ≠ Int64.minValue) :
    HasLiteral order (.int value) (.int value) := by
  by_cases hnegative : value.toInt < 0
  · have hleast : value.toInt ≠ -2 ^ 63 := fun hleast => hvalue (Int64.toInt_inj.mp hleast)
    have hrange := Int64.le_toInt value
    have hamount : (Int64.ofNat value.toInt.natAbs).toInt = -value.toInt := by
      rw [Int64.toInt_ofNat_of_lt (by omega)]
      omega
    exact ⟨.negative value _ hnegative hamount, rfl, rfl⟩
  · exact ⟨.unsigned value (Int.not_lt.mp hnegative), rfl, rfl⟩

variable {order}

/-- An array, if its elements have literals. -/
theorem hasLiteral_array {elements elements' : List Value}
    (helements : List.Forall₂ Rearranged elements elements')
    (hliterals : ∀ element ∈ elements, ∀ printed, element.Rearranged printed →
      HasLiteral order element printed) : HasLiteral order (.array elements) (.array elements') := by
  obtain ⟨literals, rfl, hrender⟩ := exists_map_eq_of_forall₂ Literal.value
    (fun literal => literal.printed.render) (render order) helements hliterals
  have hexprs : renderExprs (literals.map Literal.printed) = renderValues order elements' := by
    rw [renderExprs_eq_map, renderValues_eq_map, List.map_map, ← hrender]
    rfl
  exact ⟨.array literals, rfl, by simp only [Literal.array, Expr.render, render, hexprs]⟩

/-- The text of a pair of literals. -/
def literalText (literal : Entry Literal) : String :=
  literal.key.printed.render ++ ": " ++ literal.value.printed.render

/-- Literals of entries can be listed as the entries are printed. -/
theorem exists_literals_arranged {ordered entries' : List (Entry Value)}
    (hentries : List.Forall₂ Entry.Rearranged ordered entries')
    (hkeys : ∀ entry ∈ ordered, HasLiteral order entry.key entry.key)
    (hvalues : ∀ entry ∈ ordered, ∀ printed, entry.value.Rearranged printed →
      HasLiteral order entry.value printed) :
    ∃ literals : List (Entry Literal), (literals.map (Entry.map Literal.value)).Perm ordered ∧
      literals.map literalText = (order.arrange (renderEntries order entries')).map Entry.text := by
  have hsource : ∀ entry ∈ ordered, ∀ other, entry.Rearranged other →
      ∃ literal : Entry Literal, literal.map Literal.value = entry ∧
        literalText literal = (other.map (render order)).text := by
    rintro entry hmem other ⟨hvalue⟩
    obtain ⟨key, rfl, hkeyRender⟩ := hkeys _ hmem
    obtain ⟨value, rfl, hvalueRender⟩ := hvalues _ hmem _ hvalue
    exact ⟨⟨_, key, value⟩, rfl, by simp only [literalText, hkeyRender, hvalueRender]; rfl⟩
  obtain ⟨literals, rfl, hrender⟩ := exists_map_eq_of_forall₂ (Entry.map Literal.value) literalText
    (fun entry => (entry.map (render order)).text) hentries hsource
  have hprinted : ((order.arrange (renderEntries order entries')).map Entry.text).Perm
      (literals.map literalText) := by
    rw [hrender, ← Function.comp_def Entry.text, ← List.map_map, ← renderEntries_eq_map]
    exact (order.perm _).map _
  obtain ⟨arranged, harranged, hperm⟩ :=
    (congrFun (congrFun (List.eq_map_comp_perm literalText) _) literals).mpr hprinted
  exact ⟨arranged, hperm.map _, harranged.symm⟩

/-- A hash, if its keys and values have literals. -/
theorem hasLiteral_hash {entries ordered entries' : List (Entry Value)}
    (hascending : Ascending entries) (hstored : StoredUnderOwnKeys entries)
    (hperm : entries.Perm ordered) (hentries : List.Forall₂ Entry.Rearranged ordered entries')
    (hkeys : ∀ entry ∈ entries, HasLiteral order entry.key entry.key)
    (hvalues : ∀ entry ∈ entries, ∀ printed, entry.value.Rearranged printed →
      HasLiteral order entry.value printed) : HasLiteral order (.hash entries) (.hash entries') := by
  obtain ⟨literals, hliterals, hrender⟩ := exists_literals_arranged hentries
    (fun entry hmem => hkeys entry (hperm.symm.subset hmem))
    fun entry hmem => hvalues entry (hperm.symm.subset hmem)
  have hperm' : entries.Perm (literals.map (Entry.map Literal.value)) := hperm.trans hliterals.symm
  have hstored' : StoredUnderOwnKeys (literals.map (Entry.map Literal.value)) :=
    fun entry hmem => hstored entry (hperm'.symm.subset hmem)
  have hpairs : renderPairs (literals.map fun entry => (entry.key.printed, entry.value.printed)) =
      (order.arrange (renderEntries order entries')).map Entry.text := by
    rw [renderPairs_eq_map, List.map_map, ← hrender]
    rfl
  -- The pairs are evaluated in the order printed, and the entries are put back in their order.
  have hinserted : insertEntries (literals.map (Entry.map Literal.value)) = entries := by
    rw [← insertEntries_perm hascending.nodup hperm', insertEntries_of_ascending hascending]
  exact ⟨.hash literals hstored', congrArg Value.hash hinserted,
    by simp only [Literal.hash, Expr.render, render, hpairs]⟩

/-- Every printed form of data is that of a literal. -/
theorem IsData.hasLiteral {value printed : Value} (hdata : value.IsData)
    (hprinted : value.Rearranged printed) : HasLiteral order value printed := by
  induction hdata generalizing printed with
  | int hvalue =>
      cases hprinted
      exact hasLiteral_int order hvalue
  | bool value =>
      cases hprinted
      exact ⟨.bool value, rfl, rfl⟩
  | array _ ih =>
      cases hprinted with
      | same hkind => exact absurd rfl hkind
      | array helements => exact hasLiteral_array helements fun element hmem _ => ih element hmem
  | hash hascending hstored _ hkeys _ ihkeys ihvalues =>
      cases hprinted with
      | same _ hkind => exact absurd rfl hkind
      | hash hperm hentries =>
          exact hasLiteral_hash hascending hstored hperm hentries
            (fun entry hmem => ihkeys entry hmem (hkeys entry hmem).rearranged_self)
            fun entry hmem _ => ihvalues entry hmem

end HasLiteral

end Value

/-- Print data, with the entries of the hashes in it in any order. The text is one statement, and
from some depth on it evaluates in every environment to a value that is equal to the data, prints
nothing and binds nothing. -/
theorem parse_render_data {value : Value} (hdata : value.IsData) :
    value.Rearranged value ∧ ∀ printed, value.Rearranged printed → ∀ order,
      ∃ expr, parse (printed.render order) = .ok [.expr expr] ∧
        ∃ depth, ∀ depth', depth ≤ depth' → ∀ env machine, ∃ result,
          evalProgram depth' env [.expr expr] machine = some (some result, machine) ∧
            result == value := by
  refine ⟨hdata.rearranged_self, fun printed hprinted order => ?_⟩
  have hliteral : Value.HasLiteral order value printed := hdata.hasLiteral hprinted
  obtain ⟨literal, rfl, hrender⟩ := hliteral
  refine ⟨literal.parsed, hrender ▸ literal.parse_render, literal.depth, ?_⟩
  intro depth' hdepth env machine
  exact ⟨literal.value, literal.evalProgram_parsed hdepth env machine,
    Value.beq_self_iff.mpr hdata.codeFree⟩

/-- A hash whose entries are printed in another order than they are stored in, with a negative key
and with an empty hash inside of an array. -/
theorem parse_render_data_reordered :
    let flag : Entry Value := ⟨⟨.boolean, 1⟩, .bool true, .array [.int 3, .hash []]⟩
    let number : Entry Value := ⟨⟨.integer, (-7 : Int64).toUInt64⟩, .int (-7), .bool false⟩
    (Value.hash [flag, number]).IsData ∧
    (Value.hash [flag, number]).Rearranged (.hash [number, flag]) ∧
    (Value.hash [number, flag]).render .stored = "\x7b-7: false, true: [3, \x7b\x7d]\x7d" ∧
    ∃ expr, parse "\x7b-7: false, true: [3, \x7b\x7d]\x7d" = .ok [.expr expr] ∧
      ∃ depth, ∀ depth', depth ≤ depth' → ∀ env machine, ∃ result,
        evalProgram depth' env [.expr expr] machine = some (some result, machine) ∧
          result == .hash [flag, number] := by
  intro flag number
  have hempty : (Value.hash []).IsData := .hash .nil nofun nofun nofun nofun
  have hflag : flag.value.IsData := by
    refine .array (List.forall_mem_cons.mpr ⟨.int (by decide), ?_⟩)
    exact List.forall_mem_singleton.mpr hempty
  have hdata : (Value.hash [flag, number]).IsData := by
    refine .hash ?_ ?_ ?_ ?_ ?_
    · exact List.pairwise_pair.mpr (by decide)
    · exact List.forall_mem_cons.mpr ⟨rfl, List.forall_mem_singleton.mpr rfl⟩
    · exact List.forall_mem_cons.mpr ⟨Or.inr rfl, List.forall_mem_singleton.mpr (Or.inl rfl)⟩
    · exact List.forall_mem_cons.mpr
        ⟨.bool true, List.forall_mem_singleton.mpr (.int (by decide))⟩
    · exact List.forall_mem_cons.mpr ⟨hflag, List.forall_mem_singleton.mpr (.bool false)⟩
  have hprinted : (Value.hash [flag, number]).Rearranged (.hash [number, flag]) :=
    .hash (.swap number flag []) (.cons (.mk (.same nofun nofun))
      (.cons (.mk hflag.rearranged_self) .nil))
  have hrender : (Value.hash [number, flag]).render .stored =
      "\x7b-7: false, true: [3, \x7b\x7d]\x7d" := by decide
  exact ⟨hdata, hprinted, hrender, hrender ▸ (parse_render_data hdata).2 _ hprinted .stored⟩

end MonkeyLang
