import MonkeyLang.Eval.Builtins
import MonkeyLang.Eval.Operators
import MonkeyLang.Proofs.Value.Parts

/-!
# What operators and builtins answer with

Unary and binary operators answer with atoms (`UnaryOp.isAtom_of_apply`,
`BinaryOp.isAtom_of_apply`), and an insertion into a hash brings in nothing but the new entry
(`mem_insertEntry`). Indexing and builtins answer with values that are made of the parts of what
they are given, so a property that values have by their parts carries over (`PartWise`).
-/

namespace MonkeyLang

/-- A unary operator answers with an atom. -/
theorem UnaryOp.isAtom_of_apply {op : UnaryOp} {operand result : Value}
    (happly : op.apply operand = .ok result) : result.IsAtom := by
  unfold UnaryOp.apply at happly
  split at happly
  · cases happly
    trivial
  · split at happly
    · split at happly
      · cases happly
        trivial
      · cases happly
    · cases happly

/-- An operation on words answers with an atom. -/
theorem isAtom_of_exactResult {left right : Int64} {op : BinaryOp} {exact : Int} {result : Value}
    (hexact : exactResult left op right exact = .ok result) : result.IsAtom := by
  unfold exactResult at hexact
  split at hexact
  · cases hexact
    trivial
  · cases hexact

/-- A binary operator on integers answers with an atom. -/
theorem BinaryOp.isAtom_of_onInts {op : BinaryOp} {left right : Int64} {result : Value}
    (honInts : op.onInts left right = .ok result) : result.IsAtom := by
  cases op with
  | add | subtract | multiply => exact isAtom_of_exactResult honInts
  | divide =>
      unfold BinaryOp.onInts at honInts
      by_cases hzero : right = 0
      · simp [hzero] at honInts
      · simp only [hzero, if_false] at honInts
        exact isAtom_of_exactResult honInts
  | less | greater | equal | notEqual =>
      cases honInts
      trivial

/-- A binary operator on booleans and null answers with an atom. -/
theorem BinaryOp.isAtom_of_onTruth {op : BinaryOp} {left right result : Value}
    (honTruth : op.onTruth left right = .ok result) : result.IsAtom := by
  cases op with
  | equal | notEqual =>
      cases honTruth
      trivial
  | add | subtract | multiply | divide | less | greater => cases honTruth

/-- A binary operator answers with an atom. -/
theorem BinaryOp.isAtom_of_apply {op : BinaryOp} {left right result : Value}
    (happly : op.apply left right = .ok result) : result.IsAtom := by
  unfold BinaryOp.apply at happly
  split at happly
  · exact isAtom_of_onInts happly
  · split at happly
    · cases happly
      trivial
    · cases happly
  · exact isAtom_of_onTruth happly
  · exact isAtom_of_onTruth happly
  · exact isAtom_of_onTruth happly
  · exact isAtom_of_onTruth happly
  · cases happly

/-- What stands in a hash after an insertion was inserted or stood there before. -/
theorem mem_insertEntry {α : Type} {entry other : Entry α} {entries : List (Entry α)}
    (hmem : other ∈ insertEntry entry entries) : other = entry ∨ other ∈ entries := by
  induction entries with
  | nil => exact Or.inl (List.mem_singleton.mp hmem)
  | cons head tail ih =>
      unfold insertEntry at hmem
      split at hmem
      · rcases List.mem_cons.mp hmem with rfl | htail
        · exact Or.inl rfl
        · exact Or.inr (List.mem_cons_of_mem head htail)
      · split at hmem
        · exact List.mem_cons.mp hmem
        · rcases List.mem_cons.mp hmem with rfl | hinserted
          · exact Or.inr (List.mem_cons_self ..)
          · rcases ih hinserted with rfl | htail
            · exact Or.inl rfl
            · exact Or.inr (List.mem_cons_of_mem head htail)

/-- A hash is indexed by the hash key of the position. -/
theorem Value.indexBy_hash (entries : List (Entry Value)) (position : Value) :
    (hash entries).indexBy position =
      position.hashKey.map fun hashKey =>
        ((entryFor? hashKey entries).map Entry.value).getD .null :=
  rfl

/-- A property that atoms have, and that arrays and hashes have by what they contain. -/
structure PartWise (good : Value → Prop) : Prop where
  atom : ∀ {value : Value}, value.IsAtom → good value
  array : ∀ {elements : List Value}, good (.array elements) ↔ ∀ element ∈ elements, good element
  hash : ∀ {entries : List (Entry Value)},
    good (.hash entries) ↔ ∀ entry ∈ entries, good entry.key ∧ good entry.value

namespace PartWise

variable {good : Value → Prop}

/-- Null stands for an element that is not there. -/
theorem getD (h : PartWise good) {value? : Option Value}
    (hvalue : ∀ value, value? = some value → good value) : good (value?.getD .null) := by
  cases value? with
  | none => exact h.atom trivial
  | some value => exact hvalue value rfl

/-- Indexing a good collection gives a good value. -/
theorem indexBy (h : PartWise good) {collection position result : Value}
    (hcollection : good collection) (hindex : collection.indexBy position = .ok result) :
    good result := by
  unfold Value.indexBy at hindex
  split at hindex
  · next elements position =>
      cases hindex
      have helements := h.array.mp hcollection
      unfold elementAt
      split
      · exact h.atom trivial
      · refine h.getD fun element hget => ?_
        exact helements element (List.mem_of_getElem? hget)
  · next entries =>
      have hentries := h.hash.mp hcollection
      cases hkey : position.hashKey with
      | error cause =>
          rw [hkey] at hindex
          cases hindex
      | ok hashKey =>
          rw [hkey] at hindex
          cases hindex
          refine h.getD fun value hvalue => ?_
          obtain ⟨entry, hentry, rfl⟩ := Option.map_eq_some_iff.mp hvalue
          exact (hentries entry (List.mem_of_find?_eq_some hentry)).2
  · cases hindex

/-- A builtin on an array answers with what it makes of the elements. -/
theorem onArray (h : PartWise good) {builtin : Builtin} {f : List Value → Value} {arg : Value}
    {answer : Value × List Value} (harg : good arg)
    (hf : ∀ elements, (∀ element ∈ elements, good element) → good (f elements))
    (honArray : MonkeyLang.onArray builtin f arg = .ok answer) : good answer.1 := by
  unfold MonkeyLang.onArray at honArray
  split at honArray
  · next elements =>
      cases honArray
      exact hf elements (h.array.mp harg)
  · cases honArray

/-- A builtin answers good arguments with a good value. -/
theorem builtin (h : PartWise good) {builtin : Builtin} {args : List Value}
    {answer : Value × List Value} (hargs : ∀ arg ∈ args, good arg)
    (happly : builtin.apply args = .ok answer) : good answer.1 := by
  unfold Builtin.apply at happly
  split at happly
  · -- `len` of a string
    cases happly
    exact h.atom trivial
  · -- `len` of an array
    cases happly
    exact h.atom trivial
  · cases happly
  · -- `first`
    refine h.onArray (hargs _ (List.mem_cons_self ..)) (fun elements helements => ?_) happly
    refine h.getD fun element hhead => ?_
    exact helements element (List.mem_of_mem_head? hhead)
  · -- `last`
    refine h.onArray (hargs _ (List.mem_cons_self ..)) (fun elements helements => ?_) happly
    refine h.getD fun element hlast => ?_
    exact helements element (List.mem_of_mem_getLast? hlast)
  · -- `rest`
    refine h.onArray (hargs _ (List.mem_cons_self ..)) (fun elements helements => ?_) happly
    split
    · exact h.atom trivial
    · exact h.array.mpr fun element htail => helements element (List.mem_of_mem_tail htail)
  · -- `push`
    next arg value =>
      refine h.onArray (hargs _ (List.mem_cons_self ..)) (fun elements helements => ?_) happly
      refine h.array.mpr fun element hmem => ?_
      rcases List.mem_append.mp hmem with helement | hvalue
      · exact helements element helement
      · rw [List.mem_singleton.mp hvalue]
        exact hargs value (List.mem_cons_of_mem _ (List.mem_singleton_self value))
  · -- `puts`
    cases happly
    exact h.atom trivial
  · cases happly
  · cases happly

end PartWise

end MonkeyLang
