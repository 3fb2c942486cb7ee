import MonkeyLang.Proofs.Value.Hash
import MonkeyLang.Value.Equality

/-!
# Equality of values is a partial equivalence

Two values are equal precisely if they are the same and contain no function and no macro
(`Value.equal_iff`). So equality is symmetric and transitive, and it is reflexive on the values
without code and on no others. Equality of hashes is equality of maps: it does not depend on the
order in which the entries came. Read `Value.beq_partial_equivalence` first.
-/

namespace MonkeyLang

namespace Value

/-- A value without code is one that remembers no environment. -/
theorem codeFree_iff {value : Value} :
    value.CodeFree ↔ value.CapturesOnly fun _ => False := by
  refine ⟨CodeFree.capturesOnly, fun honly part hpart => ⟨fun hkind => ?_, fun hkind => ?_⟩⟩
  · cases part with
    | function params body env => exact honly env ⟨params, body, Or.inl hpart⟩
    | int | bool | null | str | array | hash | builtin | returned | error | quote | macroFn =>
        cases hkind
  · cases part with
    | macroFn params body env => exact honly env ⟨params, body, Or.inr hpart⟩
    | int | bool | null | str | array | hash | function | builtin | returned | error | quote =>
        cases hkind

@[simp]
theorem codeFree_array {elements : List Value} :
    (array elements).CodeFree ↔ ∀ element ∈ elements, element.CodeFree := by
  simp only [codeFree_iff, capturesOnly_array]

@[simp]
theorem codeFree_hash {entries : List (Entry Value)} :
    (hash entries).CodeFree ↔ ∀ entry ∈ entries, entry.key.CodeFree ∧ entry.value.CodeFree := by
  simp only [codeFree_iff, capturesOnly_hash]

@[simp]
theorem codeFree_returned {value : Value} : (returned value).CodeFree ↔ value.CodeFree := by
  simp only [codeFree_iff, capturesOnly_returned]

@[simp]
theorem codeFree_function {params : List String} {body : Block} {env : Env} :
    ¬ (function params body env).CodeFree := by
  simp only [codeFree_iff, capturesOnly_function, not_false_eq_true]

@[simp]
theorem codeFree_macroFn {params : List String} {body : Block} {env : Env} :
    ¬ (macroFn params body env).CodeFree := by
  simp only [codeFree_iff, capturesOnly_macroFn, not_false_eq_true]

/-- An atom has no code in it. -/
theorem IsAtom.codeFree {value : Value} (hatom : value.IsAtom) : value.CodeFree :=
  codeFree_iff.mpr hatom.capturesOnly

@[simp]
theorem codeFree_error (message : String) : (error message).CodeFree := by
  intro part hpart
  cases hpart
  exact ⟨nofun, nofun⟩

/-- Quoted code is an expression, and no function or macro. -/
@[simp]
theorem codeFree_quote (expr : Expr) : (quote expr).CodeFree :=
  codeFree_iff.mpr (capturesOnly_quote expr)

end Value

mutual

/-- Two values are equal exactly if they are the same and contain no function and no macro. -/
theorem Value.equal_iff : ∀ value other : Value,
    value.equal other = true ↔ value = other ∧ value.CodeFree
  | .int _, other | .bool _, other | .null, other | .str _, other | .builtin _, other => by
      rw [and_iff_left]
      · cases other <;> simp [Value.equal]
      · exact Value.IsAtom.codeFree trivial
  | .array elements, other => by
      cases other <;> simp [Value.equal, equalValues_iff elements]
  | .hash entries, other => by
      cases other <;> simp [Value.equal, equalEntries_iff entries]
  | .returned value, other => by
      cases other <;> simp [Value.equal, Value.equal_iff value]
  | .error _, other | .quote _, other | .function .., other | .macroFn .., other => by
      cases other <;> simp [Value.equal]

/-- Two lists of values are equal exactly if they are the same and contain no code. -/
theorem equalValues_iff : ∀ values others : List Value,
    equalValues values others = true ↔ values = others ∧ ∀ value ∈ values, value.CodeFree
  | [], others => by cases others <;> simp [equalValues]
  | value :: values, others => by
      cases others with
      | nil => simp [equalValues]
      | cons other others =>
          simp only [equalValues, Bool.and_eq_true, value.equal_iff other,
            equalValues_iff values others, List.cons.injEq, List.forall_mem_cons]
          exact and_and_and_comm

/-- Two lists of entries are equal exactly if they are the same and contain no code. -/
theorem equalEntries_iff : ∀ entries others : List (Entry Value),
    equalEntries entries others = true ↔
      entries = others ∧ ∀ entry ∈ entries, entry.key.CodeFree ∧ entry.value.CodeFree
  | [], others => by cases others <;> simp [equalEntries]
  | ⟨hashKey, key, value⟩ :: entries, others => by
      cases others with
      | nil => simp [equalEntries]
      | cons other others =>
          obtain ⟨hashKey', key', value'⟩ := other
          simp only [equalEntries, Bool.and_eq_true, beq_iff_eq, key.equal_iff key',
            value.equal_iff value', equalEntries_iff entries others, List.cons.injEq,
            Entry.mk.injEq, List.forall_mem_cons]
          constructor
          · rintro ⟨⟨⟨hhashKey, hkey, hkeyFree⟩, hvalue, hvalueFree⟩, hrest, hrestFree⟩
            exact ⟨⟨⟨hhashKey, hkey, hvalue⟩, hrest⟩, ⟨hkeyFree, hvalueFree⟩, hrestFree⟩
          · rintro ⟨⟨⟨hhashKey, hkey, hvalue⟩, hrest⟩, ⟨hkeyFree, hvalueFree⟩, hrestFree⟩
            exact ⟨⟨⟨hhashKey, hkey, hkeyFree⟩, hvalue, hvalueFree⟩, hrest, hrestFree⟩

end

namespace Value

variable {value other : Value}

/-- Equality in terms of sameness. -/
theorem beq_iff : (value == other) ↔ value = other ∧ value.CodeFree :=
  Value.equal_iff value other

/-- A value is equal to itself exactly if it contains no code. -/
theorem beq_self_iff : (value == value) ↔ value.CodeFree := by
  rw [beq_iff, and_iff_right rfl]

end Value

/-! ## Hashes -/

/-- The entries found under a hash key, if there is one on either side, have equal keys and equal
values. -/
def SameEntry : Option (Entry Value) → Option (Entry Value) → Prop :=
  Option.Rel fun entry entry' => entry.key == entry'.key ∧ entry.value == entry'.value

/-- Equal entries under one hash key are the same and contain no code. -/
theorem sameEntry_entryFor?_iff {hashKey : HashKey} {entries entries' : List (Entry Value)} :
    SameEntry (entryFor? hashKey entries) (entryFor? hashKey entries') ↔
      entryFor? hashKey entries = entryFor? hashKey entries' ∧
        ∀ entry, entryFor? hashKey entries = some entry →
          entry.key.CodeFree ∧ entry.value.CodeFree := by
  constructor
  · intro hsame
    generalize hleft : entryFor? hashKey entries = left at hsame ⊢
    generalize hright : entryFor? hashKey entries' = right at hsame ⊢
    cases hsame with
    | none => exact ⟨rfl, nofun⟩
    | @some entry entry' hequal =>
        have hhashKey : entry.hashKey = entry'.hashKey :=
          (mem_of_entryFor? hleft).2.trans (mem_of_entryFor? hright).2.symm
        obtain ⟨hkey, hkeyFree⟩ := Value.beq_iff.mp hequal.1
        obtain ⟨hvalue, hvalueFree⟩ := Value.beq_iff.mp hequal.2
        have hentry : entry = entry' := by
          cases entry
          cases entry'
          rw [Entry.mk.injEq]
          exact ⟨hhashKey, hkey, hvalue⟩
        refine ⟨congrArg some hentry, fun found hfound => ?_⟩
        cases hfound
        exact ⟨hkeyFree, hvalueFree⟩
  · rintro ⟨hfound, hfree⟩
    rw [← hfound]
    cases hentry : entryFor? hashKey entries with
    | none => exact .none
    | some entry =>
        obtain ⟨hkey, hvalue⟩ := hfree entry hentry
        exact .some ⟨Value.beq_self_iff.mpr hkey, Value.beq_self_iff.mpr hvalue⟩

/-- Hashes with entries in order are equal exactly if they have the same hash keys, with equal keys
and values under each. -/
theorem Value.beq_hash_iff {entries entries' : List (Entry Value)} (hascending : Ascending entries)
    (hascending' : Ascending entries') :
    (Value.hash entries == .hash entries') ↔
      ∀ hashKey, SameEntry (entryFor? hashKey entries) (entryFor? hashKey entries') := by
  simp only [beq_iff, Value.hash.injEq, codeFree_hash, sameEntry_entryFor?_iff]
  constructor
  · rintro ⟨rfl, hfree⟩ hashKey
    exact ⟨rfl, fun entry hfound => hfree entry (mem_of_entryFor? hfound).1⟩
  · intro hsame
    refine ⟨hascending.eq_of_entryFor? hascending' fun hashKey => (hsame hashKey).1, ?_⟩
    intro entry hmem
    exact (hsame entry.hashKey).2 entry (entryFor?_of_mem hascending.nodup hmem)

/-- Equality of values is symmetric and transitive, and a value is equal to itself exactly if it
contains no function and no macro. Hashes are equal if the last entries that were inserted for each
hash key are, so that entries with distinct hash keys may come in any order. Equal values have the
same hash key, or are refused as keys for the same reason. -/
theorem Value.beq_partial_equivalence :
    (∀ value other : Value, value == other → other == value) ∧
    (∀ first second third : Value, first == second → second == third → first == third) ∧
    (∀ value : Value, value == value ↔ value.CodeFree) ∧
    (∀ inserted inserted' : List (Entry Value),
      (Value.hash (insertEntries inserted) == .hash (insertEntries inserted')) ↔
        ∀ hashKey, SameEntry (entryFor? hashKey inserted.reverse)
          (entryFor? hashKey inserted'.reverse)) ∧
    (∀ inserted inserted' : List (Entry Value), (inserted.map Entry.hashKey).Nodup →
      inserted.Perm inserted' → ∀ other : Value,
        (Value.hash (insertEntries inserted) == other) =
            (Value.hash (insertEntries inserted') == other) ∧
          (other == .hash (insertEntries inserted)) =
            (other == .hash (insertEntries inserted'))) ∧
    (∀ value other : Value, value == other → value.hashKey = other.hashKey) := by
  refine ⟨?_, ?_, fun value => beq_self_iff, ?_, ?_, ?_⟩
  · intro value other hequal
    obtain ⟨rfl, hfree⟩ := beq_iff.mp hequal
    exact beq_self_iff.mpr hfree
  · intro first second third hfirst hsecond
    obtain ⟨rfl, _⟩ := beq_iff.mp hfirst
    exact hsecond
  · intro inserted inserted'
    rw [beq_hash_iff (ascending_insertEntries inserted) (ascending_insertEntries inserted')]
    simp only [entryFor?_insertEntries]
  · intro inserted inserted' hnodup hperm other
    rw [insertEntries_perm hnodup hperm]
    exact ⟨rfl, rfl⟩
  · intro value other hequal
    rw [(beq_iff.mp hequal).1]

/-- Two hashes are equal although their entries came in another order. With a function among the
values a hash is not even equal to itself. -/
theorem Value.beq_partial_equivalence_reordered :
    let flag : Entry Value := ⟨⟨.boolean, 1⟩, .bool true, .array [.int 1, .null]⟩
    let number : Value → Entry Value := fun value => ⟨⟨.integer, 1⟩, .int 1, value⟩
    let code : Value := .function [] [] ⟨0⟩
    ([number (.str "one"), flag].map Entry.hashKey).Nodup ∧
    (Value.hash (insertEntries [number (.str "one"), flag]) ==
      .hash (insertEntries [flag, number (.str "one")])) ∧
    ¬ (Value.hash (insertEntries [number code, flag]) ==
      .hash (insertEntries [number code, flag])) := by
  intro flag number code
  obtain ⟨_, _, hself, _, horder, _⟩ := Value.beq_partial_equivalence
  have hnodup : ([number (.str "one"), flag].map Entry.hashKey).Nodup := by decide
  have hfree : ∀ value : Value, value.IsAtom → value.CodeFree := fun _ hatom => hatom.codeFree
  refine ⟨hnodup, ?_, fun hequal => ?_⟩
  · rw [(horder _ _ hnodup (.swap flag (number (.str "one")) []) _).1, hself]
    have hinserted : insertEntries [flag, number (.str "one")] = [flag, number (.str "one")] := rfl
    rw [hinserted, codeFree_hash]
    refine List.forall_mem_cons.mpr ⟨⟨hfree _ trivial, ?_⟩, ?_⟩
    · exact codeFree_array.mpr (List.forall_mem_cons.mpr
        ⟨hfree _ trivial, List.forall_mem_singleton.mpr (hfree _ trivial)⟩)
    · exact List.forall_mem_singleton.mpr ⟨hfree _ trivial, hfree _ trivial⟩
  · have hinserted : insertEntries [number code, flag] = [flag, number code] := rfl
    rw [hself, hinserted, codeFree_hash] at hequal
    exact codeFree_function (hequal (number code) (by simp)).2

end MonkeyLang
