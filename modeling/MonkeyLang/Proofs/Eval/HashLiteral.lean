import MonkeyLang.Proofs.Eval.Sequence
import MonkeyLang.Proofs.Value.Hash

/-!
# Hash literals are maps in which the last pair wins

A hash literal is evaluated in steps: the key of a pair, the check that the key is hashable, and the
value, for one pair after the other. `HashLiteral.Progress` is what the steps so far came to. If all
steps succeed, the entries are the last pairs for each hash key, and indexing finds them. If a step
fails, the literal fails in the same way, and the steps behind it are not taken. Read
`eval_hash_literal` first.
-/

namespace MonkeyLang

/-! ## Evaluations in sequence -/

section Sequence

variable {α β : Type} {first : Eval α} {next : α → Eval β} {machine final : Machine}

/-- If the first evaluation nests too deeply, so does the sequence. -/
theorem Eval.bind_of_tooDeep (hfirst : first machine = .tooDeep) :
    (first >>= next) machine = .tooDeep := by
  show Eval.andThen first next machine = .tooDeep
  simp only [Eval.andThen, hfirst]

/-- A sequence ends with a result if both parts do. -/
theorem Eval.bind_eq_done_iff {result : β} :
    (first >>= next) machine = .done result final ↔
      ∃ value between, first machine = .done value between ∧
        next value between = .done result final := by
  cases hfirst : first machine with
  | done value between =>
      rw [Eval.bind_of_done hfirst]
      simp
  | stopped interrupt between =>
      rw [Eval.bind_of_stopped hfirst]
      simp
  | tooDeep =>
      rw [Eval.bind_of_tooDeep hfirst]
      simp

/-- A sequence is interrupted if its first part is, or if its second part is where the first one
ended. -/
theorem Eval.bind_eq_stopped_iff {interrupt : Interrupt} :
    (first >>= next) machine = .stopped interrupt final ↔
      first machine = .stopped interrupt final ∨
        ∃ value between, first machine = .done value between ∧
          next value between = .stopped interrupt final := by
  cases hfirst : first machine with
  | done value between =>
      rw [Eval.bind_of_done hfirst]
      simp
  | stopped interrupt' between =>
      rw [Eval.bind_of_stopped hfirst]
      simp
  | tooDeep =>
      rw [Eval.bind_of_tooDeep hfirst]
      simp

/-- A result that is there goes on with the same machine. -/
theorem Eval.ofExcept_eq_done_iff {result : Except Fault α} {value : α} :
    Eval.ofExcept result machine = .done value final ↔ result = .ok value ∧ final = machine := by
  cases result with
  | ok value' =>
      show Outcome.done value' machine = .done value final ↔ _
      simp [eq_comm]
  | error cause =>
      show Outcome.stopped (.fault cause) machine = .done value final ↔ _
      simp

/-- A result that is missing stops with the cause. -/
theorem Eval.ofExcept_eq_stopped_iff {result : Except Fault α} {interrupt : Interrupt} :
    Eval.ofExcept result machine = .stopped interrupt final ↔
      ∃ cause, result = .error cause ∧ interrupt = .fault cause ∧ final = machine := by
  cases result with
  | ok value' =>
      show Outcome.done value' machine = .stopped interrupt final ↔ _
      simp
  | error cause =>
      show Outcome.stopped (.fault cause) machine = .stopped interrupt final ↔ _
      simp [eq_comm]

end Sequence

/-! ## Steps -/

namespace HashLiteral

/-- A step of the evaluation of a hash literal. -/
inductive Step where
  /-- Evaluate the key of a pair. -/
  | key (expr : Expr)
  /-- Check that the key is hashable. -/
  | hashability
  /-- Evaluate the value of the pair. -/
  | value (expr : Expr)

/-- The steps of the pairs of a literal, in order. -/
def steps : List (Expr × Expr) → List Step
  | [] => []
  | (key, value) :: pairs => .key key :: .hashability :: .value value :: steps pairs

/-- What the steps so far came to: the pairs evaluated, the key of the pair at hand if it was
evaluated, and the machine. -/
structure Progress where
  evaluated : List (Value × Value)
  key? : Option Value
  machine : Machine

/-- Nothing is evaluated yet. -/
def Progress.start (machine : Machine) : Progress :=
  ⟨[], none, machine⟩

/-- A step succeeds and leads to more progress. -/
inductive Step.Succeeds (evaluate : Evaluator) (env : Env) : Step → Progress → Progress → Prop where
  | key {expr : Expr} {evaluated : List (Value × Value)} {machine machine' : Machine}
      {key : Value} :
      evaluate env expr machine = .done key machine' →
      Succeeds evaluate env (.key expr) ⟨evaluated, none, machine⟩ ⟨evaluated, some key, machine'⟩
  | hashability {evaluated : List (Value × Value)} {machine : Machine} {key : Value}
      {hashKey : HashKey} :
      key.hashKey = .ok hashKey →
      Succeeds evaluate env .hashability ⟨evaluated, some key, machine⟩
        ⟨evaluated, some key, machine⟩
  | value {expr : Expr} {evaluated : List (Value × Value)} {machine machine' : Machine}
      {key value : Value} :
      evaluate env expr machine = .done value machine' →
      Succeeds evaluate env (.value expr) ⟨evaluated, some key, machine⟩
        ⟨evaluated ++ [(key, value)], none, machine'⟩

/-- A step fails with an interrupt. -/
inductive Step.Fails (evaluate : Evaluator) (env : Env) :
    Step → Progress → Interrupt → Machine → Prop where
  | key {expr : Expr} {evaluated : List (Value × Value)} {machine machine' : Machine}
      {interrupt : Interrupt} :
      evaluate env expr machine = .stopped interrupt machine' →
      Fails evaluate env (.key expr) ⟨evaluated, none, machine⟩ interrupt machine'
  | hashability {evaluated : List (Value × Value)} {machine : Machine} {key : Value}
      {cause : Fault} :
      key.hashKey = .error cause →
      Fails evaluate env .hashability ⟨evaluated, some key, machine⟩ (.fault cause) machine
  | value {expr : Expr} {evaluated : List (Value × Value)} {machine machine' : Machine}
      {key : Value} {interrupt : Interrupt} :
      evaluate env expr machine = .stopped interrupt machine' →
      Fails evaluate env (.value expr) ⟨evaluated, some key, machine⟩ interrupt machine'

/-- Steps succeed one after the other. -/
inductive Succeed (evaluate : Evaluator) (env : Env) :
    List Step → Progress → Progress → Prop where
  | nil {progress : Progress} : Succeed evaluate env [] progress progress
  | cons {step : Step} {steps : List Step} {progress progress' progress'' : Progress} :
      step.Succeeds evaluate env progress progress' →
      Succeed evaluate env steps progress' progress'' →
      Succeed evaluate env (step :: steps) progress progress''

variable {evaluate : Evaluator} {env : Env} {earlier : List (Value × Value)}
  {machine final : Machine} {keyExpr valueExpr : Expr} {pairs : List (Expr × Expr)}
  {entries result : List (Entry Value)} {interrupt : Interrupt}

namespace Succeed

variable {expr : Expr} {key : Value} {later : List Step} {progress : Progress}

/-- After a key was evaluated, the other steps go on with it. -/
theorem of_key (hsucceed : Succeed evaluate env (.key expr :: later) ⟨earlier, none, machine⟩
    progress) :
    ∃ key machine₁, evaluate env expr machine = .done key machine₁ ∧
      Succeed evaluate env later ⟨earlier, some key, machine₁⟩ progress := by
  cases hsucceed with
  | cons hstep hlater =>
      cases hstep with
      | key hkey => exact ⟨_, _, hkey, hlater⟩

/-- After a key was found to be hashable, the other steps go on with it. -/
theorem of_hashability (hsucceed : Succeed evaluate env (.hashability :: later)
    ⟨earlier, some key, machine⟩ progress) :
    ∃ hashKey, key.hashKey = .ok hashKey ∧
      Succeed evaluate env later ⟨earlier, some key, machine⟩ progress := by
  cases hsucceed with
  | cons hstep hlater =>
      cases hstep with
      | hashability hhash => exact ⟨_, hhash, hlater⟩

/-- After a value was evaluated, the other steps go on with one more pair. -/
theorem of_value (hsucceed : Succeed evaluate env (.value expr :: later)
    ⟨earlier, some key, machine⟩ progress) :
    ∃ value machine₁, evaluate env expr machine = .done value machine₁ ∧
      Succeed evaluate env later ⟨earlier ++ [(key, value)], none, machine₁⟩ progress := by
  cases hsucceed with
  | cons hstep hlater =>
      cases hstep with
      | value hvalue => exact ⟨_, _, hvalue, hlater⟩

end Succeed

/-- An evaluated pair as it stands in an entry. -/
def pairOf (entry : Entry Value) : Value × Value :=
  (entry.key, entry.value)

/-- Whether entries are stored under the hash keys of their own keys. -/
def StoredUnderOwnKeys (entries : List (Entry Value)) : Prop :=
  ∀ entry ∈ entries, entry.key.hashKey = .ok entry.hashKey

/-- What it takes for the first pair and the others to end with entries. -/
theorem evalPairs_cons_eq_done_iff :
    evalPairs evaluate env entries ((keyExpr, valueExpr) :: pairs) machine = .done result final ↔
      ∃ key machine₁ hashKey value machine₂, evaluate env keyExpr machine = .done key machine₁ ∧
        key.hashKey = .ok hashKey ∧ evaluate env valueExpr machine₁ = .done value machine₂ ∧
        evalPairs evaluate env (insertEntry ⟨hashKey, key, value⟩ entries) pairs machine₂ =
          .done result final := by
  simp only [evalPairs, Eval.bind_eq_done_iff, Eval.ofExcept_eq_done_iff]
  constructor
  · rintro ⟨key, machine₁, hkey, hashKey, _, ⟨hhash, rfl⟩, value, machine₂, hvalue, hrest⟩
    exact ⟨key, _, hashKey, value, machine₂, hkey, hhash, hvalue, hrest⟩
  · rintro ⟨key, machine₁, hashKey, value, machine₂, hkey, hhash, hvalue, hrest⟩
    exact ⟨key, machine₁, hkey, hashKey, machine₁, ⟨hhash, rfl⟩, value, machine₂, hvalue, hrest⟩

/-- What it takes for the first pair or the others to fail. -/
theorem evalPairs_cons_eq_stopped_iff :
    evalPairs evaluate env entries ((keyExpr, valueExpr) :: pairs) machine =
        .stopped interrupt final ↔
      evaluate env keyExpr machine = .stopped interrupt final ∨
      ∃ key machine₁, evaluate env keyExpr machine = .done key machine₁ ∧
        ((∃ cause, key.hashKey = .error cause ∧ interrupt = .fault cause ∧ final = machine₁) ∨
        ∃ hashKey, key.hashKey = .ok hashKey ∧
          (evaluate env valueExpr machine₁ = .stopped interrupt final ∨
          ∃ value machine₂, evaluate env valueExpr machine₁ = .done value machine₂ ∧
            evalPairs evaluate env (insertEntry ⟨hashKey, key, value⟩ entries) pairs machine₂ =
              .stopped interrupt final)) := by
  simp only [evalPairs, Eval.bind_eq_stopped_iff, Eval.ofExcept_eq_stopped_iff,
    Eval.ofExcept_eq_done_iff]
  refine or_congr_right (exists_congr fun key => exists_congr fun machine₁ =>
    and_congr_right fun _ => or_congr_right (exists_congr fun hashKey => ?_))
  constructor
  · rintro ⟨_, ⟨hhash, rfl⟩, hrest⟩
    exact ⟨hhash, hrest⟩
  · rintro ⟨hhash, hrest⟩
    exact ⟨machine₁, ⟨hhash, rfl⟩, hrest⟩

/-- The pairs of a literal end with entries only if all of its steps succeed. The entries are those
of the evaluated pairs, inserted in order. -/
theorem succeed_of_evalPairs (earlier : List (Value × Value))
    (hdone : evalPairs evaluate env entries pairs machine = .done result final) :
    ∃ inserted, StoredUnderOwnKeys inserted ∧
      result = inserted.foldl (fun entries entry => insertEntry entry entries) entries ∧
      Succeed evaluate env (steps pairs) ⟨earlier, none, machine⟩
        ⟨earlier ++ inserted.map pairOf, none, final⟩ := by
  induction pairs generalizing entries machine earlier with
  | nil =>
      cases hdone
      refine ⟨[], nofun, rfl, ?_⟩
      rw [List.map_nil, List.append_nil]
      exact .nil
  | cons pair pairs ih =>
      obtain ⟨key, machine₁, hashKey, value, machine₂, hkey, hhash, hvalue, hrest⟩ :=
        evalPairs_cons_eq_done_iff.mp hdone
      obtain ⟨inserted, hstored, hresult, hsucceed⟩ := ih (earlier ++ [(key, value)]) hrest
      refine ⟨⟨hashKey, key, value⟩ :: inserted, ?_, hresult, ?_⟩
      · exact List.forall_mem_cons.mpr ⟨hhash, hstored⟩
      · rw [List.append_assoc] at hsucceed
        exact .cons (.key hkey) (.cons (.hashability hhash) (.cons (.value hvalue) hsucceed))

/-- The pairs of a literal fail only if one of its steps does, behind others that succeed. -/
theorem fails_of_evalPairs (earlier : List (Value × Value))
    (hstopped : evalPairs evaluate env entries pairs machine = .stopped interrupt final) :
    ∃ before step after progress, steps pairs = before ++ step :: after ∧
      Succeed evaluate env before ⟨earlier, none, machine⟩ progress ∧
      step.Fails evaluate env progress interrupt final := by
  induction pairs generalizing entries machine earlier with
  | nil => cases hstopped
  | cons pair pairs ih =>
      obtain ⟨keyExpr, valueExpr⟩ := pair
      rcases evalPairs_cons_eq_stopped_iff.mp hstopped with hkey | ⟨key, machine₁, hkey, hstopped⟩
      · exact ⟨[], .key keyExpr, _, _, rfl, .nil, .key hkey⟩
      rcases hstopped with ⟨cause, hhash, rfl, rfl⟩ | ⟨hashKey, hhash, hstopped⟩
      · exact ⟨[.key keyExpr], .hashability, _, _, rfl, .cons (.key hkey) .nil, .hashability hhash⟩
      rcases hstopped with hvalue | ⟨value, machine₂, hvalue, hrest⟩
      · exact ⟨[.key keyExpr, .hashability], .value valueExpr, _, _, rfl,
          .cons (.key hkey) (.cons (.hashability hhash) .nil), .value hvalue⟩
      obtain ⟨before, step, after, progress, hsteps, hsucceed, hfails⟩ :=
        ih (earlier ++ [(key, value)]) hrest
      refine ⟨.key keyExpr :: .hashability :: .value valueExpr :: before, step, after, progress,
        ?_, ?_, hfails⟩
      · rw [steps, hsteps]
        rfl
      · exact .cons (.key hkey) (.cons (.hashability hhash) (.cons (.value hvalue) hsucceed))

/-- The pairs of a literal fail as their first failing step does, whatever stands behind it. -/
theorem evalPairs_of_fails {before after : List Step} {step : Step} {progress : Progress}
    (hsteps : steps pairs = before ++ step :: after)
    (hsucceed : Succeed evaluate env before ⟨earlier, none, machine⟩ progress)
    (hfails : step.Fails evaluate env progress interrupt final) :
    evalPairs evaluate env entries pairs machine = .stopped interrupt final := by
  induction pairs generalizing entries machine earlier before with
  | nil => simp [steps] at hsteps
  | cons pair pairs ih =>
      rw [evalPairs_cons_eq_stopped_iff]
      -- The failing step is one of the three for this pair, or belongs to a later one.
      rcases before with _ | ⟨_, _ | ⟨_, _ | ⟨_, before⟩⟩⟩
      all_goals
        simp only [steps, List.nil_append, List.cons_append, List.cons.injEq] at hsteps
      · obtain ⟨rfl, -⟩ := hsteps
        cases hsucceed
        cases hfails with
        | key hkey => exact Or.inl hkey
      · obtain ⟨rfl, rfl, -⟩ := hsteps
        obtain ⟨key, machine₁, hkey, hsucceed⟩ := hsucceed.of_key
        cases hsucceed
        cases hfails with
        | hashability hhash => exact Or.inr ⟨key, _, hkey, Or.inl ⟨_, hhash, rfl, rfl⟩⟩
      · obtain ⟨rfl, rfl, rfl, -⟩ := hsteps
        obtain ⟨key, machine₁, hkey, hsucceed⟩ := hsucceed.of_key
        obtain ⟨hashKey, hhash, hsucceed⟩ := hsucceed.of_hashability
        cases hsucceed
        cases hfails with
        | value hvalue => exact Or.inr ⟨key, _, hkey, Or.inr ⟨hashKey, hhash, Or.inl hvalue⟩⟩
      · obtain ⟨rfl, rfl, rfl, hsteps⟩ := hsteps
        obtain ⟨key, machine₁, hkey, hsucceed⟩ := hsucceed.of_key
        obtain ⟨hashKey, hhash, hsucceed⟩ := hsucceed.of_hashability
        obtain ⟨value, machine₂, hvalue, hsucceed⟩ := hsucceed.of_value
        refine Or.inr ⟨key, machine₁, hkey, Or.inr ⟨hashKey, hhash, Or.inr ?_⟩⟩
        refine ⟨value, machine₂, hvalue, ?_⟩
        exact ih hsteps hsucceed

/-! ## The last pair wins -/

/-- The pair is the last one whose key passes the test. -/
def IsLast (test : Value → Prop) (pair : Value × Value) (evaluated : List (Value × Value)) :
    Prop :=
  ∃ before after, evaluated = before ++ pair :: after ∧ test pair.1 ∧
    ∀ later ∈ after, ¬ test later.1

/-- What is found by a test: the value of the last pair whose key passes it, or null if there is no
such pair. -/
inductive Finds (test : Value → Prop) (evaluated : List (Value × Value)) : Value → Prop where
  | last {pair : Value × Value} : IsLast test pair evaluated → Finds test evaluated pair.2
  | missing : (∀ pair ∈ evaluated, ¬ test pair.1) → Finds test evaluated .null

/-- The entries are the last pairs for each hash key. -/
structure LastWins (evaluated : List (Value × Value)) (entries : List (Entry Value)) : Prop where
  /-- No two entries have the same hash key. -/
  distinct : (entries.map Entry.hashKey).Nodup
  /-- There is an entry for each hash key of a pair and for no other. -/
  mem_iff : ∀ hashKey, hashKey ∈ entries.map Entry.hashKey ↔
    ∃ pair ∈ evaluated, pair.1.hashKey = .ok hashKey
  /-- An entry holds key and value of the last pair with its hash key. -/
  last : ∀ entry ∈ entries,
    IsLast (fun key => key.hashKey = .ok entry.hashKey) (entry.key, entry.value) evaluated
  /-- An entry is stored under the hash key of its own key. -/
  stored : StoredUnderOwnKeys entries

variable {inserted : List (Entry Value)} {entry : Entry Value} {hashKey : HashKey}

/-- Among entries that are stored under their own keys, the hash key of an entry is that of its
key. -/
theorem StoredUnderOwnKeys.hashKey_iff (hstored : StoredUnderOwnKeys inserted)
    (hmem : entry ∈ inserted) : entry.key.hashKey = .ok hashKey ↔ entry.hashKey = hashKey := by
  rw [hstored entry hmem, Except.ok.injEq]

/-- An entry that is found after insertions holds the last pair with the hash key. -/
theorem isLast_of_entryFor? (hstored : StoredUnderOwnKeys inserted)
    (hfound : entryFor? hashKey (insertEntries inserted) = some entry) :
    IsLast (fun key => key.hashKey = .ok hashKey) (pairOf entry) (inserted.map pairOf) := by
  rw [entryFor?_insertEntries, entryFor?_reverse_eq_some_iff] at hfound
  obtain ⟨before, after, rfl, hsame, hafter⟩ := hfound
  refine ⟨before.map pairOf, after.map pairOf, by simp, ?_, ?_⟩
  · exact (hstored.hashKey_iff (by simp)).mpr hsame
  · intro pair hmem
    obtain ⟨later, hlater, rfl⟩ := List.mem_map.mp hmem
    exact fun hkey => hafter later hlater ((hstored.hashKey_iff (by simp [hlater])).mp hkey)

/-- Nothing is found after insertions only if no pair has the hash key. -/
theorem not_hashKey_of_entryFor? (hstored : StoredUnderOwnKeys inserted)
    (hmissing : entryFor? hashKey (insertEntries inserted) = none) :
    ∀ pair ∈ inserted.map pairOf, pair.1.hashKey ≠ .ok hashKey := by
  rw [entryFor?_insertEntries, entryFor?_eq_none_iff] at hmissing
  intro pair hmem
  obtain ⟨entry, hentry, rfl⟩ := List.mem_map.mp hmem
  exact fun hkey => hmissing entry (by simpa using hentry) ((hstored.hashKey_iff hentry).mp hkey)

/-- Entries that are inserted in order are the last pairs for each hash key. -/
theorem lastWins_insertEntries (hstored : StoredUnderOwnKeys inserted) :
    LastWins (inserted.map pairOf) (insertEntries inserted) := by
  have hascending := ascending_insertEntries inserted
  have hlast : ∀ entry ∈ insertEntries inserted,
      IsLast (fun key => key.hashKey = .ok entry.hashKey) (entry.key, entry.value)
        (inserted.map pairOf) :=
    fun entry hmem => isLast_of_entryFor? hstored (entryFor?_of_mem hascending.nodup hmem)
  refine ⟨hascending.nodup, fun hashKey => ?_, hlast, fun entry hmem => ?_⟩
  · rw [List.mem_map]
    constructor
    · rintro ⟨entry, hmem, rfl⟩
      obtain ⟨before, after, hsplit, hkey, _⟩ := hlast entry hmem
      exact ⟨_, by rw [hsplit]; simp, hkey⟩
    · rintro ⟨pair, hmem, hkey⟩
      cases hfound : entryFor? hashKey (insertEntries inserted) with
      | none => exact absurd hkey (not_hashKey_of_entryFor? hstored hfound pair hmem)
      | some entry => exact ⟨entry, mem_of_entryFor? hfound⟩
  · obtain ⟨_, _, _, hkey, _⟩ := hlast entry hmem
    exact hkey

/-- Indexing by a hashable key finds the last pair with its hash key. -/
theorem finds_indexBy (hstored : StoredUnderOwnKeys inserted) {key : Value}
    (hkey : key.hashKey = .ok hashKey) :
    ∃ found, (Value.hash (insertEntries inserted)).indexBy key = .ok found ∧
      Finds (fun other => other.hashKey = .ok hashKey) (inserted.map pairOf) found := by
  refine ⟨((entryFor? hashKey (insertEntries inserted)).map Entry.value).getD .null, ?_, ?_⟩
  · rw [Value.indexBy_hash, hkey]
    rfl
  · cases hfound : entryFor? hashKey (insertEntries inserted) with
    | none => exact .missing (not_hashKey_of_entryFor? hstored hfound)
    | some entry => exact .last (isLast_of_entryFor? hstored hfound)

end HashLiteral

/-- Integers, booleans and strings are hashable. -/
theorem Value.exists_hashKey {key : Value}
    (hkind : key.kind = .integer ∨ key.kind = .boolean ∨ key.kind = .string) :
    ∃ hashKey, key.hashKey = .ok hashKey := by
  cases key with
  | int | bool | str => exact ⟨_, rfl⟩
  | null | array | hash | function | builtin | returned | error | quote | macroFn =>
      simp [Value.kind] at hkind

/-- No other value has the hash key of an integer or of a boolean. -/
theorem Value.hashKey_eq_iff {key other : Value}
    (hkind : key.kind = .integer ∨ key.kind = .boolean) :
    other.hashKey = key.hashKey ↔ other = key := by
  refine ⟨fun hsame => ?_, fun hother => by rw [hother]⟩
  cases key with
  | int value =>
      cases other <;> simp only [Value.hashKey, Except.ok.injEq, HashKey.mk.injEq, reduceCtorEq,
        false_and, true_and] at hsame
      -- The digest of an integer is all of its bits.
      next value' =>
        cases value
        cases value'
        cases hsame
        rfl
  | bool value =>
      cases other <;> simp only [Value.hashKey, Except.ok.injEq, HashKey.mk.injEq, reduceCtorEq,
        false_and, true_and] at hsame
      next value' => cases value <;> cases value' <;> simp at hsame ⊢
  | null | str | array | hash | function | builtin | returned | error | quote | macroFn =>
      simp [Value.kind] at hkind

/-! ## Literals -/

open HashLiteral

variable {depth : Nat} {env : Env} {pairs : List (Expr × Expr)} {machine final : Machine}

/-- A hash literal ends with the entries of its pairs. -/
theorem eval_hash_eq_done_iff {value : Value} :
    eval (depth + 1) env (.hash pairs) machine = .done value final ↔
      ∃ entries, evalPairs (eval depth) env [] pairs machine = .done entries final ∧
        value = .hash entries := by
  show ((evalPairs (eval depth) env [] pairs >>= fun entries => pure (Value.hash entries)) machine =
    .done value final) ↔ _
  rw [Eval.bind_eq_done_iff]
  constructor
  · rintro ⟨entries, between, hpairs, hhash⟩
    cases hhash
    exact ⟨entries, hpairs, rfl⟩
  · rintro ⟨entries, hpairs, rfl⟩
    exact ⟨entries, final, hpairs, rfl⟩

/-- A hash literal fails as its pairs do. -/
theorem eval_hash_eq_stopped_iff {interrupt : Interrupt} :
    eval (depth + 1) env (.hash pairs) machine = .stopped interrupt final ↔
      evalPairs (eval depth) env [] pairs machine = .stopped interrupt final := by
  show ((evalPairs (eval depth) env [] pairs >>= fun entries => pure (Value.hash entries)) machine =
    .stopped interrupt final) ↔ _
  rw [Eval.bind_eq_stopped_iff]
  refine ⟨?_, Or.inl⟩
  rintro (hpairs | ⟨entries, between, hpairs, hhash⟩)
  · exact hpairs
  · cases hhash

/-- Evaluate a hash literal. If it ends with a value, that is a hash of the last evaluated pair for
each hash key, and indexing it by an integer, a boolean or a string finds the value of the last pair
with the hash key of the index, or null. No other value shares the hash key of an integer or of a
boolean, so the pair found for one of these is the last one with that very key. If the literal
fails, it fails as the first failing step does. No step behind that one is taken: every other
literal with the same steps up to there ends in the same way. -/
theorem eval_hash_literal (depth : Nat) (env : Env) (pairs : List (Expr × Expr))
    (machine : Machine) :
    (∀ value final, eval (depth + 1) env (.hash pairs) machine = .done value final →
      ∃ evaluated entries,
        Succeed (eval depth) env (steps pairs) (.start machine) ⟨evaluated, none, final⟩ ∧
        value = .hash entries ∧ LastWins evaluated entries ∧
        (∀ key : Value, key.kind = .integer ∨ key.kind = .boolean ∨ key.kind = .string →
          ∃ found, value.indexBy key = .ok found ∧
            Finds (fun other => other.hashKey = key.hashKey) evaluated found) ∧
        ∀ key : Value, key.kind = .integer ∨ key.kind = .boolean →
          (∀ other : Value, other.hashKey = key.hashKey ↔ other = key) ∧
          ∃ found, value.indexBy key = .ok found ∧ Finds (· = key) evaluated found) ∧
    (∀ interrupt final, eval (depth + 1) env (.hash pairs) machine = .stopped interrupt final ↔
      ∃ before step after progress, steps pairs = before ++ step :: after ∧
        Succeed (eval depth) env before (.start machine) progress ∧
        step.Fails (eval depth) env progress interrupt final) ∧
    ∀ before step progress interrupt final,
      Succeed (eval depth) env before (.start machine) progress →
      step.Fails (eval depth) env progress interrupt final →
      ∀ others, before ++ [step] <+: steps others →
        eval (depth + 1) env (.hash others) machine = .stopped interrupt final := by
  refine ⟨?_, ?_, ?_⟩
  · intro value final hdone
    obtain ⟨entries, hpairs, rfl⟩ := eval_hash_eq_done_iff.mp hdone
    obtain ⟨inserted, hstored, rfl, hsucceed⟩ := succeed_of_evalPairs [] hpairs
    have hindex : ∀ key : Value, key.kind = .integer ∨ key.kind = .boolean ∨ key.kind = .string →
        ∃ found, (Value.hash (insertEntries inserted)).indexBy key = .ok found ∧
          Finds (fun other => other.hashKey = key.hashKey) (inserted.map pairOf) found := by
      intro key hkind
      obtain ⟨hashKey, hkey⟩ := Value.exists_hashKey hkind
      rw [hkey]
      exact finds_indexBy hstored hkey
    refine ⟨inserted.map pairOf, insertEntries inserted, hsucceed, rfl,
      lastWins_insertEntries hstored, hindex, fun key hkind => ?_⟩
    have hsame : ∀ other : Value, other.hashKey = key.hashKey ↔ other = key :=
      fun _ => Value.hashKey_eq_iff hkind
    obtain ⟨found, hfound, hfinds⟩ := hindex key (hkind.imp_right Or.inl)
    simp only [hsame] at hfinds
    exact ⟨hsame, found, hfound, hfinds⟩
  · intro interrupt final
    rw [eval_hash_eq_stopped_iff]
    refine ⟨fails_of_evalPairs [], ?_⟩
    rintro ⟨before, step, after, progress, hsteps, hsucceed, hfails⟩
    exact evalPairs_of_fails hsteps hsucceed hfails
  · rintro before step progress interrupt final hsucceed hfails others ⟨after, hsteps⟩
    rw [List.append_assoc] at hsteps
    exact eval_hash_eq_stopped_iff.mpr (evalPairs_of_fails hsteps.symm hsucceed hfails)

/-- Of two pairs with the key `1` the second one is found, and `true` is another key than `1`. Where
an array is given as a key, the text of the value before it was printed, and whatever stands for the
value of that key or behind it does not matter. -/
theorem eval_hash_literal_repeated_key :
    let pairs : List (Expr × Expr) :=
      [(.int 1, .str "first"), (.bool true, .int 3), (.int 1, .str "second")]
    let one : Entry Value := ⟨⟨.integer, 1⟩, .int 1, .str "second"⟩
    let flag : Entry Value := ⟨⟨.boolean, 1⟩, .bool true, .int 3⟩
    let printing : Expr := .call (.ident "puts") [.str "a"]
    let machine : Machine := ⟨.empty, []⟩
    eval 2 ⟨0⟩ (.hash pairs) machine = .done (.hash [flag, one]) machine ∧
    (∃ evaluated found, LastWins evaluated [flag, one] ∧
      (Value.hash [flag, one]).indexBy (.int 1) = .ok found ∧
      Finds (· = .int 1) evaluated found ∧ found = .str "second") ∧
    ∀ value others,
      eval 4 ⟨0⟩ (.hash ((.int 1, printing) :: (.array [], value) :: others)) machine =
        .stopped (.fault (.unhashable .array)) ⟨.empty, [.str "a"]⟩ := by
  intro pairs one flag printing machine
  have hdone : eval 2 ⟨0⟩ (.hash pairs) machine = .done (.hash [flag, one]) machine := rfl
  refine ⟨hdone, ?_, fun value others => ?_⟩
  · obtain ⟨evaluated, entries, _, hentries, hlast, _, hindex⟩ :=
      (eval_hash_literal 1 ⟨0⟩ pairs machine).1 _ _ hdone
    obtain ⟨_, found, hfound, hfinds⟩ := hindex (.int 1) (Or.inl rfl)
    cases hentries
    refine ⟨evaluated, found, hlast, hfound, hfinds, ?_⟩
    cases hfound
    rfl
  · have hprinted : eval 3 ⟨0⟩ printing machine = .done .null ⟨.empty, [.str "a"]⟩ := by rfl
    refine (eval_hash_literal 3 ⟨0⟩ [] machine).2.2
      [.key (.int 1), .hashability, .value printing, .key (.array [])] .hashability
      ⟨[(.int 1, .null)], some (.array []), ⟨.empty, [.str "a"]⟩⟩ _ _ ?_ (.hashability rfl) _
      ⟨.value value :: steps others, rfl⟩
    exact .cons (.key rfl) (.cons (.hashability rfl) (.cons (.value hprinted)
      (.cons (.key rfl) .nil)))

end MonkeyLang
