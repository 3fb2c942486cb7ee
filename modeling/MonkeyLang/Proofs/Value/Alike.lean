import Mathlib.Data.List.Forall2
import MonkeyLang.Eval.Builtins
import MonkeyLang.Eval.Operators
import MonkeyLang.Eval.Quotation
import MonkeyLang.Proofs.Value.Operators

/-!
# Values that are alike

Two values are alike if they differ at most in the environments that their functions and macros
remember, and there only as a given relation allows. No operation on values looks at the
environments: on operands that are alike it fails with the same fault, or its results are alike.
Read `Builtin.apply_alike` and `Value.indexBy_alike`.
-/

namespace MonkeyLang

/-- The values agree in everything but the environments remembered, which are related. -/
inductive Value.Alike (same : Env → Env → Prop) : Value → Value → Prop where
  | atom {value : Value} : value.IsAtom → Alike same value value
  | error (message : String) : Alike same (.error message) (.error message)
  | quote (expr : Expr) : Alike same (.quote expr) (.quote expr)
  | arrayNil : Alike same (.array []) (.array [])
  | arrayCons {value value' : Value} {values values' : List Value} :
      Alike same value value' → Alike same (.array values) (.array values') →
      Alike same (.array (value :: values)) (.array (value' :: values'))
  | hashNil : Alike same (.hash []) (.hash [])
  | hashCons {hashKey : HashKey} {key key' value value' : Value}
      {entries entries' : List (Entry Value)} :
      Alike same key key' → Alike same value value' →
      Alike same (.hash entries) (.hash entries') →
      Alike same (.hash (⟨hashKey, key, value⟩ :: entries))
        (.hash (⟨hashKey, key', value'⟩ :: entries'))
  | function {params : List String} {body : Block} {env env' : Env} :
      same env env' → Alike same (.function params body env) (.function params body env')
  | macroFn {params : List String} {body : Block} {env env' : Env} :
      same env env' → Alike same (.macroFn params body env) (.macroFn params body env')
  | returned {value value' : Value} :
      Alike same value value' → Alike same (.returned value) (.returned value')

/-- The lists agree item by item. -/
abbrev AlikeValues (same : Env → Env → Prop) : List Value → List Value → Prop :=
  List.Forall₂ (Value.Alike same)

/-- The entries agree in their hash keys, and their keys and values are alike. -/
structure Entry.Alike (same : Env → Env → Prop) (entry entry' : Entry Value) : Prop where
  hashKey_eq : entry.hashKey = entry'.hashKey
  key : entry.key.Alike same entry'.key
  value : entry.value.Alike same entry'.value

/-- The lists of entries agree entry by entry. -/
abbrev AlikeEntries (same : Env → Env → Prop) : List (Entry Value) → List (Entry Value) → Prop :=
  List.Forall₂ (Entry.Alike same)

/-- The results are the same fault, or are related. -/
inductive Except.Alike {α : Type} (related : α → α → Prop) :
    Except Fault α → Except Fault α → Prop where
  | ok {value value' : α} : related value value' → Alike related (.ok value) (.ok value')
  | error (fault : Fault) : Alike related (.error fault) (.error fault)

namespace Value

variable {same same' : Env → Env → Prop} {value value' : Value}

/-- Arrays are alike if their elements are. -/
theorem alike_array {elements elements' : List Value} :
    (array elements).Alike same (array elements') ↔ AlikeValues same elements elements' := by
  constructor
  · intro halike
    induction elements generalizing elements' with
    | nil =>
        cases halike with
        | atom hatom => exact hatom.elim
        | arrayNil => exact .nil
    | cons element elements ih =>
        cases halike with
        | atom hatom => exact hatom.elim
        | arrayCons hfirst hrest => exact .cons hfirst (ih hrest)
  · intro halike
    induction halike with
    | nil => exact .arrayNil
    | cons hfirst _ ih => exact .arrayCons hfirst ih

/-- Hashes are alike if their entries are. -/
theorem alike_hash {entries entries' : List (Entry Value)} :
    (hash entries).Alike same (hash entries') ↔ AlikeEntries same entries entries' := by
  constructor
  · intro halike
    induction entries generalizing entries' with
    | nil =>
        cases halike with
        | atom hatom => exact hatom.elim
        | hashNil => exact .nil
    | cons entry entries ih =>
        cases halike with
        | atom hatom => exact hatom.elim
        | hashCons hkey hvalue hrest => exact .cons ⟨rfl, hkey, hvalue⟩ (ih hrest)
  · intro halike
    induction halike with
    | nil => exact .hashNil
    | @cons entry entry' entries entries' hentry _ ih =>
        obtain ⟨hashKey, key, value⟩ := entry
        obtain ⟨hashKey', key', value'⟩ := entry'
        obtain ⟨hhashKey, hkey, hvalue⟩ := hentry
        cases hhashKey
        exact .hashCons hkey hvalue ih

/-- What is like an array is an array. -/
theorem Alike.of_array {elements : List Value} (halike : (array elements).Alike same value') :
    ∃ elements', value' = array elements' ∧ AlikeValues same elements elements' := by
  have hshape : ∃ elements', value' = array elements' := by
    cases halike with
    | atom hatom => exact hatom.elim
    | arrayNil | arrayCons => exact ⟨_, rfl⟩
  obtain ⟨elements', rfl⟩ := hshape
  exact ⟨elements', rfl, alike_array.mp halike⟩

/-- What is like a hash is a hash. -/
theorem Alike.of_hash {entries : List (Entry Value)} (halike : (hash entries).Alike same value') :
    ∃ entries', value' = hash entries' ∧ AlikeEntries same entries entries' := by
  have hshape : ∃ entries', value' = hash entries' := by
    cases halike with
    | atom hatom => exact hatom.elim
    | hashNil | hashCons => exact ⟨_, rfl⟩
  obtain ⟨entries', rfl⟩ := hshape
  exact ⟨entries', rfl, alike_hash.mp halike⟩

namespace Alike

/-- A wider relation of environments. -/
theorem mono (halike : value.Alike same value')
    (hsame : ∀ env env', same env env' → same' env env') : value.Alike same' value' := by
  induction halike with
  | atom hatom => exact .atom hatom
  | error message => exact .error message
  | quote expr => exact .quote expr
  | arrayNil => exact .arrayNil
  | arrayCons _ _ ihfirst ihrest => exact .arrayCons ihfirst ihrest
  | hashNil => exact .hashNil
  | hashCons _ _ _ ihkey ihvalue ihrest => exact .hashCons ihkey ihvalue ihrest
  | function henv => exact .function (hsame _ _ henv)
  | macroFn henv => exact .macroFn (hsame _ _ henv)
  | returned _ ih => exact .returned ih

/-- A value is the only one like it if the environments that it remembers are related to themselves
alone. -/
theorem eq_of_capturesOnly (halike : value.Alike same value')
    (honly : value.CapturesOnly fun env => ∀ env', same env env' → env = env') :
    value = value' := by
  induction halike with
  | atom | error | quote | arrayNil | hashNil => rfl
  | arrayCons _ _ ihfirst ihrest =>
      obtain ⟨hfirst, hrest⟩ := List.forall_mem_cons.mp (capturesOnly_array.mp honly)
      cases ihfirst hfirst
      cases ihrest (capturesOnly_array.mpr hrest)
      rfl
  | hashCons _ _ _ ihkey ihvalue ihrest =>
      obtain ⟨⟨hkey, hvalue⟩, hrest⟩ := List.forall_mem_cons.mp (capturesOnly_hash.mp honly)
      cases ihkey hkey
      cases ihvalue hvalue
      cases ihrest (capturesOnly_hash.mpr hrest)
      rfl
  | function henv => rw [capturesOnly_function.mp honly _ henv]
  | macroFn henv => rw [capturesOnly_macroFn.mp honly _ henv]
  | returned _ ih => rw [ih (capturesOnly_returned.mp honly)]

/-- Values that are alike are of the same type. -/
theorem kind_eq (halike : value.Alike same value') : value.kind = value'.kind := by
  cases halike <;> rfl

/-- Values that are alike are both true or both false in a condition. -/
theorem truthy_eq (halike : value.Alike same value') : value.truthy = value'.truthy := by
  cases halike <;> rfl

/-- What is like an atom is the same atom. -/
theorem eq_of_isAtom (halike : value.Alike same value') (hatom : value.IsAtom) :
    value = value' := by
  cases halike with
  | atom => rfl
  | error | quote | arrayNil | arrayCons | hashNil | hashCons | function | macroFn | returned =>
      exact hatom.elim

/-- An atom is like nothing that is not one. -/
theorem isAtom_iff (halike : value.Alike same value') : value.IsAtom ↔ value'.IsAtom := by
  cases halike <;> exact Iff.rfl

/-- Values that are alike have the same hash key. -/
theorem hashKey_eq (halike : value.Alike same value') : value.hashKey = value'.hashKey := by
  cases halike <;> rfl

/-- Values that are alike stand for the same expression. -/
theorem reify_eq (halike : value.Alike same value') : value.reify = value'.reify := by
  cases halike <;> rfl

end Alike

end Value

/-- A wider relation of environments. -/
theorem Entry.Alike.mono {same same' : Env → Env → Prop} {entry entry' : Entry Value}
    (halike : entry.Alike same entry') (hsame : ∀ env env', same env env' → same' env env') :
    entry.Alike same' entry' :=
  ⟨halike.hashKey_eq, halike.key.mono hsame, halike.value.mono hsame⟩

variable {same : Env → Env → Prop}

mutual

/-- Values that are alike print in the same way. -/
theorem Value.render_alike (order : HashOrder) : ∀ value value' : Value,
    value.Alike same value' → value.render order = value'.render order
  | .array elements, value', halike => by
      obtain ⟨elements', rfl, helements⟩ := halike.of_array
      rw [Value.render, Value.render, renderValues_alike order elements elements' helements]
  | .hash entries, value', halike => by
      obtain ⟨entries', rfl, hentries⟩ := halike.of_hash
      rw [Value.render, Value.render, renderEntries_alike order entries entries' hentries]
  | .returned value, value', halike => by
      cases halike with
      | atom hatom => exact hatom.elim
      | returned hcontent => rw [Value.render, Value.render, value.render_alike order _ hcontent]
  | .int _, _, halike | .bool _, _, halike | .null, _, halike | .str _, _, halike
  | .function .., _, halike | .builtin _, _, halike | .error _, _, halike | .quote _, _, halike
  | .macroFn .., _, halike => by
      cases halike <;> rfl

/-- Lists that agree item by item print item by item in the same way. -/
theorem renderValues_alike (order : HashOrder) : ∀ values values' : List Value,
    AlikeValues same values values' → renderValues order values = renderValues order values'
  | [], _, .nil => rfl
  | value :: values, _, .cons hfirst hrest => by
      rw [renderValues, renderValues, value.render_alike order _ hfirst,
        renderValues_alike order values _ hrest]

/-- Entries that agree print in the same way. -/
theorem renderEntries_alike (order : HashOrder) : ∀ entries entries' : List (Entry Value),
    AlikeEntries same entries entries' → renderEntries order entries = renderEntries order entries'
  | [], _, .nil => rfl
  | ⟨hashKey, key, value⟩ :: entries, ⟨hashKey', key', value'⟩ :: entries',
      .cons hentry hrest => by
      have hhashKey : hashKey = hashKey' := hentry.hashKey_eq
      rw [renderEntries, renderEntries, hhashKey, key.render_alike order key' hentry.key,
        value.render_alike order value' hentry.value,
        renderEntries_alike order entries entries' hrest]

end

mutual

/-- A value is like itself if the environments that it remembers are related to themselves. -/
theorem Value.alike_self : ∀ value : Value, value.CapturesOnly (fun env => same env env) →
    value.Alike same value
  | .array elements, honly =>
      Value.alike_array.mpr (alikeValues_self elements (Value.capturesOnly_array.mp honly))
  | .hash entries, honly =>
      Value.alike_hash.mpr (alikeEntries_self entries (Value.capturesOnly_hash.mp honly))
  | .function _ _ env, honly => .function (honly env ⟨_, _, Or.inl .self⟩)
  | .macroFn _ _ env, honly => .macroFn (honly env ⟨_, _, Or.inr .self⟩)
  | .returned value, honly => .returned (value.alike_self (Value.capturesOnly_returned.mp honly))
  | .error message, _ => .error message
  | .quote expr, _ => .quote expr
  | .int _, _ | .bool _, _ | .null, _ | .str _, _ | .builtin _, _ => .atom trivial

/-- A list agrees with itself if the environments remembered are related to themselves. -/
theorem alikeValues_self : ∀ values : List Value,
    (∀ value ∈ values, value.CapturesOnly fun env => same env env) →
    AlikeValues same values values
  | [], _ => .nil
  | value :: values, honly => by
      obtain ⟨hfirst, hrest⟩ := List.forall_mem_cons.mp honly
      exact .cons (value.alike_self hfirst) (alikeValues_self values hrest)

/-- Entries agree with themselves if the environments remembered are related to themselves. -/
theorem alikeEntries_self : ∀ entries : List (Entry Value),
    (∀ entry ∈ entries, entry.key.CapturesOnly (fun env => same env env) ∧
      entry.value.CapturesOnly fun env => same env env) →
    AlikeEntries same entries entries
  | [], _ => .nil
  | ⟨_, key, value⟩ :: entries, honly => by
      obtain ⟨⟨hkey, hvalue⟩, hrest⟩ := List.forall_mem_cons.mp honly
      exact .cons ⟨rfl, key.alike_self hkey, value.alike_self hvalue⟩
        (alikeEntries_self entries hrest)

end

/-! ## Operations on values -/

variable {value value' other other' : Value}

/-- A unary operator does the same to values that are alike. -/
theorem UnaryOp.apply_alike (op : UnaryOp) (halike : value.Alike same value') :
    op.apply value = op.apply value' := by
  cases op with
  | not => rw [UnaryOp.apply, UnaryOp.apply, halike.truthy_eq]
  | negate => cases halike <;> rfl

/-- A binary operator refuses operands that are not both atoms. -/
theorem BinaryOp.apply_of_not_isAtom (op : BinaryOp) (hatoms : ¬ (value.IsAtom ∧ other.IsAtom)) :
    op.apply value other = .error (operandFault op value other) := by
  unfold BinaryOp.apply
  split
  case h_7 => rfl
  all_goals exact absurd ⟨trivial, trivial⟩ hatoms

/-- A binary operator does the same to operands that are alike. -/
theorem BinaryOp.apply_alike (op : BinaryOp) (halike : value.Alike same value')
    (hother : other.Alike same other') : op.apply value other = op.apply value' other' := by
  by_cases hatoms : value.IsAtom ∧ other.IsAtom
  · rw [halike.eq_of_isAtom hatoms.1, hother.eq_of_isAtom hatoms.2]
  · have hatoms' : ¬ (value'.IsAtom ∧ other'.IsAtom) := by
      rwa [← halike.isAtom_iff, ← hother.isAtom_iff]
    rw [apply_of_not_isAtom op hatoms, apply_of_not_isAtom op hatoms', operandFault, operandFault,
      halike.kind_eq, hother.kind_eq]

/-- Elements at the same position are alike. -/
theorem AlikeValues.getD {values values' : List Value} (halike : AlikeValues same values values') :
    ∀ position : Nat,
      (values[position]?.getD .null).Alike same (values'[position]?.getD .null) := by
  induction halike with
  | nil =>
      intro position
      exact .atom trivial
  | cons hfirst _ ih =>
      intro position
      cases position with
      | zero => exact hfirst
      | succ position => exact ih position

/-- Entries under the same hash key have values that are alike. -/
theorem AlikeEntries.entryFor? {entries entries' : List (Entry Value)}
    (halike : AlikeEntries same entries entries') (hashKey : HashKey) :
    (((MonkeyLang.entryFor? hashKey entries).map Entry.value).getD .null).Alike same
      (((MonkeyLang.entryFor? hashKey entries').map Entry.value).getD .null) := by
  induction halike with
  | nil => exact .atom trivial
  | @cons entry entry' entries entries' hentry _ ih =>
      unfold MonkeyLang.entryFor? at ih ⊢
      by_cases hfound : entry.hashKey = hashKey
      · have hfound' : entry'.hashKey = hashKey := hentry.hashKey_eq.symm.trans hfound
        rw [List.find?_cons_of_pos (by simpa using hfound),
          List.find?_cons_of_pos (by simpa using hfound')]
        exact hentry.value
      · have hfound' : ¬ entry'.hashKey = hashKey := hentry.hashKey_eq ▸ hfound
        rw [List.find?_cons_of_neg (by simpa using hfound),
          List.find?_cons_of_neg (by simpa using hfound')]
        exact ih

/-- Indexing does the same to collections and positions that are alike. -/
theorem Value.indexBy_alike (halike : value.Alike same value') (hother : other.Alike same other') :
    Except.Alike (Value.Alike same) (value.indexBy other) (value'.indexBy other') := by
  have hrefused : Except.Alike (Value.Alike same)
      (.error (.notIndexable value.kind other.kind))
      (.error (.notIndexable value'.kind other'.kind)) := by
    rw [halike.kind_eq, hother.kind_eq]
    exact .error _
  cases value with
  | array elements =>
      obtain ⟨elements', rfl, helements⟩ := halike.of_array
      cases hother with
      | atom hatom =>
          cases other with
          | int position =>
              refine .ok ?_
              unfold elementAt
              split
              · exact .atom trivial
              · exact helements.getD position.toInt.toNat
          | bool | null | str | builtin => exact hrefused
          | array | hash | function | returned | error | quote | macroFn => exact hatom.elim
      | error | quote | arrayNil | arrayCons | hashNil | hashCons | function | macroFn | returned =>
          exact hrefused
  | hash entries =>
      obtain ⟨entries', rfl, hentries⟩ := halike.of_hash
      rw [indexBy_hash, indexBy_hash, hother.hashKey_eq]
      cases other'.hashKey with
      | error fault => exact .error fault
      | ok hashKey => exact .ok (hentries.entryFor? hashKey)
  | int | bool | null | str | builtin | function | returned | error | quote | macroFn =>
      cases halike <;> exact hrefused

/-- Inserting entries that are alike. -/
theorem AlikeEntries.insertEntry {entry entry' : Entry Value}
    {entries entries' : List (Entry Value)} (hentry : entry.Alike same entry')
    (halike : AlikeEntries same entries entries') :
    AlikeEntries same (MonkeyLang.insertEntry entry entries)
      (MonkeyLang.insertEntry entry' entries') := by
  induction halike with
  | nil => exact .cons hentry .nil
  | @cons head head' tail tail' hhead htail ih =>
      unfold MonkeyLang.insertEntry
      rw [← hentry.hashKey_eq, ← hhead.hashKey_eq]
      split
      · exact .cons hentry htail
      · split
        · exact .cons hentry (.cons hhead htail)
        · exact .cons hhead ih

/-! ## Builtins -/

/-- The answers have values that are alike and print values that are alike. -/
def AlikeAnswers (same : Env → Env → Prop) (answer answer' : Value × List Value) : Prop :=
  answer.1.Alike same answer'.1 ∧ AlikeValues same answer.2 answer'.2

/-- The text of values that are alike is the same, in every order of hashes. -/
theorem putsText_alike {values values' : List Value} (halike : AlikeValues same values values')
    (order : HashOrder) : putsText order values = putsText order values' := by
  have htexts : values.map (fun value => value.render order ++ "\n") =
      values'.map (fun value => value.render order ++ "\n") := by
    induction halike with
    | nil => rfl
    | cons hfirst _ ih =>
        rw [List.map_cons, List.map_cons, Value.render_alike order _ _ hfirst, ih]
  rw [putsText, putsText, htexts]

/-- What wants an array answers alike to arguments that are alike. -/
theorem onArray_alike (builtin : Builtin) {f f' : List Value → Value}
    (hf : ∀ elements elements', AlikeValues same elements elements' →
      (f elements).Alike same (f' elements'))
    (halike : value.Alike same value') :
    Except.Alike (AlikeAnswers same) (onArray builtin f value) (onArray builtin f' value') := by
  have hrefused : Except.Alike (AlikeAnswers same)
      (.error (.argKind builtin.name .array value.kind))
      (.error (.argKind builtin.name .array value'.kind)) := by
    rw [halike.kind_eq]
    exact .error _
  cases value with
  | array elements =>
      obtain ⟨elements', rfl, helements⟩ := halike.of_array
      exact .ok ⟨hf elements elements' helements, .nil⟩
  | int | bool | null | str | hash | builtin | function | returned | error | quote | macroFn =>
      cases halike <;> exact hrefused

/-- The number of arguments that a builtin wants, if it wants a fixed number. -/
def Builtin.arity? : Builtin → Option Nat
  | len | first | last | rest => some 1
  | push => some 2
  | puts => none

/-- A builtin refuses a wrong number of arguments. -/
theorem Builtin.apply_of_length_ne {builtin : Builtin} {args : List Value} {want : Nat}
    (harity : builtin.arity? = some want) (hlength : args.length ≠ want) :
    builtin.apply args = .error (.argCount builtin.name args.length want) := by
  cases builtin <;> cases harity
  all_goals
    unfold Builtin.apply
    split <;> first | rfl | exact absurd rfl hlength | contradiction

/-- The length is the same for arguments that are alike. -/
theorem Builtin.len_alike (halike : value.Alike same value') :
    Except.Alike (AlikeAnswers same) (len.apply [value]) (len.apply [value']) := by
  cases value with
  | array elements =>
      obtain ⟨elements', rfl, helements⟩ := halike.of_array
      have hlength : elements.length = elements'.length := helements.length_eq
      refine .ok ⟨?_, .nil⟩
      rw [hlength]
      exact .atom trivial
  | str text =>
      cases halike
      exact .ok ⟨.atom trivial, .nil⟩
  | int | bool | null | hash | builtin | function | returned | error | quote | macroFn =>
      cases halike <;> exact .error _

/-- A builtin answers alike to arguments that are alike. -/
theorem Builtin.apply_alike (builtin : Builtin) {args args' : List Value}
    (halike : AlikeValues same args args') :
    Except.Alike (AlikeAnswers same) (builtin.apply args) (builtin.apply args') := by
  have hlength : args.length = args'.length := halike.length_eq
  have hrefused : ∀ want, builtin.arity? = some want → args.length ≠ want →
      Except.Alike (AlikeAnswers same) (builtin.apply args) (builtin.apply args') := by
    intro want harity hne
    rw [apply_of_length_ne harity hne, apply_of_length_ne harity (hlength ▸ hne), hlength]
    exact .error _
  cases builtin with
  | puts =>
      have hputs : ∀ args, puts.apply args = .ok (.null, args) := fun _ => rfl
      rw [hputs, hputs]
      exact .ok ⟨.atom trivial, halike⟩
  | len =>
      match args, args', halike with
      | [_], [_], .cons harg .nil => exact len_alike harg
      | [], _, _ | _ :: _ :: _, _, _ => exact hrefused 1 rfl (by simp)
  | first =>
      match args, args', halike with
      | [_], [_], .cons harg .nil =>
          refine onArray_alike first (fun elements elements' helements => ?_) harg
          rw [List.head?_eq_getElem?, List.head?_eq_getElem?]
          exact helements.getD 0
      | [], _, _ | _ :: _ :: _, _, _ => exact hrefused 1 rfl (by simp)
  | last =>
      match args, args', halike with
      | [_], [_], .cons harg .nil =>
          refine onArray_alike last (fun elements elements' helements => ?_) harg
          have hcount : elements.length = elements'.length := helements.length_eq
          rw [List.getLast?_eq_getElem?, List.getLast?_eq_getElem?, ← hcount]
          exact helements.getD (elements.length - 1)
      | [], _, _ | _ :: _ :: _, _, _ => exact hrefused 1 rfl (by simp)
  | rest =>
      match args, args', halike with
      | [_], [_], .cons harg .nil =>
          refine onArray_alike rest (fun elements elements' helements => ?_) harg
          cases helements with
          | nil => exact .atom trivial
          | cons _ htail => exact Value.alike_array.mpr htail
      | [], _, _ | _ :: _ :: _, _, _ => exact hrefused 1 rfl (by simp)
  | push =>
      match args, args', halike with
      | [_, _], [_, _], .cons harg (.cons hvalue .nil) =>
          refine onArray_alike push (fun elements elements' helements => ?_) harg
          exact Value.alike_array.mpr (List.rel_append helements (.cons hvalue .nil))
      | [], _, _ | [_], _, _ | _ :: _ :: _ :: _, _, _ => exact hrefused 2 rfl (by simp)

end MonkeyLang
