import Mathlib.Data.Finset.Card
import MonkeyLang.Proofs.Scope.Store

/-!
# Environments and the history of their bindings

Programs that use environments create scopes, copy handles and bind names, in any order and through
any handle. `History` only writes down what they did: which scope lies in which, which scope a handle
is of, and every binding that was ever made. What the store answers is read off that record: a name
has the value that it was last bound to in the innermost scope where it was ever bound. Read
`run_refines_history` first. The store keeps up with the record step by step (`Reflects.perform`).
-/

namespace MonkeyLang

/-! ## Operations -/

/-- An operation on environments. A handle is referred to by its number, in the order in which
handles were given out; an operation on a handle that was never given out does nothing. -/
inductive Operation where
  | new
  | enclosed (outer : Nat)
  | clone (handle : Nat)
  | build (outer : Option Nat) (params : List String) (args : List Value)
  | set (handle : Nat) (name : String) (value : Value)

/-- What the handle of a number is, or no handle where no number is given. -/
def resolve? {α : Type} (handles : List α) : Option Nat → Option (Option α)
  | none => some none
  | some handle => handles[handle]?.map some

/-- The scopes created so far, and the handles given out, in order. -/
structure Environments where
  store : Store
  handles : List Env

namespace Environments

/-- Enter a scope and give out a handle on it. -/
def create (environments : Environments) (outer : Option Nat) (scope : Scope) : Environments :=
  match resolve? environments.handles outer with
  | some around =>
      let (env, store) := environments.store.enter around scope
      ⟨store, environments.handles ++ [env]⟩
  | none => environments

/-- Give out one more handle on the scope of a handle. -/
def clone (environments : Environments) (handle : Nat) : Environments :=
  match environments.handles[handle]? with
  | some env => { environments with handles := environments.handles ++ [env] }
  | none => environments

/-- Bind a name in the scope of a handle. -/
def set (environments : Environments) (handle : Nat) (name : String) (value : Value) :
    Environments :=
  match environments.handles[handle]? with
  | some env => { environments with store := environments.store.bind env name value }
  | none => environments

/-- Carry out an operation: what the environments are then, and the fault if it fails. -/
def perform (environments : Environments) : Operation → Environments × Option Fault
  | .new => (environments.create none .empty, none)
  | .enclosed outer => (environments.create (some outer) .empty, none)
  | .clone handle => (environments.clone handle, none)
  | .build outer params args =>
      match Scope.ofArgs params args with
      | .ok scope => (environments.create outer scope, none)
      | .error fault => (environments, some fault)
  | .set handle name value => (environments.set handle name value, none)

/-- The environments after operations, from none on. -/
def run (operations : List Operation) : Environments :=
  operations.foldl (fun environments operation => (environments.perform operation).1) ⟨.empty, []⟩

end Environments

/-! ## Histories -/

/-- A binding that was made: in which scope, of which name and to which value. -/
structure Binding where
  scope : ScopeId
  name : String
  value : Value

/-- What was done to environments: the scope around each scope, the scope of each handle, and the
bindings in the order in which they were made. -/
structure History where
  outers : List (Option ScopeId)
  handles : List ScopeId
  made : List Binding

/-- What was bound in a scope, in the order of the bindings. -/
def bindingsIn (scope : ScopeId) (made : List Binding) : List (String × Value) :=
  (made.filter (·.scope = scope)).map fun binding => (binding.name, binding.value)

/-- The values that a name is bound to, in the order of the bindings. -/
def valuesOf (name : String) (pairs : List (String × Value)) : List Value :=
  (pairs.filter (·.1 = name)).map Prod.snd

namespace History

/-- Write down that a scope was created, with bindings in it, and a handle given out. -/
def create (history : History) (outer : Option Nat) (pairs : List (String × Value)) : History :=
  match resolve? history.handles outer with
  | some around =>
      { outers := history.outers ++ [around]
        handles := history.handles ++ [history.outers.length]
        made := history.made ++ pairs.map fun pair => ⟨history.outers.length, pair.1, pair.2⟩ }
  | none => history

/-- Write down that one more handle was given out on the scope of a handle. -/
def clone (history : History) (handle : Nat) : History :=
  match history.handles[handle]? with
  | some scope => { history with handles := history.handles ++ [scope] }
  | none => history

/-- Write down that a name was bound in the scope of a handle. -/
def set (history : History) (handle : Nat) (name : String) (value : Value) : History :=
  match history.handles[handle]? with
  | some scope => { history with made := history.made ++ [⟨scope, name, value⟩] }
  | none => history

/-- Write down an operation. A scope is built only of as many arguments as parameters. -/
def record (history : History) : Operation → History
  | .new => history.create none []
  | .enclosed outer => history.create (some outer) []
  | .clone handle => history.clone handle
  | .build outer params args =>
      if params.length = args.length then history.create outer (params.zip args) else history
  | .set handle name value => history.set handle name value

/-- The history of operations, from nothing on. -/
def ofOperations (operations : List Operation) : History :=
  operations.foldl record ⟨[], [], []⟩

/-- The names that were ever bound in a scope, in the order of the bindings. -/
def names (history : History) (scope : ScopeId) : List String :=
  (bindingsIn scope history.made).map Prod.fst

/-- The values that a name was ever bound to in a scope, oldest first. -/
def values (history : History) (scope : ScopeId) (name : String) : List Value :=
  valuesOf name (bindingsIn scope history.made)

/-- The scopes from one outward: the scope, the scope around it, and so on to one that lies in no
other. -/
inductive Outward (history : History) : ScopeId → List ScopeId → Prop where
  | last {id : ScopeId} : history.outers[id]? = some none → Outward history id [id]
  | inside {id outer : ScopeId} {chain : List ScopeId} :
      history.outers[id]? = some (some outer) → Outward history outer chain →
      Outward history id (id :: chain)

/-- Whatever was written down is about scopes that were created before. -/
structure WellFormed (history : History) : Prop where
  handle_lt : ∀ scope ∈ history.handles, scope < history.outers.length
  outer_lt : ∀ {id outer : ScopeId}, history.outers[id]? = some (some outer) → outer < id
  made_lt : ∀ binding ∈ history.made, binding.scope < history.outers.length

end History

/-! ## Scopes and the bindings made in them -/

/-- A name without values is not among the names. -/
theorem valuesOf_eq_nil_iff {name : String} {pairs : List (String × Value)} :
    valuesOf name pairs = [] ↔ name ∉ pairs.map Prod.fst := by
  rw [valuesOf, List.map_eq_nil_iff, List.filter_eq_nil_iff, List.mem_map]
  constructor
  · rintro hnone ⟨pair, hmem, hname⟩
    exact hnone pair hmem (by simpa using hname)
  · intro hnone pair hmem hname
    exact hnone ⟨pair, hmem, by simpa using hname⟩

/-- The values of a name in earlier and later bindings. -/
theorem valuesOf_append (name : String) (pairs more : List (String × Value)) :
    valuesOf name (pairs ++ more) = valuesOf name pairs ++ valuesOf name more := by
  rw [valuesOf, List.filter_append, List.map_append]
  rfl

/-- What was bound in a scope earlier and later. -/
theorem bindingsIn_append (scope : ScopeId) (made more : List Binding) :
    bindingsIn scope (made ++ more) = bindingsIn scope made ++ bindingsIn scope more := by
  rw [bindingsIn, List.filter_append, List.map_append]
  rfl

/-- What was bound in one scope was bound in that scope alone. -/
theorem bindingsIn_map_mk (id scope : ScopeId) (pairs : List (String × Value)) :
    bindingsIn id (pairs.map fun pair => ⟨scope, pair.1, pair.2⟩) =
      if id = scope then pairs else [] := by
  rw [bindingsIn, List.filter_map, List.map_map]
  split
  · next hid =>
      rw [List.filter_eq_self.mpr (by simp [hid])]
      exact List.map_id pairs
  · next hid =>
      rw [List.filter_eq_nil_iff.mpr (by simp [Ne.symm hid])]
      rfl

/-- Nothing was bound in a scope that is not among those of the bindings. -/
theorem bindingsIn_eq_nil {scope : ScopeId} {made : List Binding}
    (hnone : ∀ binding ∈ made, binding.scope ≠ scope) : bindingsIn scope made = [] := by
  rw [bindingsIn, List.filter_eq_nil_iff.mpr (by simpa using hnone)]
  rfl

namespace Scope

variable {scope : Scope} {pairs : List (String × Value)}

/-- A scope holds the last value of each name that was bound, and each name once. -/
structure Keeps (scope : Scope) (pairs : List (String × Value)) : Prop where
  get?_eq : ∀ name, scope.get? name = (valuesOf name pairs).getLast?
  nodup : (scope.bindings.map Prod.fst).Nodup

/-- Where nothing was bound there is the empty scope. -/
theorem keeps_empty : empty.Keeps [] :=
  ⟨fun _ => rfl, List.nodup_nil⟩

/-- Where a scope lies does not matter to what it keeps. -/
theorem Keeps.withOuter (hkeeps : scope.Keeps pairs) (outer : Option ScopeId) :
    Keeps { scope with outer := outer } pairs :=
  ⟨hkeeps.get?_eq, hkeeps.nodup⟩

/-- A scope keeps a binding that is made in it. -/
theorem Keeps.bind (hkeeps : scope.Keeps pairs) (name : String) (value : Value) :
    (scope.bind name value).Keeps (pairs ++ [(name, value)]) := by
  refine ⟨fun other => ?_, ?_⟩
  · rw [valuesOf_append, List.getLast?_append, ← hkeeps.get?_eq other]
    by_cases hname : other = name
    · subst hname
      rw [get?_bind_self, valuesOf, List.filter_cons_of_pos (by simp)]
      rfl
    · rw [get?_bind_of_ne hname, valuesOf, List.filter_cons_of_neg (by simpa using Ne.symm hname)]
      rfl
  · show (name :: (scope.bindings.filter (·.1 ≠ name)).map Prod.fst).Nodup
    refine List.nodup_cons.mpr ⟨fun hmem => ?_, ?_⟩
    · obtain ⟨binding, hbinding, hname⟩ := List.mem_map.mp hmem
      simpa [hname] using (List.mem_filter.mp hbinding).2
    · exact hkeeps.nodup.sublist (List.filter_sublist.map Prod.fst)

/-- A scope keeps bindings that are made in it one by one. -/
theorem Keeps.foldl_bind (hkeeps : scope.Keeps pairs) (more : List (String × Value)) :
    (more.foldl (fun scope pair => scope.bind pair.1 pair.2) scope).Keeps (pairs ++ more) := by
  induction more generalizing scope pairs with
  | nil =>
      rw [List.append_nil]
      exact hkeeps
  | cons pair more ih =>
      have hrest := ih (hkeeps.bind pair.1 pair.2)
      rwa [List.append_assoc, List.singleton_append] at hrest

/-- Parameters with as many arguments make a scope that keeps them. -/
theorem exists_ofArgs {params : List String} {args : List Value}
    (hlength : params.length = args.length) :
    ∃ scope, ofArgs params args = .ok scope ∧ scope.Keeps (params.zip args) :=
  ⟨_, if_pos hlength, keeps_empty.foldl_bind (params.zip args)⟩

/-- Parameters with another number of arguments make no scope. -/
theorem ofArgs_of_length_ne {params : List String} {args : List Value}
    (hlength : params.length ≠ args.length) :
    ofArgs params args = .error (.arity params.length args.length) :=
  if_neg hlength

/-- A scope has as many names as different names were bound in it. -/
theorem Keeps.size_eq (hkeeps : scope.Keeps pairs) :
    scope.size = (pairs.map Prod.fst).toFinset.card := by
  have hnames : (scope.bindings.map Prod.fst).toFinset = (pairs.map Prod.fst).toFinset := by
    ext name
    have hget : scope.get? name = none ↔ name ∉ pairs.map Prod.fst := by
      rw [hkeeps.get?_eq, List.getLast?_eq_none_iff, valuesOf_eq_nil_iff]
    have hbound : scope.get? name = none ↔ name ∉ scope.bindings.map Prod.fst := by
      rw [get?, List.lookup_eq_none_iff, List.mem_map]
      constructor
      · rintro hnone ⟨binding, hmem, rfl⟩
        simpa using hnone binding hmem
      · intro hnone binding hmem
        rw [bne_iff_ne]
        exact fun hname => hnone ⟨binding, hmem, hname.symm⟩
    rw [List.mem_toFinset, List.mem_toFinset]
    exact not_iff_not.mp (hbound.symm.trans hget)
  rw [← hnames, List.toFinset_card_of_nodup hkeeps.nodup, List.length_map, size]

end Scope

/-! ## One step -/

/-- A handle of a number is among the handles. -/
theorem mem_of_resolve? {α : Type} {handles : List α} {outer : Option Nat} {handle : α}
    (hresolve : resolve? handles outer = some (some handle)) : handle ∈ handles := by
  cases outer with
  | none => cases hresolve
  | some number =>
      obtain ⟨found, hfound, hsome⟩ := Option.map_eq_some_iff.mp hresolve
      cases hsome
      exact List.mem_of_getElem? hfound

/-- Numbers stand for the same handles in another form. -/
theorem resolve?_map {α β : Type} (f : α → β) (handles : List α) (outer : Option Nat) :
    resolve? (handles.map f) outer = (resolve? handles outer).map (Option.map f) := by
  cases outer with
  | none => rfl
  | some number =>
      rw [resolve?, resolve?, List.getElem?_map, Option.map_map, Option.map_map]
      rfl

/-- An item at the end of a list is not at another place. -/
theorem getElem?_concat_of_ne {α : Type} {items : List α} {item : α} {place : Nat}
    (hplace : place ≠ items.length) : (items ++ [item])[place]? = items[place]? := by
  rw [List.getElem?_append]
  split
  · rfl
  · rw [List.getElem?_eq_none (by simp; omega), List.getElem?_eq_none (by omega)]

namespace History

variable {history : History}

/-- What is created refers to what was created before. -/
theorem WellFormed.create (hwell : history.WellFormed) (outer : Option Nat)
    (pairs : List (String × Value)) : (history.create outer pairs).WellFormed := by
  unfold History.create
  cases haround : resolve? history.handles outer with
  | none => exact hwell
  | some around =>
      have hlength : (history.outers ++ [around]).length = history.outers.length + 1 :=
        List.length_append
      refine ⟨fun scope hmem => ?_, fun {id inner} houter => ?_, fun binding hmem => ?_⟩
      · rw [hlength]
        rcases List.mem_append.mp hmem with hold | hnew
        · exact Nat.lt_succ_of_lt (hwell.handle_lt scope hold)
        · rw [List.mem_singleton.mp hnew]
          exact Nat.lt_succ_self _
      · by_cases hid : id = history.outers.length
        · subst hid
          rw [List.getElem?_concat_length, Option.some.injEq] at houter
          exact hwell.handle_lt inner (mem_of_resolve? (houter ▸ haround))
        · exact hwell.outer_lt ((getElem?_concat_of_ne hid).symm.trans houter)
      · rw [hlength]
        rcases List.mem_append.mp hmem with hold | hnew
        · exact Nat.lt_succ_of_lt (hwell.made_lt binding hold)
        · obtain ⟨pair, _, rfl⟩ := List.mem_map.mp hnew
          exact Nat.lt_succ_self _

/-- A handle that is copied is of a scope created before. -/
theorem WellFormed.clone (hwell : history.WellFormed) (handle : Nat) :
    (history.clone handle).WellFormed := by
  unfold History.clone
  cases hscope : history.handles[handle]? with
  | none => exact hwell
  | some scope =>
      refine ⟨fun other hmem => ?_, hwell.outer_lt, hwell.made_lt⟩
      rcases List.mem_append.mp hmem with hold | hnew
      · exact hwell.handle_lt other hold
      · rw [List.mem_singleton.mp hnew]
        exact hwell.handle_lt scope (List.mem_of_getElem? hscope)

/-- A name is bound in a scope created before. -/
theorem WellFormed.set (hwell : history.WellFormed) (handle : Nat) (name : String)
    (value : Value) : (history.set handle name value).WellFormed := by
  unfold History.set
  cases hscope : history.handles[handle]? with
  | none => exact hwell
  | some scope =>
      refine ⟨hwell.handle_lt, hwell.outer_lt, fun binding hmem => ?_⟩
      rcases List.mem_append.mp hmem with hold | hnew
      · exact hwell.made_lt binding hold
      · rw [List.mem_singleton.mp hnew]
        exact hwell.handle_lt scope (List.mem_of_getElem? hscope)

/-- Every operation refers to what was created before. -/
theorem WellFormed.record (hwell : history.WellFormed) (operation : Operation) :
    (history.record operation).WellFormed := by
  cases operation with
  | new => exact hwell.create none []
  | enclosed outer => exact hwell.create (some outer) []
  | clone handle => exact hwell.clone handle
  | build outer params args =>
      rw [History.record]
      split
      · exact hwell.create outer (params.zip args)
      · exact hwell
  | set handle name value => exact hwell.set handle name value

/-- Nothing was bound in a scope that is yet to be created. -/
theorem WellFormed.bindingsIn_eq_nil (hwell : history.WellFormed) :
    bindingsIn history.outers.length history.made = [] :=
  MonkeyLang.bindingsIn_eq_nil fun binding hmem => Nat.ne_of_lt (hwell.made_lt binding hmem)

end History

namespace Environments

/-- The environments are what the history says: the handles are of the same scopes, every scope lies
in the same one and keeps what was bound in it. -/
structure Reflects (environments : Environments) (history : History) : Prop where
  handles_eq : environments.handles = history.handles.map Env.mk
  size_eq : environments.store.scopes.size = history.outers.length
  outer_eq : ∀ id, (environments.store.scope id).outer = history.outers[id]?.join
  keeps : ∀ id, (environments.store.scope id).Keeps (bindingsIn id history.made)

variable {environments : Environments} {history : History}

/-- Without operations there are no environments and there is no history. -/
theorem reflects_nil : Reflects ⟨.empty, []⟩ ⟨[], [], []⟩ where
  handles_eq := rfl
  size_eq := rfl
  outer_eq _ := rfl
  keeps _ := Scope.keeps_empty

/-- The handle of a number is the handle of the scope that was written down. -/
theorem Reflects.getElem?_handles (hreflects : environments.Reflects history) (handle : Nat) :
    environments.handles[handle]? = history.handles[handle]?.map Env.mk := by
  rw [hreflects.handles_eq, List.getElem?_map]

/-- A scope that is created is written down with its bindings. -/
theorem Reflects.create (hreflects : environments.Reflects history) (hwell : history.WellFormed)
    (outer : Option Nat) {scope : Scope} {pairs : List (String × Value)}
    (hscope : scope.Keeps pairs) :
    (environments.create outer scope).Reflects (history.create outer pairs) := by
  unfold Environments.create History.create
  rw [hreflects.handles_eq, resolve?_map]
  cases haround : resolve? history.handles outer with
  | none => exact hreflects
  | some around =>
      refine ⟨?_, ?_, fun id => ?_, fun id => ?_⟩
      · show history.handles.map Env.mk ++ [⟨environments.store.scopes.size⟩] = _
        rw [hreflects.size_eq, List.map_append]
        rfl
      · show (environments.store.enter (around.map Env.mk) scope).2.scopes.size = _
        rw [Store.size_enter, hreflects.size_eq, List.length_append]
        rfl
      · show ((environments.store.enter (around.map Env.mk) scope).2.scope id).outer = _
        by_cases hid : id = environments.store.scopes.size
        · subst hid
          rw [Store.scope_enter_self, hreflects.size_eq, List.getElem?_concat_length]
          cases around <;> rfl
        · rw [Store.scope_enter_of_ne _ _ hid, hreflects.outer_eq,
            getElem?_concat_of_ne (hreflects.size_eq ▸ hid)]
      · show ((environments.store.enter (around.map Env.mk) scope).2.scope id).Keeps
          (bindingsIn id (history.made ++ _))
        rw [bindingsIn_append, bindingsIn_map_mk]
        by_cases hid : id = environments.store.scopes.size
        · subst hid
          rw [Store.scope_enter_self, hreflects.size_eq, if_pos rfl, hwell.bindingsIn_eq_nil]
          exact hscope.withOuter _
        · rw [Store.scope_enter_of_ne _ _ hid, if_neg (hreflects.size_eq ▸ hid), List.append_nil]
          exact hreflects.keeps id

/-- A copy of a handle is of the same scope. -/
theorem Reflects.clone (hreflects : environments.Reflects history) (handle : Nat) :
    (environments.clone handle).Reflects (history.clone handle) := by
  unfold Environments.clone History.clone
  rw [hreflects.getElem?_handles]
  cases history.handles[handle]? with
  | none => exact hreflects
  | some scope =>
      refine ⟨?_, hreflects.size_eq, hreflects.outer_eq, hreflects.keeps⟩
      rw [hreflects.handles_eq, List.map_append]
      rfl

/-- A binding is made in the scope of the handle and in no other. -/
theorem Reflects.set (hreflects : environments.Reflects history) (hwell : history.WellFormed)
    (handle : Nat) (name : String) (value : Value) :
    (environments.set handle name value).Reflects (history.set handle name value) := by
  unfold Environments.set History.set
  rw [hreflects.getElem?_handles]
  cases hscope : history.handles[handle]? with
  | none => exact hreflects
  | some scope =>
      have hlt : scope < environments.store.scopes.size :=
        hreflects.size_eq ▸ hwell.handle_lt scope (List.mem_of_getElem? hscope)
      refine ⟨hreflects.handles_eq, ?_, fun id => ?_, fun id => ?_⟩
      · exact (Store.size_bind ..).trans hreflects.size_eq
      · exact (Store.outer_bind ..).trans (hreflects.outer_eq id)
      · have hmade : bindingsIn id [⟨scope, name, value⟩] =
            if id = scope then [(name, value)] else [] :=
          bindingsIn_map_mk id scope [(name, value)]
        show ((environments.store.bind ⟨scope⟩ name value).scope id).Keeps
          (bindingsIn id (history.made ++ [⟨scope, name, value⟩]))
        rw [bindingsIn_append, hmade]
        by_cases hid : id = scope
        · subst hid
          rw [if_pos rfl, @Store.scope_bind_self _ ⟨id⟩ name value hlt]
          exact (hreflects.keeps id).bind name value
        · rw [if_neg hid, List.append_nil, @Store.scope_bind_of_ne _ _ ⟨scope⟩ name value hid]
          exact hreflects.keeps id

/-- What an operation does is what is written down about it. -/
theorem Reflects.perform (hreflects : environments.Reflects history) (hwell : history.WellFormed)
    (operation : Operation) :
    (environments.perform operation).1.Reflects (history.record operation) := by
  cases operation with
  | new => exact hreflects.create hwell none Scope.keeps_empty
  | enclosed outer => exact hreflects.create hwell (some outer) Scope.keeps_empty
  | clone handle => exact hreflects.clone handle
  | build outer params args =>
      rw [Environments.perform, History.record]
      by_cases hlength : params.length = args.length
      · obtain ⟨scope, hscope, hkeeps⟩ := Scope.exists_ofArgs hlength
        rw [hscope, if_pos hlength]
        exact hreflects.create hwell outer hkeeps
      · rw [Scope.ofArgs_of_length_ne hlength, if_neg hlength]
        exact hreflects
  | set handle name value => exact hreflects.set hwell handle name value

/-- Environments reflect their history however many operations were carried out. -/
theorem reflects_run (operations : List Operation) :
    (run operations).Reflects (.ofOperations operations) ∧
      (History.ofOperations operations).WellFormed := by
  have hfold : ∀ {environments : Environments} {history : History},
      environments.Reflects history → history.WellFormed →
      (operations.foldl (fun environments operation => (environments.perform operation).1)
        environments).Reflects (operations.foldl History.record history) ∧
        (operations.foldl History.record history).WellFormed := by
    induction operations with
    | nil => exact fun hreflects hwell => ⟨hreflects, hwell⟩
    | cons operation operations ih =>
        intro environments history hreflects hwell
        exact ih (hreflects.perform hwell operation) (hwell.record operation)
  exact hfold reflects_nil ⟨nofun, nofun, nofun⟩

end Environments

/-! ## What the store answers -/

/-- From every scope there is a way outward that ends. -/
theorem History.WellFormed.exists_outward {history : History} (hwell : history.WellFormed)
    {id : ScopeId} (hid : id < history.outers.length) : ∃ chain, history.Outward id chain := by
  induction id using Nat.strongRecOn with
  | ind id ih =>
      cases houter : history.outers[id]? with
      | none => exact absurd (List.getElem?_eq_none_iff.mp houter) (Nat.not_le_of_lt hid)
      | some around =>
          cases around with
          | none => exact ⟨[id], .last houter⟩
          | some outer =>
              have hlt := hwell.outer_lt houter
              obtain ⟨chain, hchain⟩ := ih outer hlt (Nat.lt_trans hlt hid)
              exact ⟨id :: chain, .inside houter hchain⟩

/-- There is one way outward from a scope. -/
theorem History.Outward.unique {history : History} {id : ScopeId} {chain chain' : List ScopeId}
    (hchain : history.Outward id chain) (hchain' : history.Outward id chain') :
    chain = chain' := by
  induction hchain generalizing chain' with
  | last houter =>
      cases hchain' with
      | last => rfl
      | inside houter' => cases houter.symm.trans houter'
  | inside houter _ ih =>
      cases hchain' with
      | last houter' => cases houter.symm.trans houter'
      | inside houter' hrest =>
          cases houter.symm.trans houter'
          rw [ih hrest]

namespace Environments.Reflects

variable {environments : Environments} {history : History} {scope : ScopeId}
  {chain : List ScopeId}

/-- A name is found in the innermost scope where it was ever bound, with its last value there. -/
theorem find?_eq (hreflects : environments.Reflects history) (hwell : history.WellFormed)
    (hchain : history.Outward scope chain) (name : String) :
    environments.store.find? name scope =
      chain.findSome? fun id => (history.values id name).getLast? := by
  have hget : ∀ id, (environments.store.scope id).get? name = (history.values id name).getLast? :=
    fun id => (hreflects.keeps id).get?_eq name
  induction hchain with
  | @last id houter =>
      rw [Store.find?, hget, hreflects.outer_eq, houter, List.findSome?_singleton]
      cases (history.values id name).getLast? <;> rfl
  | @inside id outer chain houter hchain ih =>
      rw [Store.find?, hget, hreflects.outer_eq, houter, List.findSome?_cons, ← ih]
      -- The way leads to older scopes, so that the search goes all of it.
      simp only [Option.join_some, if_pos (hwell.outer_lt houter)]
      cases (history.values id name).getLast? <;> rfl

/-- The value of a name is the last one in the innermost scope where it was ever bound. -/
theorem lookup_eq_ok_iff (hreflects : environments.Reflects history) (hwell : history.WellFormed)
    (hchain : history.Outward scope chain) (name : String) (value : Value) :
    environments.store.lookup ⟨scope⟩ name = .ok value ↔
      ∃ inner holder outer, chain = inner ++ holder :: outer ∧
        (∀ id ∈ inner, history.values id name = []) ∧
        (history.values holder name).getLast? = some value := by
  have hfind := hreflects.find?_eq hwell hchain name
  have hok : environments.store.lookup ⟨scope⟩ name = .ok value ↔
      environments.store.find? name scope = some value := by
    rw [Store.lookup, Store.lookup?]
    cases environments.store.find? name scope <;> simp
  rw [hok, hfind, List.findSome?_eq_some_iff]
  simp only [List.getLast?_eq_none_iff, and_comm]

/-- A name is not found precisely if it was never bound on the way outward. -/
theorem lookup_eq_error_iff (hreflects : environments.Reflects history)
    (hwell : history.WellFormed) (hchain : history.Outward scope chain) (name : String)
    (fault : Fault) :
    environments.store.lookup ⟨scope⟩ name = .error fault ↔
      fault = .unbound name ∧ ∀ id ∈ chain, history.values id name = [] := by
  have hfind := hreflects.find?_eq hwell hchain name
  have herror : environments.store.lookup ⟨scope⟩ name = .error fault ↔
      fault = .unbound name ∧ environments.store.find? name scope = none := by
    rw [Store.lookup, Store.lookup?]
    cases environments.store.find? name scope <;> simp [eq_comm]
  rw [herror, hfind, List.findSome?_eq_none_iff]
  simp only [List.getLast?_eq_none_iff]

/-- A handle shows how many different names were ever bound in its scope. -/
theorem summary_eq (hreflects : environments.Reflects history) (scope : ScopeId) :
    environments.store.summary ⟨scope⟩ =
      "Env(" ++ (history.names scope).toFinset.card.repr ++ " bindings)" := by
  rw [Store.summary, (hreflects.keeps scope).size_eq]
  rfl

end Environments.Reflects

/-- A scope is built unless there is another number of arguments than parameters, and then nothing
changes. -/
theorem Environments.perform_build (environments : Environments) (outer : Option Nat)
    (params : List String) (args : List Value) :
    (∀ fault, (environments.perform (.build outer params args)).2 = some fault ↔
      params.length ≠ args.length ∧ fault = .arity params.length args.length) ∧
    (params.length ≠ args.length →
      (environments.perform (.build outer params args)).1 = environments) := by
  rw [perform]
  by_cases hlength : params.length = args.length
  · obtain ⟨scope, hscope, _⟩ := Scope.exists_ofArgs hlength
    rw [hscope]
    simp [hlength]
  · rw [Scope.ofArgs_of_length_ne hlength]
    simp [hlength, eq_comm]

/-- Whatever is done to environments, a name has the value that it was last bound to in the innermost
scope, on the way outward from a handle, where it was ever bound, and is not found precisely if there
is none. The way outward ends. A handle shows how many different names were ever bound in its scope.
Building a scope fails precisely if there is another number of arguments than parameters, and then
nothing changes. -/
theorem run_refines_history (operations : List Operation) :
    let environments := Environments.run operations
    let history := History.ofOperations operations
    environments.handles.length = history.handles.length ∧
    (∀ (handle : Nat) (env : Env) (scope : ScopeId),
      environments.handles[handle]? = some env → history.handles[handle]? = some scope →
      (∃! chain, history.Outward scope chain) ∧
      (∀ chain, history.Outward scope chain → ∀ name,
        (∀ value, environments.store.lookup env name = .ok value ↔
          ∃ inner holder outer, chain = inner ++ holder :: outer ∧
            (∀ id ∈ inner, history.values id name = []) ∧
            (history.values holder name).getLast? = some value) ∧
        ∀ fault, environments.store.lookup env name = .error fault ↔
          fault = .unbound name ∧ ∀ id ∈ chain, history.values id name = []) ∧
      environments.store.summary env =
        "Env(" ++ (history.names scope).toFinset.card.repr ++ " bindings)") ∧
    (∀ name, (Fault.unbound name).message = "identifier not found: " ++ name) ∧
    ∀ outer params args,
      (∀ fault, (environments.perform (.build outer params args)).2 = some fault ↔
        params.length ≠ args.length ∧ fault = .arity params.length args.length) ∧
      (params.length ≠ args.length →
        (environments.perform (.build outer params args)).1 = environments) := by
  intro environments history
  obtain ⟨hreflects, hwell⟩ := Environments.reflects_run operations
  refine ⟨?_, fun handle env scope henv hscope => ?_, fun _ => rfl, environments.perform_build⟩
  · rw [hreflects.handles_eq, List.length_map]
  · rw [hreflects.getElem?_handles, hscope] at henv
    cases henv
    obtain ⟨chain, hchain⟩ :=
      hwell.exists_outward (hwell.handle_lt scope (List.mem_of_getElem? hscope))
    refine ⟨⟨chain, hchain, fun _ hother => hother.unique hchain⟩, fun chain hchain name => ?_,
      hreflects.summary_eq scope⟩
    exact ⟨hreflects.lookup_eq_ok_iff hwell hchain name,
      hreflects.lookup_eq_error_iff hwell hchain name⟩

/-- A name is bound through a copy of the handle of the outer scope, and bound again through the handle
itself when there are inner scopes. A parameter that is given twice has the second argument, and the
last operation fails. -/
theorem run_refines_history_copied :
    let operations : List Operation :=
      [.new, .clone 0, .enclosed 0, .set 1 "x" (.int 1),
        .build (some 2) ["a", "b", "a"] [.int 5, .int 6, .int 7], .set 0 "x" (.int 4),
        .build none ["a"] []]
    let environments := Environments.run operations
    environments.handles[3]? = some ⟨2⟩ ∧
      environments.store.lookup ⟨2⟩ "x" = .ok (.int 4) ∧
      environments.store.lookup ⟨2⟩ "a" = .ok (.int 7) ∧
      environments.store.lookup ⟨2⟩ "y" = .error (.unbound "y") ∧
      environments.store.summary ⟨2⟩ = "Env(2 bindings)" := by
  intro operations environments
  obtain ⟨_, hhandles, _⟩ := run_refines_history operations
  obtain ⟨_, hlookup, hsummary⟩ := hhandles 3 ⟨2⟩ 2 rfl rfl
  have hchain : (History.ofOperations operations).Outward 2 [2, 1, 0] :=
    .inside rfl (.inside rfl (.last rfl))
  refine ⟨rfl, ?_, ?_, ?_, hsummary.trans (by decide)⟩
  · exact ((hlookup _ hchain "x").1 _).mpr ⟨[2, 1], 0, [], rfl, by decide, rfl⟩
  · exact ((hlookup _ hchain "a").1 _).mpr ⟨[], 2, [1, 0], rfl, nofun, rfl⟩
  · exact ((hlookup _ hchain "y").2 _).mpr ⟨rfl, by decide⟩

end MonkeyLang
