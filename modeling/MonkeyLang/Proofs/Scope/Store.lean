import MonkeyLang.Scope.Store

/-!
# What the store operations change

Entering a scope leaves the older scopes alone (`Store.scope_enter_of_lt`). Binding a name changes
the bindings of the handle's own scope (`Store.scope_bind_self`) and leaves the other scopes alone
(`Store.scope_bind_of_ne`). What holds of all values that are put into a store holds of all values
that are found there: read `Store.BindsOnly`.
-/

namespace MonkeyLang

namespace Scope

/-- A bound name stays bound when a name is bound. -/
theorem isSome_get?_bind {scope : Scope} {other : String} (name : String) (value : Value)
    (hbound : (scope.get? other).isSome) : ((scope.bind name value).get? other).isSome := by
  by_cases hname : other = name
  · rw [hname, get?_bind_self]
    rfl
  · rw [get?_bind_of_ne hname]
    exact hbound

/-- The value of a name stands among the bindings. -/
theorem mem_bindings_of_get? {scope : Scope} {name : String} {value : Value}
    (hget : scope.get? name = some value) : (name, value) ∈ scope.bindings := by
  obtain ⟨before, after, hbindings, _⟩ := List.lookup_eq_some_iff.mp hget
  rw [hbindings]
  simp

/-- A binding was just made or stood there before. -/
theorem mem_bindings_bind {scope : Scope} {name : String} {value : Value}
    {binding : String × Value} (hmem : binding ∈ (scope.bind name value).bindings) :
    binding = (name, value) ∨ binding ∈ scope.bindings := by
  rcases List.mem_cons.mp hmem with hnew | hold
  · exact Or.inl hnew
  · exact Or.inr (List.mem_filter.mp hold).1

/-- What parameters are bound to is among the arguments. -/
theorem mem_of_mem_bindings_ofArgs {params : List String} {args : List Value} {scope : Scope}
    {binding : String × Value} (hscope : ofArgs params args = .ok scope)
    (hmem : binding ∈ scope.bindings) : binding.2 ∈ args := by
  -- The fold starts from a scope whose bindings are all accounted for, and keeps that.
  have hfold : ∀ (pairs : List (String × Value)) (start : Scope),
      (∀ pair ∈ pairs, pair.2 ∈ args) → (∀ bound ∈ start.bindings, bound.2 ∈ args) →
      ∀ bound ∈ (pairs.foldl (fun scope pair => scope.bind pair.1 pair.2) start).bindings,
        bound.2 ∈ args := by
    intro pairs
    induction pairs with
    | nil =>
        intro start _ hstart
        exact hstart
    | cons pair pairs ih =>
        intro start hpairs hstart
        refine ih (start.bind pair.1 pair.2) (fun other hother => ?_) fun bound hbound => ?_
        · exact hpairs other (List.mem_cons_of_mem pair hother)
        · rcases mem_bindings_bind hbound with rfl | hold
          · exact hpairs pair (List.mem_cons_self ..)
          · exact hstart bound hold
  unfold ofArgs at hscope
  split at hscope
  · cases hscope
    refine hfold (params.zip args) empty (fun pair hpair => ?_) (fun _ hnone => nomatch hnone)
      binding hmem
    exact (List.of_mem_zip hpair).2
  · cases hscope

/-- A distinct parameter is bound to its argument. -/
theorem get?_ofArgs {params : List String} {args : List Value} {scope : Scope}
    (hnodup : params.Nodup) (hscope : ofArgs params args = .ok scope) (name : String) :
    scope.get? name = (params.zip args).lookup name := by
  -- What is bound later stays, because no name is bound twice.
  have hfold : ∀ (pairs : List (String × Value)) (start : Scope), (pairs.map Prod.fst).Nodup →
      (pairs.foldl (fun scope pair => scope.bind pair.1 pair.2) start).get? name =
        (pairs.lookup name).or (start.get? name) := by
    intro pairs
    induction pairs with
    | nil =>
        intro start _
        rfl
    | cons pair pairs ih =>
        intro start hpairs
        obtain ⟨bound, value⟩ := pair
        obtain ⟨hnot, hpairs⟩ := List.nodup_cons.mp hpairs
        rw [List.foldl_cons, ih _ hpairs, List.lookup_cons]
        by_cases hname : name = bound
        · subst hname
          have hnone : pairs.lookup name = none := by
            rw [List.lookup_eq_none_iff]
            intro other hmem
            rw [bne_iff_ne]
            intro heq
            exact hnot (List.mem_map.mpr ⟨other, hmem, heq.symm⟩)
          rw [hnone, beq_self_eq_true, get?_bind_self]
          rfl
        · rw [beq_false_of_ne hname, get?_bind_of_ne hname]
  unfold ofArgs at hscope
  split at hscope
  · next hlength =>
      cases hscope
      rw [hfold (params.zip args) empty (by rwa [List.map_fst_zip (Nat.le_of_eq hlength)]),
        get?_empty, Option.or_none]
  · cases hscope

end Scope

namespace Store

variable {store : Store} {id : ScopeId}

/-- A number not in use stands for the empty scope. -/
theorem scope_of_size_le (hid : store.scopes.size ≤ id) : store.scope id = .empty := by
  simp [Store.scope, hid]

/-- Entering a scope adds one scope. -/
theorem size_enter (store : Store) (outer : Option Env) (scope : Scope) :
    (store.enter outer scope).2.scopes.size = store.scopes.size + 1 := by
  simp [enter]

/-- Entering a scope leaves the other scopes alone. -/
theorem scope_enter_of_ne (outer : Option Env) (scope : Scope) (hid : id ≠ store.scopes.size) :
    (store.enter outer scope).2.scope id = store.scope id := by
  simp [Store.scope, enter, Array.getElem?_push, hid]

/-- Entering a scope leaves the older scopes alone. -/
theorem scope_enter_of_lt (outer : Option Env) (scope : Scope) (hid : id < store.scopes.size) :
    (store.enter outer scope).2.scope id = store.scope id :=
  scope_enter_of_ne outer scope (Nat.ne_of_lt hid)

/-- A new scope lies where it was entered. -/
theorem scope_enter_self (store : Store) (outer : Option Env) (scope : Scope) :
    (store.enter outer scope).2.scope store.scopes.size =
      { scope with outer := outer.map Env.scope } := by
  simp [Store.scope, enter]

/-- The bindings after entering a scope are its own or were there before. -/
theorem bindings_enter (store : Store) (outer : Option Env) (scope : Scope) (id : ScopeId) :
    ((store.enter outer scope).2.scope id).bindings = scope.bindings ∨
      (store.enter outer scope).2.scope id = store.scope id := by
  by_cases hid : id = store.scopes.size
  · left
    rw [hid, scope_enter_self]
  · right
    exact scope_enter_of_ne outer scope hid

/-- A name is looked up alike where the scope and the older ones are the same. -/
theorem find?_of_scope_eq {store' : Store} (name : String)
    (hscope : ∀ older ≤ id, store'.scope older = store.scope older) :
    store'.find? name id = store.find? name id := by
  induction id using Nat.strongRecOn with
  | ind id ih =>
      rw [find?, find?, hscope id (Nat.le_refl id)]
      cases (store.scope id).get? name with
      | some value => rfl
      | none =>
          cases (store.scope id).outer with
          | none => rfl
          | some around =>
              dsimp only
              split
              · next hlt =>
                  exact ih around hlt fun older hle =>
                    hscope older (Nat.le_trans hle (Nat.le_of_lt hlt))
              · rfl

/-- Where a name is looked up from an older scope, a new scope does not matter. -/
theorem find?_enter_of_lt (name : String) (outer : Option Env) (scope : Scope)
    (hid : id < store.scopes.size) :
    (store.enter outer scope).2.find? name id = store.find? name id :=
  find?_of_scope_eq name fun _ hle => scope_enter_of_lt outer scope (Nat.lt_of_le_of_lt hle hid)

/-- A handle from which a name is found is of a scope in use. -/
theorem lt_size_of_lookup? {env : Env} {name : String} {value : Value}
    (hlookup : store.lookup? env name = some value) : env.scope < store.scopes.size := by
  refine Nat.lt_of_not_le fun hle => ?_
  rw [lookup?, find?, scope_of_size_le hle] at hlookup
  cases hlookup

/-- Binding a name adds no scope. -/
theorem size_bind (store : Store) (env : Env) (name : String) (value : Value) :
    (store.bind env name value).scopes.size = store.scopes.size := by
  simp [bind]

/-- Binding a name binds it in the handle's own scope. -/
theorem scope_bind_self {env : Env} (name : String) (value : Value)
    (hid : env.scope < store.scopes.size) :
    (store.bind env name value).scope env.scope = (store.scope env.scope).bind name value := by
  simp [Store.scope, bind, Array.getElem_modify_self, hid]

/-- Binding a name leaves the other scopes alone. -/
theorem scope_bind_of_ne {env : Env} (name : String) (value : Value) (hid : id ≠ env.scope) :
    (store.bind env name value).scope id = store.scope id := by
  simp [Store.scope, bind, Array.getElem?_modify, Ne.symm hid]

/-- A handle on no scope binds nothing. -/
theorem scope_bind_of_size_le {env : Env} (name : String) (value : Value)
    (hid : store.scopes.size ≤ env.scope) :
    (store.bind env name value).scope env.scope = store.scope env.scope := by
  simp [Store.scope, bind, hid]

/-- Binding a name leaves every scope where it lies. -/
theorem outer_bind (store : Store) (env : Env) (name : String) (value : Value) (id : ScopeId) :
    ((store.bind env name value).scope id).outer = (store.scope id).outer := by
  by_cases hown : id = env.scope
  · subst hown
    by_cases hid : env.scope < store.scopes.size
    · rw [scope_bind_self name value hid]
      rfl
    · rw [scope_bind_of_size_le name value (Nat.le_of_not_lt hid)]
  · rw [scope_bind_of_ne name value hown]

/-- A binding of a store was just made or was there before. -/
theorem mem_bindings_bind {env : Env} {name : String} {value : Value} {binding : String × Value}
    (hmem : binding ∈ ((store.bind env name value).scope id).bindings) :
    binding = (name, value) ∨ binding ∈ (store.scope id).bindings := by
  by_cases hown : id = env.scope
  · subst hown
    by_cases hid : env.scope < store.scopes.size
    · rw [scope_bind_self name value hid] at hmem
      exact Scope.mem_bindings_bind hmem
    · rw [scope_bind_of_size_le name value (Nat.le_of_not_lt hid)] at hmem
      exact Or.inr hmem
  · rw [scope_bind_of_ne name value hown] at hmem
    exact Or.inr hmem

/-- A value that is found stands among the bindings of some scope. -/
theorem exists_mem_of_find? {name : String} {value : Value}
    (hfind : store.find? name id = some value) :
    ∃ holder, (name, value) ∈ (store.scope holder).bindings := by
  fun_induction store.find? name id with
  | case1 id bound hget =>
      cases hfind
      exact ⟨id, Scope.mem_bindings_of_get? hget⟩
  | case2 id hget outer houter hlt ih => exact ih hfind
  | case3 | case4 => cases hfind

/-- Whether all values that a store binds are good. -/
def BindsOnly (store : Store) (good : Value → Prop) : Prop :=
  ∀ id, ∀ binding ∈ (store.scope id).bindings, good binding.2

variable {good : Value → Prop}

/-- A store without scopes binds nothing. -/
theorem bindsOnly_empty : empty.BindsOnly good := by
  intro id binding hmem
  simp [Store.scope, empty, Scope.empty] at hmem

/-- What a name is looked up as is good. -/
theorem BindsOnly.lookup? {env : Env} {name : String} {value : Value}
    (hstore : store.BindsOnly good) (hlookup : store.lookup? env name = some value) :
    good value := by
  obtain ⟨holder, hmem⟩ := exists_mem_of_find? hlookup
  exact hstore holder (name, value) hmem

/-- A good value may be bound. -/
theorem BindsOnly.bind {value : Value} (hstore : store.BindsOnly good) (env : Env) (name : String)
    (hvalue : good value) : (store.bind env name value).BindsOnly good := by
  intro id binding hmem
  rcases mem_bindings_bind hmem with rfl | hold
  · exact hvalue
  · exact hstore id binding hold

/-- A scope of good values may be entered. -/
theorem BindsOnly.enter {scope : Scope} (hstore : store.BindsOnly good) (outer : Option Env)
    (hscope : ∀ binding ∈ scope.bindings, good binding.2) :
    (store.enter outer scope).2.BindsOnly good := by
  intro id binding hmem
  rcases bindings_enter store outer scope id with hnew | hold
  · rw [hnew] at hmem
    exact hscope binding hmem
  · rw [hold] at hmem
    exact hstore id binding hmem

end Store

end MonkeyLang
