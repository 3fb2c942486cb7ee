import MonkeyLang.Proofs.Scope.Store

/-!
# Stores that agree apart from some names

Two stores agree apart from hidden names if they have the same scopes in the same places, and every
scope binds each other name to the same value in both. A name that is not hidden is then found with
the same value (`Store.AgreesApart.lookup?`). The store operations keep the agreement, and a binding
of a hidden name never breaks it (`Store.agreesApart_bind_hidden`).
-/

namespace MonkeyLang

/-- The scopes lie in the same scope, and bind the names that are not hidden to the same values. -/
structure Scope.AgreesApart (hidden : List String) (scope scope' : Scope) : Prop where
  outer_eq : scope.outer = scope'.outer
  get?_eq : ∀ name ∉ hidden, scope.get? name = scope'.get? name

/-- The arguments are the same for all parameters whose names are not hidden. -/
structure ArgsAgreeApart (hidden params : List String) (args args' : List Value) : Prop where
  length_eq : args.length = args'.length
  arg_eq : ∀ (position : Nat) name, params[position]? = some name → name ∉ hidden →
    args[position]? = args'[position]?

namespace Scope

variable {hidden : List String} {scope scope' : Scope}

theorem AgreesApart.refl (scope : Scope) : scope.AgreesApart hidden scope :=
  ⟨rfl, fun _ _ => rfl⟩

theorem AgreesApart.symm (h : scope.AgreesApart hidden scope') : scope'.AgreesApart hidden scope :=
  ⟨h.outer_eq.symm, fun name hname => (h.get?_eq name hname).symm⟩

/-- Binding a name to values that are the same unless the name is hidden. -/
theorem AgreesApart.bind {name : String} {value value' : Value}
    (h : scope.AgreesApart hidden scope') (hvalue : name ∉ hidden → value = value') :
    (scope.bind name value).AgreesApart hidden (scope'.bind name value') where
  outer_eq := h.outer_eq
  get?_eq := by
    intro other hother
    by_cases hname : other = name
    · subst hname
      rw [get?_bind_self, get?_bind_self, hvalue hother]
    · rw [get?_bind_of_ne hname, get?_bind_of_ne hname]
      exact h.get?_eq other hother

/-- A binding of a hidden name is no difference. -/
theorem agreesApart_bind_hidden {name : String} (hname : name ∈ hidden) (value : Value)
    (scope : Scope) : (scope.bind name value).AgreesApart hidden scope where
  outer_eq := rfl
  get?_eq := by
    intro other hother
    have hne : other ≠ name := fun heq => hother (by rwa [heq])
    exact get?_bind_of_ne hne value scope

/-- Binding parameters one by one to arguments that agree. -/
theorem agreesApart_foldl_bind (params : List String) :
    ∀ {args args' : List Value} {scope scope' : Scope}, ArgsAgreeApart hidden params args args' →
      scope.AgreesApart hidden scope' →
      ((params.zip args).foldl (fun scope pair => scope.bind pair.1 pair.2) scope).AgreesApart
        hidden
        ((params.zip args').foldl (fun scope pair => scope.bind pair.1 pair.2) scope') := by
  induction params with
  | nil =>
      intro args args' scope scope' _ hscope
      exact hscope
  | cons name params ih =>
      intro args args' scope scope' hargs hscope
      cases args with
      | nil =>
          cases List.length_eq_zero_iff.mp hargs.length_eq.symm
          exact hscope
      | cons arg args =>
          cases args' with
          | nil => cases hargs.length_eq
          | cons arg' args' =>
              have hfirst : name ∉ hidden → arg = arg' := by
                intro hname
                simpa using hargs.arg_eq 0 name rfl hname
              have hrest : ArgsAgreeApart hidden params args args' := by
                refine ⟨Nat.succ.inj hargs.length_eq, fun position other hparam hother => ?_⟩
                simpa using hargs.arg_eq (position + 1) other (by simpa using hparam) hother
              exact ih hrest (hscope.bind hfirst)

/-- Arguments that agree give scopes that agree, or there is a wrong number of both. -/
theorem ofArgs_agreesApart {params : List String} {args args' : List Value}
    (hargs : ArgsAgreeApart hidden params args args') :
    (∃ fault, ofArgs params args = .error fault ∧ ofArgs params args' = .error fault) ∨
      ∃ scope scope', ofArgs params args = .ok scope ∧ ofArgs params args' = .ok scope' ∧
        scope.AgreesApart hidden scope' := by
  unfold ofArgs
  rw [← hargs.length_eq]
  split
  · exact Or.inr ⟨_, _, rfl, rfl, agreesApart_foldl_bind params hargs (.refl empty)⟩
  · exact Or.inl ⟨_, rfl, rfl⟩

end Scope

/-- The stores have as many scopes, and each scope agrees with the one of the same number. -/
structure Store.AgreesApart (hidden : List String) (store store' : Store) : Prop where
  size_eq : store.scopes.size = store'.scopes.size
  scope : ∀ id, (store.scope id).AgreesApart hidden (store'.scope id)

namespace Store

variable {hidden : List String} {store store' : Store}

theorem AgreesApart.refl (store : Store) : store.AgreesApart hidden store :=
  ⟨rfl, fun id => .refl (store.scope id)⟩

theorem AgreesApart.symm (h : store.AgreesApart hidden store') : store'.AgreesApart hidden store :=
  ⟨h.size_eq.symm, fun id => (h.scope id).symm⟩

/-- A name that is not hidden is found with the same value. -/
theorem AgreesApart.lookup? {name : String} (h : store.AgreesApart hidden store')
    (hname : name ∉ hidden) (env : Env) : store.lookup? env name = store'.lookup? env name := by
  have hfind : ∀ id, store.find? name id = store'.find? name id := by
    intro id
    induction id using Nat.strongRecOn with
    | ind id ih =>
        rw [Store.find?, Store.find?, (h.scope id).get?_eq name hname, (h.scope id).outer_eq]
        cases (store'.scope id).get? name with
        | some value => rfl
        | none =>
            cases (store'.scope id).outer with
            | none => rfl
            | some outer =>
                show (if outer < id then _ else none) = if outer < id then _ else none
                split
                · next holder => exact ih outer holder
                · rfl
  exact hfind env.scope

/-- Binding a name to values that are the same unless the name is hidden. -/
theorem AgreesApart.bind {name : String} {value value' : Value}
    (h : store.AgreesApart hidden store') (env : Env) (hvalue : name ∉ hidden → value = value') :
    (store.bind env name value).AgreesApart hidden (store'.bind env name value') where
  size_eq := by rw [size_bind, size_bind, h.size_eq]
  scope := by
    intro id
    by_cases hown : id = env.scope
    · subst hown
      by_cases hlt : env.scope < store.scopes.size
      · rw [scope_bind_self name value hlt, scope_bind_self name value' (h.size_eq ▸ hlt)]
        exact (h.scope env.scope).bind hvalue
      · have hle := Nat.le_of_not_lt hlt
        rw [scope_bind_of_size_le name value hle,
          scope_bind_of_size_le name value' (h.size_eq ▸ hle)]
        exact h.scope env.scope
    · rw [scope_bind_of_ne name value hown, scope_bind_of_ne name value' hown]
      exact h.scope id

/-- A binding of a hidden name is no difference. -/
theorem agreesApart_bind_hidden {name : String} (hname : name ∈ hidden) (env : Env)
    (value : Value) (store : Store) : (store.bind env name value).AgreesApart hidden store where
  size_eq := size_bind store env name value
  scope := by
    intro id
    by_cases hown : id = env.scope
    · subst hown
      by_cases hlt : env.scope < store.scopes.size
      · rw [scope_bind_self name value hlt]
        exact Scope.agreesApart_bind_hidden hname value _
      · rw [scope_bind_of_size_le name value (Nat.le_of_not_lt hlt)]
        exact .refl _
    · rw [scope_bind_of_ne name value hown]
      exact .refl _

/-- Entering scopes that agree. -/
theorem AgreesApart.enter {scope scope' : Scope} (h : store.AgreesApart hidden store')
    (outer : Option Env) (hscope : scope.AgreesApart hidden scope') :
    (store.enter outer scope).2.AgreesApart hidden (store'.enter outer scope').2 where
  size_eq := by rw [size_enter, size_enter, h.size_eq]
  scope := by
    intro id
    by_cases hnew : id = store.scopes.size
    · have hnew' := hnew.trans h.size_eq
      rw [hnew, scope_enter_self, ← hnew, hnew', scope_enter_self]
      exact ⟨rfl, hscope.get?_eq⟩
    · rw [scope_enter_of_ne outer scope hnew,
        scope_enter_of_ne outer scope' fun heq => hnew (heq.trans h.size_eq.symm)]
      exact h.scope id

end Store

end MonkeyLang
