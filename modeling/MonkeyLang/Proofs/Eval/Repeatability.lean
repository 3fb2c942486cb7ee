import Mathlib.Data.Nat.Order.Lemmas
import Mathlib.Order.Monotone.Basic
import MonkeyLang.Proofs.Eval.Agreement
import MonkeyLang.Proofs.Eval.Frame
import MonkeyLang.Proofs.Scope.Sides

/-!
# Calls are repeatable

A call leaves the scopes that were there before alone, and its outcome depends on them alone. So the
same call, made again where the first one ended, goes the same way in scopes of its own. Read
`applyValue_repeatable` first: it ends like the first one and prints the same values, up to the
numbers of the scopes that each call creates. These are not part of the text, so the text is the
same, in whatever order hashes are printed.
-/

namespace MonkeyLang

/-! ## Scopes of the two calls -/

/-- The handles are of a scope and of the scope that it is renamed to. -/
def Renames (rename : ScopeId → ScopeId) (env env' : Env) : Prop :=
  env'.scope = rename env.scope

/-- The number of a scope of the first call in the second one: scopes that were there before keep
their number, and the others come later by as many as the first call created. -/
def shift (size created : Nat) (id : ScopeId) : ScopeId :=
  if id < size then id else id + created

variable {size created : Nat}

/-- Scopes that were there before keep their number. -/
theorem shift_of_lt {id : ScopeId} (hid : id < size) : shift size created id = id :=
  if_pos hid

/-- Scopes that are created come later. -/
theorem shift_of_le {id : ScopeId} (hid : size ≤ id) : shift size created id = id + created :=
  if_neg (Nat.not_lt.mpr hid)

/-- Renaming keeps the order of scopes. -/
theorem shift_strictMono : StrictMono (shift size created) := by
  intro (id : Nat) (other : Nat) hlt
  show shift size created id < shift size created other
  by_cases hid : other < size
  · rw [shift_of_lt hid, shift_of_lt (Nat.lt_trans hlt hid)]
    exact hlt
  · rw [shift_of_le (Nat.le_of_not_lt hid)]
    unfold shift
    split
    · exact Nat.lt_add_right created hlt
    · exact Nat.add_lt_add_right hlt created

/-- Renamed scopes are in the same order. -/
theorem ordered_shift : Ordered (Renames (shift size created)) := by
  intro env env' other other' henv hother
  unfold Renames at henv hother
  rw [henv, hother]
  exact shift_strictMono.lt_iff_lt.symm

/-- A value that remembers only scopes that were there is like itself. -/
theorem Value.Within.alike_shift {value : Value} {store : Store} (hwithin : value.Within store) :
    value.Alike (Renames (shift store.scopes.size created)) value :=
  value.alike_self (hwithin.mono fun _ hlt => (shift_of_lt hlt).symm)

/-- A scope that refers only to scopes that were there is like itself. -/
theorem Store.Closed.scope_alike {store : Store} (hclosed : store.Closed) (id : ScopeId) :
    (store.scope id).Alike (Renames (shift store.scopes.size created)) (store.scope id) where
  outer := by
    cases houter : (store.scope id).outer with
    | none => exact .none
    | some outer => exact .some (shift_of_lt (hclosed.outer_lt houter)).symm
  bindings := List.forall₂_same.mpr fun _ hmem =>
    ⟨rfl, (hclosed.value_within hmem).alike_shift⟩

/-- Where no scope that was there has changed, stores are alike up to the scopes created since. -/
theorem Store.Closed.alike_of_writesOnly {before after : Store} (hclosed : before.Closed)
    (hwrites : before.WritesOnly none after)
    (hcreated : after.scopes.size = before.scopes.size + created) :
    before.Alike (Renames (shift before.scopes.size created)) after where
  ordered := ordered_shift
  inUse := by
    intro env env' henv
    have henv' : env'.scope = shift before.scopes.size created env.scope := henv
    rw [henv', hcreated]
    unfold shift
    split
    · next hlt => exact ⟨fun _ => Nat.lt_add_right created hlt, fun _ => hlt⟩
    · exact (Nat.add_lt_add_iff_right).symm
  scope := by
    intro env env' henv
    have henv' : env'.scope = shift before.scopes.size created env.scope := henv
    by_cases hlt : env.scope < before.scopes.size
    · rw [henv', shift_of_lt hlt, hwrites.scope_eq env.scope hlt nofun]
      exact hclosed.scope_alike env.scope
    · have hle := Nat.le_of_not_lt hlt
      have hle' : after.scopes.size ≤ env.scope + created :=
        hcreated ▸ Nat.add_le_add_right hle created
      rw [henv', shift_of_le hle, scope_of_size_le hle, scope_of_size_le hle']
      exact ⟨.none, .nil⟩

/-! ## The second call follows the first -/

/-- The first call, from a store of `size` scopes, stands side by side with a second one, from a
store with `created` more scopes. Each has printed some values of its own before. -/
def repeated (size created : Nat) (printed printed' : List Value) : Simulation where
  World := Unit
  grows _ _ := True
  env _ := Renames (shift size created)
  closure _ := Renames (shift size created)
  store _ store store' := store.Alike (Renames (shift size created)) store' ∧
    size ≤ store.scopes.size ∧ store'.scopes.size = store.scopes.size + created
  printed values values' := ∃ output output', values = printed ++ output ∧
    values' = printed' ++ output' ∧ AlikeValues (Renames (shift size created)) output output'

/-- Both calls enter their scopes in the same order, and each scope of the first one is renamed to
that of the second one. -/
theorem lawful_repeated (printed printed' : List Value) :
    (repeated size created printed printed').Lawful where
  grows_refl _ := trivial
  grows_trans _ _ := trivial
  env_mono _ henv := henv
  closure_mono _ hclosure := hclosure
  closure_of_env henv := henv
  lookup hstore henv _ := hstore.1.lookup? henv _
  store_bind := by
    rintro _ store store' env env' value value' name ⟨halike, hsize, hsize'⟩ henv hvalue
    refine ⟨halike.bind henv name hvalue, ?_, ?_⟩
    · rwa [store.size_bind]
    · rw [store.size_bind, store'.size_bind, hsize']
  store_enter := by
    rintro _ store store' outer outer' scope scope' ⟨halike, hsize, hsize'⟩ houter hscope
    have hnew : Renames (shift size created) ⟨store.scopes.size⟩ ⟨store'.scopes.size⟩ :=
      hsize'.trans (shift_of_le hsize).symm
    refine ⟨(), trivial, hnew, ?_, ?_, ?_⟩
    · exact halike.enter ordered_shift (fun _ _ hsame => hsame) hnew
        (fun _ _ hsame _ => hsame) houter hscope
    · rw [store.size_enter]
      exact Nat.le_succ_of_le hsize
    · rw [store.size_enter, store'.size_enter, hsize']
      omega
  printed_append := by
    rintro _ _ _ values values' ⟨output, output', rfl, rfl, houtput⟩ hvalues
    exact ⟨output ++ values, output' ++ values', List.append_assoc .., List.append_assoc ..,
      List.rel_append houtput hvalues⟩

/-- The calls end with values that are alike, or with the same fault. -/
inductive Outcome.Alike (same : Env → Env → Prop) : Outcome Value → Outcome Value → Prop where
  | done {value value' : Value} {machine machine' : Machine} :
      value.Alike same value' → Alike same (.done value machine) (.done value' machine')
  | failed (cause : Fault) {machine machine' : Machine} :
      Alike same (.stopped (.fault cause) machine) (.stopped (.fault cause) machine')

/-- A value without functions and macros is the value of both calls. -/
theorem Outcome.Alike.eq_of_codeFree {same : Env → Env → Prop} {outcome outcome' : Outcome Value}
    {value : Value} {machine final : Machine} (halike : outcome.Alike same outcome')
    (hdone : outcome = .done value machine) (hfree : value.CodeFree)
    (hend : outcome'.machine? = some final) : outcome' = .done value final := by
  subst hdone
  cases halike with
  | done hvalue =>
      cases hend
      rw [hvalue.eq_of_capturesOnly hfree.capturesOnly]

/-- Evaluations that end side by side, and not with a `return`, end alike. -/
theorem Simulation.Ends.alike {sim : Simulation} {world : sim.World}
    {outcome outcome' : Outcome Value} {machine : Machine}
    (hends : sim.Ends world sim.value outcome outcome')
    (hreturn : ∀ value final, outcome ≠ .stopped (.returned value) final)
    (hend : outcome.machine? = some machine) :
    ∃ world' final, outcome'.machine? = some final ∧ sim.machine world' machine final ∧
      outcome.Alike (sim.closure world') outcome' := by
  cases hends with
  | tooDeep => cases hend
  | @done world' _ _ _ final _ hvalue hmachine =>
      cases hend
      exact ⟨world', final, rfl, hmachine, .done hvalue⟩
  | @stopped world' _ _ _ final _ hinterrupt hmachine =>
      cases hend
      cases hinterrupt with
      | fault cause => exact ⟨world', final, rfl, hmachine, .failed cause⟩
      | returned => exact absurd rfl (hreturn _ _)

/-- What the scopes of two calls have to do with each other, from before the first one, between
them, and after the second one: the scopes that were there keep their number and stay as they were,
and those that the first call created are renamed to those that the second one created and hold the
same. -/
structure Renaming (before between after : Store) (rename : ScopeId → ScopeId) : Prop where
  injective : Function.Injective rename
  kept : ∀ id < before.scopes.size, rename id = id ∧
    between.scope id = before.scope id ∧ after.scope id = before.scope id
  created : ∀ id, before.scopes.size ≤ id → id < between.scopes.size →
    between.scopes.size ≤ rename id ∧ rename id < after.scopes.size
  scope_alike : ∀ id < between.scopes.size,
    (between.scope id).Alike (Renames rename) (after.scope (rename id))

/-- Where two calls wrote to no scope that was there and end in stores that are alike, the scopes of
the first one are renamed to those of the second one. -/
theorem Store.Alike.renaming {before between after : Store}
    (hfirst : before.WritesOnly none between)
    (hsecond : between.WritesOnly none after)
    (halike : between.Alike (Renames (shift before.scopes.size created)) after)
    (hbetween : between.scopes.size = before.scopes.size + created)
    (hafter : after.scopes.size = between.scopes.size + created) :
    Renaming before between after (shift before.scopes.size created) where
  injective := shift_strictMono.injective
  kept := by
    intro id hid
    have hkept := hfirst.scope_eq id hid nofun
    refine ⟨shift_of_lt hid, hkept, ?_⟩
    exact (hsecond.scope_eq id (Nat.lt_of_lt_of_le hid hfirst.size_le) nofun).trans hkept
  created := by
    intro id hle hlt
    rw [shift_of_le hle, hafter]
    exact ⟨hbetween ▸ Nat.add_le_add_right hle created, Nat.add_lt_add_right hlt created⟩
  scope_alike id _ := halike.scope rfl

/-- A call keeps the frame of the scopes that were there before, and lets no `return` out. -/
theorem runs_applyValue_frame (store : Store) (depth : Nat) (callee : Value) (args : List Value) :
    (frame store none).Runs () (frame store none).value Invariant.noReturn
      (applyValue (eval depth) callee args) :=
  Invariant.runs_applyValue (lawful_frame _ _) (evaluates_frame _ _ depth)
    (fun _ _ _ _ => trivial) fun _ _ => trivial

/-- A call lets no `return` out. -/
theorem applyValue_ne_returned {depth : Nat} {callee : Value} {args : List Value}
    {machine : Machine} (value : Value) (final : Machine) :
    applyValue (eval depth) callee args machine ≠ .stopped (.returned value) final := by
  intro hcall
  have hends := runs_applyValue_frame machine.store depth callee args machine
    (Store.WritesOnly.refl machine.store none)
  rw [hcall] at hends
  obtain ⟨_, _, hstops, _⟩ := hends
  exact hstops

/-- In a store whose handles are all of scopes in use, let a call end in some way. The same call,
made where the first one ended, ends too. It has the same fault or a value like that of the first
one, up to a renaming of the scopes that the first call created to those that the second one
created. A value without functions and macros is the very same. It prints values like those that the
first one printed, and so the same text wherever the order of a hash is a function of the hash. -/
theorem applyValue_repeatable {depth : Nat} {callee : Value} {args : List Value}
    {before between : Machine} (hclosed : before.store.Closed)
    (hcallee : callee.Within before.store) (hargs : ∀ arg ∈ args, arg.Within before.store)
    (hend : (applyValue (eval depth) callee args before).machine? = some between) :
    ∃ output output' after rename,
      between.printed = before.printed ++ output ∧
      (applyValue (eval depth) callee args between).machine? = some after ∧
      after.printed = between.printed ++ output' ∧
      AlikeValues (Renames rename) output output' ∧
      (∀ order, putsText order output' = putsText order output) ∧
      Renaming before.store between.store after.store rename ∧
      (applyValue (eval depth) callee args before).Alike (Renames rename)
        (applyValue (eval depth) callee args between) ∧
      ∀ value, applyValue (eval depth) callee args before = .done value between →
        value.CodeFree → applyValue (eval depth) callee args between = .done value after := by
  have hfirst := writesOnly_of_runs (runs_applyValue_frame _ depth callee args) hend
  obtain ⟨created, hbetween⟩ := Nat.exists_eq_add_of_le hfirst.size_le
  -- The second call starts beside the first one: nothing that it can see has changed.
  let sim := repeated before.store.scopes.size created before.printed between.printed
  have hlawful : sim.Lawful := lawful_repeated before.printed between.printed
  have hstart : sim.machine () before between :=
    ⟨⟨hclosed.alike_of_writesOnly hfirst hbetween, Nat.le_refl _, hbetween⟩,
      [], [], (List.append_nil _).symm, (List.append_nil _).symm, .nil⟩
  have hmatches : sim.Matches () sim.value (applyValue (eval depth) callee args)
      (applyValue (eval depth) callee args) :=
    Simulation.matches_applyValue hlawful (Simulation.agrees_eval hlawful (Nat.le_refl depth))
      hcallee.alike_shift (List.forall₂_same.mpr fun arg hmem => (hargs arg hmem).alike_shift)
  obtain ⟨_, after, hend', ⟨⟨halike, _, hafter⟩, output, output', hprinted, hprinted', houtput⟩,
      houtcome⟩ := (hmatches before between hstart).alike applyValue_ne_returned hend
  have hsecond := writesOnly_of_runs (runs_applyValue_frame _ depth callee args) hend'
  refine ⟨output, output', after, _, hprinted, hend', hprinted', houtput,
    fun order => (putsText_alike houtput order).symm,
    halike.renaming hfirst hsecond hbetween hafter, houtcome, ?_⟩
  intro value hdone hfree
  exact houtcome.eq_of_codeFree hdone hfree hend'

/-- A function prints a text and makes a function that remembers the scope of the call. -/
theorem applyValue_repeatable_closure :
    let maker : Value := .function ["x"] [.expr (.call (.ident "puts") [.str "made"]),
      .expr (.function [] [.expr (.ident "x")])] ⟨0⟩
    let before : Machine := ⟨⟨#[.empty]⟩, []⟩
    ∃ between after rename,
      applyValue (eval 9) maker [.str "a"] before =
        .done (.function [] [.expr (.ident "x")] ⟨1⟩) between ∧
      (applyValue (eval 9) maker [.str "a"] before).Alike (Renames rename)
        (applyValue (eval 9) maker [.str "a"] between) ∧
      (applyValue (eval 9) maker [.str "a"] between).machine? = some after ∧
      Renaming before.store between.store after.store rename := by
  intro maker before
  have hcall : ∃ between, applyValue (eval 9) maker [.str "a"] before =
      .done (.function [] [.expr (.ident "x")] ⟨1⟩) between := ⟨_, rfl⟩
  obtain ⟨between, hcall⟩ := hcall
  have hclosed : before.store.Closed := by
    have hdivided : (Store.empty.enter none .empty).2.Divided [.values] :=
      Store.Divided.empty.enter nofun fun _ hmem => nomatch hmem
    exact hdivided.closed
  have hcallee : maker.Within before.store := Value.capturesOnly_function.mpr (by decide)
  have hargs : ∀ arg ∈ [Value.str "a"], arg.Within before.store := by
    intro arg hmem
    cases List.mem_singleton.mp hmem
    exact Value.IsAtom.capturesOnly trivial
  obtain ⟨_, _, after, rename, _, hend, _, _, _, hrenaming, halike, _⟩ :=
    applyValue_repeatable hclosed hcallee hargs (congrArg Outcome.machine? hcall)
  exact ⟨between, after, rename, hcall, halike, hend, hrenaming⟩

end MonkeyLang
