import MonkeyLang.Proofs.Eval.Agreement
import MonkeyLang.Proofs.Eval.Frame
import MonkeyLang.Proofs.Scope.Sides

/-!
# Scopes that stand for each other

Two evaluations may run in stores of their own, as long as the handles that they start from stand
for scopes that are alike: read `lawful_paired`. In particular, where an evaluation ran and wrote to
no scope that was there before, a handle on such a scope stands for itself, and code comes to the
same as before (`expandCall_of_later`).
-/

namespace MonkeyLang

/-- Two evaluations in stores of their own. A world says which handles of the one stand for which
handles of the other. They print values that differ at most in the scopes remembered. -/
def paired : Simulation where
  World := Env → Env → Prop
  grows same same' := ∀ env env', same env env' → same' env env'
  env same := same
  closure same := same
  store same store store' := store.Alike same store' ∧
    ∀ env env', same env env' → env.scope < store.scopes.size ∧ env'.scope < store'.scopes.size
  printed := AlikeValues fun _ _ => True

/-- Scopes that are entered on both sides stand for each other. They are newer than all others, so
handles stay in order. -/
theorem lawful_paired : paired.Lawful where
  grows_refl _ _ _ hsame := hsame
  grows_trans hfirst hsecond env env' hsame := hsecond env env' (hfirst env env' hsame)
  env_mono hgrows henv := hgrows _ _ henv
  closure_mono hgrows hclosure := hgrows _ _ hclosure
  closure_of_env henv := henv
  lookup hstore henv _ := hstore.1.lookup? henv _
  store_bind := by
    rintro same store store' env env' value value' name ⟨halike, hinUse⟩ henv hvalue
    refine ⟨halike.bind henv name hvalue, fun other other' hother => ?_⟩
    rw [store.size_bind, store'.size_bind]
    exact hinUse other other' hother
  store_enter := by
    rintro same store store' outer outer' scope scope' ⟨halike, hinUse⟩ houter hscope
    let wider : Env → Env → Prop := fun env env' =>
      same env env' ∨ env.scope = store.scopes.size ∧ env'.scope = store'.scopes.size
    have hold : ∀ env env', wider env env' → env.scope ≠ store.scopes.size → same env env' :=
      fun env env' hwider hne => hwider.resolve_right fun hnew => hne hnew.1
    have hordered : Ordered wider := by
      rintro env env' other other' (henv | ⟨hnew, hnew'⟩) (hother | ⟨hnewOther, hnewOther'⟩)
      · exact halike.ordered henv hother
      · obtain ⟨hlt, hlt'⟩ := hinUse env env' henv
        rw [hnewOther, hnewOther']
        exact iff_of_true hlt hlt'
      · obtain ⟨hlt, hlt'⟩ := hinUse other other' hother
        rw [hnew, hnew']
        exact iff_of_false (Nat.lt_asymm hlt) (Nat.lt_asymm hlt')
      · rw [hnew, hnew', hnewOther, hnewOther']
        exact iff_of_false (Nat.lt_irrefl _) (Nat.lt_irrefl _)
    refine ⟨wider, fun _ _ => Or.inl, Or.inr ⟨rfl, rfl⟩, ?_, ?_⟩
    · exact halike.enter hordered (fun _ _ => Or.inl) (Or.inr ⟨rfl, rfl⟩) hold houter hscope
    · intro env env' hwider
      rw [store.size_enter, store'.size_enter]
      rcases hwider with hsame | ⟨hnew, hnew'⟩
      · obtain ⟨hlt, hlt'⟩ := hinUse env env' hsame
        exact ⟨Nat.lt_succ_of_lt hlt, Nat.lt_succ_of_lt hlt'⟩
      · rw [hnew, hnew']
        exact ⟨Nat.lt_succ_self _, Nat.lt_succ_self _⟩
  printed_append hprinted hvalues :=
    List.rel_append hprinted (hvalues.imp fun _ _ halike => halike.mono fun _ _ _ => trivial)

/-- Two evaluations in stores of their own, whatever they print. -/
def pairedSilently : Simulation :=
  { paired with printed := fun _ _ => True }

/-- Evaluation does not look at what was printed. -/
theorem lawful_pairedSilently : pairedSilently.Lawful :=
  { lawful_paired with printed_append := fun _ _ => trivial }

/-- A handle on a scope in use stands for itself. -/
def standsForItself (store : Store) (env env' : Env) : Prop :=
  env = env' ∧ env.scope < store.scopes.size

/-- Where no scope that was there has changed, every handle on such a scope stands for itself. -/
theorem Store.Closed.paired_of_writesOnly {before after : Store} (hclosed : before.Closed)
    (hwrites : before.WritesOnly none after) :
    pairedSilently.store (standsForItself before) after before := by
  have hscope : ∀ id, (before.scope id).Alike (standsForItself before) (before.scope id) := by
    intro id
    refine ⟨?_, List.forall₂_same.mpr fun binding hmem => ⟨rfl, ?_⟩⟩
    · cases houter : (before.scope id).outer with
      | none => exact .none
      | some outer => exact .some ⟨rfl, hclosed.outer_lt houter⟩
    · exact Value.alike_self _ ((hclosed.value_within hmem).mono fun _ hlt => ⟨rfl, hlt⟩)
  refine ⟨⟨?_, ?_, ?_⟩, ?_⟩
  · rintro env _ other _ ⟨rfl, _⟩ ⟨rfl, _⟩
    exact Iff.rfl
  · rintro env _ ⟨rfl, hlt⟩
    exact iff_of_true (Nat.lt_of_lt_of_le hlt hwrites.size_le) hlt
  · rintro env _ ⟨rfl, hlt⟩
    rw [hwrites.scope_eq env.scope hlt nofun]
    exact hscope env.scope
  · rintro env _ ⟨rfl, hlt⟩
    exact ⟨Nat.lt_of_lt_of_le hlt hwrites.size_le, hlt⟩

/-- What a macro makes of its arguments where no scope that was there has changed, it made before
too. -/
theorem expandCall_of_later {before later final : Machine} {depth : Nat} {name : String}
    {params : List String} {body : Block} {env : Env} {args : List Expr} {code : Expr}
    (hclosed : before.store.Closed) (hwrites : before.store.WritesOnly none later.store)
    (henv : env.scope < before.store.scopes.size)
    (hdone : expandCall (eval depth) name params body env args later = .done code final) :
    ∃ final', expandCall (eval depth) name params body env args before = .done code final' := by
  have hsame : pairedSilently.closure (standsForItself before.store) env env := ⟨rfl, henv⟩
  have hmatches : pairedSilently.Matches (standsForItself before.store) Simulation.equal
      (expandCall (eval depth) name params body env args)
      (expandCall (eval depth) name params body env args) :=
    Simulation.matches_expandCall lawful_pairedSilently
      (Simulation.agrees_eval lawful_pairedSilently (Nat.le_refl depth)) hsame name params body args
  have hends := hmatches later before ⟨hclosed.paired_of_writesOnly hwrites, trivial⟩
  rw [hdone] at hends
  generalize expandCall (eval depth) name params body env args before = outcome at hends ⊢
  cases hends with
  | @done _ _ code' _ final' _ hsame _ =>
      cases hsame
      exact ⟨final', rfl⟩

end MonkeyLang
