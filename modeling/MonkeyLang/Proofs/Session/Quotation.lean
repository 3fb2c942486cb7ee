import Mathlib
import MonkeyLang.Proofs.Eval.Quotation
import MonkeyLang.Proofs.Session.Separation

/-!
# What a session quotes

The arguments of a macro are quoted as they stand, and may call `unquote`. They stay with the
macros: nothing that is quoted in a scope in reach of the values, or in the value that answers a
unit, has a call of `unquote` in it. Read `session_unquoteFree` first.
-/

namespace MonkeyLang

namespace Session

/-- Whether nothing that is quoted in a scope in reach of the values calls `unquote`. -/
def UnquoteFree (session : Session) : Prop :=
  ∀ id, session.store.Reaches session.values.scope id →
    ∀ binding ∈ (session.store.scope id).bindings, binding.2.UnquoteFree

variable {session : Session} {sides : List Side} {depth : Nat} {source : String} {answer : Answer}

/-- A region with the root of values in it contains all scopes in reach of the values. -/
theorem unquoteFree_of_region {region : ScopeId → Prop}
    (hregion : session.store.Region Value.UnquoteFree region)
    (hvalues : region session.values.scope) : session.UnquoteFree :=
  fun _ hreach _ hmem =>
    (hregion.value_belongs (hregion.mem_of_reaches hvalues hreach) hmem).isGood

/-- Taking a unit brings nothing quoted with a call of `unquote` into reach of the values, and does
not answer with it. -/
theorem Separated.run_unquoteFree (hseparated : session.Separated sides)
    (hfree : session.UnquoteFree) (hrun : session.run depth source = some answer) :
    answer.session.UnquoteFree ∧ ∀ value, answer.reply = .value value → value.UnquoteFree := by
  have hregion := Store.region_reaches hfree
  cases (hseparated.run hrun).1 with
  | rejected hparse => exact ⟨hfree, nofun⟩
  | @unexpanded program cause machine _ _ _ _ hscope =>
      refine ⟨unquoteFree_of_region (hregion.of_scope_eq hscope) .self, fun value hreply => ?_⟩
      cases hreply
      exact Value.unquoteFree_error cause.message
  | @evaluated program expanded machine final result _ hdefines _ hwrites hprogram _ =>
      -- Neither the definition of macros nor their expansion touches the region of the values.
      have hscope : ∀ id, session.store.Reaches session.values.scope id →
          machine.store.scope id = session.store.scope id := by
        intro id hreach
        obtain ⟨hid, hne⟩ := hseparated.of_reaches_values hreach
        rw [hwrites.scope_eq id (hdefines.size_eq.symm ▸ hid) nofun]
        exact hdefines.scope_eq id hne
      obtain ⟨⟨region, hvalues, hregion'⟩, hresult⟩ :=
        evalProgram_unquoteFree (hregion.of_scope_eq hscope) .self hprogram
      refine ⟨unquoteFree_of_region hregion' hvalues, fun value hreply => hresult value ?_⟩
      cases result with
      | none => cases hreply
      | some found =>
          cases hreply
          rfl

/-- Nothing is bound in a new session. -/
theorem bindsOnly_new {good : Value → Prop} : Session.new.store.BindsOnly good := by
  have hempty : ∀ binding ∈ Scope.empty.bindings, good binding.2 := fun _ hnone => nomatch hnone
  exact (Store.bindsOnly_empty.enter none hempty).enter none hempty

/-- In every session that units lead to, nothing that is quoted in reach of the values calls
`unquote`. -/
theorem Reachable.unquoteFree (hreach : session.Reachable) : session.UnquoteFree := by
  induction hreach with
  | new => exact fun id _ => bindsOnly_new id
  | run hreach hrun ih =>
      obtain ⟨sides, hseparated⟩ := hreach.separated
      exact (hseparated.run_unquoteFree ih hrun).1

end Session

/-- In every session that units lead to, no code that is quoted at any depth in a value bound in a
scope in reach of the values calls `unquote` anywhere. The same is true of the value that answers a
further unit. -/
theorem session_unquoteFree {session : Session} (hreach : session.Reachable) :
    (∀ id, session.store.Reaches session.values.scope id →
      ∀ binding ∈ (session.store.scope id).bindings, ∀ expr,
        (Value.quote expr).PartOf binding.2 → expr.UnquoteFree) ∧
    ∀ depth source answer, session.run depth source = some answer →
      ∀ value, answer.reply = .value value → ∀ expr,
        (Value.quote expr).PartOf value → expr.UnquoteFree := by
  obtain ⟨sides, hseparated⟩ := hreach.separated
  refine ⟨hreach.unquoteFree, fun depth source answer hrun => ?_⟩
  exact (hseparated.run_unquoteFree hreach.unquoteFree hrun).2

/-- A name is put in the place of a callee, which makes a call of `unquote` of it, and a macro is
called in quoted code with a call of `unquote` as its argument. The scope of the macro call keeps
that argument. -/
theorem session_unquoteFree_spliced_callee :
    let source := "let m = macro(x) \x7b quote(f) \x7d; " ++
      "let q = quote(unquote(quote(unquote))(1)); quote([m(unquote(2))])"
    ∃ answer, Session.new.run 9 source = some answer ∧ answer.session.Reachable ∧
      answer.session.store.scope 0 = ⟨none, [("q", .quote (.int 1))]⟩ ∧
      answer.session.store.scope 2 =
        ⟨some 1, [("x", .quote (.call (.ident "unquote") [.int 2]))]⟩ ∧
      answer.reply = .value (.quote (.array [.ident "f"])) ∧
      (Expr.int 1).UnquoteFree ∧ (Expr.array [.ident "f"]).UnquoteFree := by
  intro source
  have hparse : parse source =
      .ok [.bind "m" (.macroLit ["x"] [.expr (.call (.ident "quote") [.ident "f"])]),
        .bind "q" (.call (.ident "quote") [.call (.call (.ident "unquote")
          [.call (.ident "quote") [.ident "unquote"]]) [.int 1]]),
        .expr (.call (.ident "quote")
          [.array [.call (.ident "m") [.call (.ident "unquote") [.int 2]]]])] := by
    dsimp only [source]
    cbv
  have hanswer : ∃ answer, Session.new.run 9 source = some answer ∧
      answer.session.values = ⟨0⟩ ∧
      answer.session.store.scope 0 = ⟨none, [("q", .quote (.int 1))]⟩ ∧
      answer.session.store.scope 2 =
        ⟨some 1, [("x", .quote (.call (.ident "unquote") [.int 2]))]⟩ ∧
      answer.reply = .value (.quote (.array [.ident "f"])) := by
    refine ⟨?answer, ?run, ?values, ?bound, ?frame, ?reply⟩
    case run =>
      rw [Session.run_of_parse hparse]
      cbv
      rfl
    all_goals rfl
  obtain ⟨answer, hrun, hvalues, hbound, hframe, hreply⟩ := hanswer
  have hreach := Session.Reachable.run .new hrun
  refine ⟨answer, hrun, hreach, hbound, hframe, hreply, ?_, ?_⟩
  · have hfirst := (session_unquoteFree hreach).1 0 (by rw [hvalues]; exact .self)
    rw [hbound] at hfirst
    exact hfirst ("q", .quote (.int 1)) (List.mem_singleton_self _) (.int 1) .self
  · exact (session_unquoteFree .new).2 9 _ answer hrun _ hreply _ .self

end MonkeyLang
