import ShellExpr.Proofs.Eval.Invariant

/-!
# Match groups

Evaluating an expression writes no variable. Of the store it changes only the match groups, and
those only by links `~` that get an answer from the engine: a match keeps its groups, a miss clears
them.

* `isSome_decided?_iff`: the links that decide the groups are those by `~` that do not fail.
* `store_evalExpr`: **the store after an expression**, whatever comes of it.
-/

namespace ShellExpr

/-- A link by `~` decides the groups just if it does not fail: its operands are a text and a
pattern, and the pattern is well-formed. -/
theorem isSome_decided?_iff (opSpan : Span) (left right : Value) (w : World) :
    (Event.link .regex left right).decided?.isSome ↔
      ∃ b, ((Eval.link .regex opSpan left right).outcome w).1 = .ok (Eval.Link.holds b) := by
  obtain ⟨r, hr, hd⟩ := Eval.outcome_regexMatch true opSpan left right w
  have hl : ((Eval.link .regex opSpan left right).outcome w).1 = r.map Eval.Link.holds := by
    show ((Eval.regexMatch true opSpan left right >>= fun b => pure (Eval.Link.holds b)).outcome
      w).1 = _
    rw [Eval.outcome_bind, hr]
    cases r <;> rfl
  rw [hl, ← hd]
  cases r with
  | error e =>
    refine ⟨fun h => by contradiction, ?_⟩
    rintro ⟨b, hb⟩
    contradiction
  | ok b => exact ⟨fun _ => ⟨b, rfl⟩, fun _ => rfl⟩

/-- Only the match groups of the store change, to what was decided last. -/
theorem groups_invariant : Invariant (fun _ => True) fun w w' events =>
    w'.store = { w.store with groups := lastDecided w.store.groups events } where
  calm {w w'} h := by
    rw [h.store, lastDecided_nil]
  append {u v w es es'} h h' := by
    rw [h', h, lastDecided_append]
  deeper _ _ h := h
  enter w path := by
    have hd : (Event.enter path).decided? = none := rfl
    rw [lastDecided_singleton, hd]
    rfl
  value w v _ := by
    have hd : (Event.value v).decided? = none := rfl
    rw [lastDecided_singleton, hd]
    rfl
  link w op left right := rfl

/-- **What an expression does to the store.** Whether it gives a value or fails, the variables of
all frames are as before. The match groups are those decided by the last link `~` it reached that
got an answer, and as before without such a link. -/
theorem store_evalExpr (host : Host) (e : Expr) (w : World) :
    let o := (evalExpr host e).outcome w
    let t := trace host e w
    o.1 = t.result.mapError EvalError.classify ∧ o.2.store.globals = w.store.globals ∧
      o.2.store.frames = w.store.frames ∧
      o.2.store.groups = lastDecided w.store.groups t.events := by
  intro o t
  have ho : o = (t.result.mapError EvalError.classify, { t.world with
      options := t.world.options.pop }) := evalExpr_eq_trace host e w
  have hk : t.Keeps _ _ _ _ :=
    groups_invariant.trace host.sound_true (fun t _ => trivial) (Store.holds_true w.store)
  have hs : o.2.store = { w.store with groups := lastDecided w.store.groups t.events } := by
    rw [ho]
    exact hk.kept
  rw [hs, ho]
  exact ⟨rfl, rfl, rfl, rfl⟩

end ShellExpr
