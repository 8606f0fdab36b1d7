import ShellExpr.Proofs.Eval.Abstraction

/-!
# Traces

A second machine notes what an evaluation goes through: the expressions entered, with those open
around them, the values they get, and the links of comparison chains with their operands. Leaving
the notes out gives the evaluation back.

* `Traced`: evaluations with notes.
* `trace`: the evaluation of an expression with notes.
* `evalExpr_eq_trace`: it is the evaluation of that expression.
* `lastDecided`: the match groups that the links noted decide.
-/

namespace ShellExpr

/-- What is noted of an evaluation. -/
inductive Event where
  /-- An expression is entered: the path from it up to the outermost one, both included. -/
  | enter (path : List Expr)
  /-- An expression has got its value. -/
  | value (v : Value)
  /-- A link of a comparison chain is reached. -/
  | link (op : CompareOp) (left right : Value)

/-- The end of an evaluation, and what was noted on the way. -/
structure Outcome (α : Type) where
  result : Except EvalError α
  world : World
  events : List Event

/-- The value that a result gives, if any. -/
def Event.ofResult : Except EvalError Value → List Event
  | .ok v => [.value v]
  | .error _ => []

/-- An evaluation with notes, inside the expressions that are open and in a world. -/
def Traced (α : Type) : Type := List Expr → World → Outcome α

namespace Traced

variable {α β : Type}

/-- Goes on with a result, if there is one. -/
def andThen (x : Traced α) (f : α → Traced β) : Traced β := fun path w =>
  let o := x path w
  match o.result with
  | .ok a =>
    let o' := f a path o.world
    ⟨o'.result, o'.world, o.events ++ o'.events⟩
  | .error e => ⟨.error e, o.world, o.events⟩

/-- Enters an expression, as `Eval.nested` does. -/
def enter (limit : Option Nat) (e : Expr) (body : Traced Value) : Traced Value := fun path w =>
  if limit.any (· ≤ w.depth) then
    ⟨.error ((Fault.tooDeep (limit.getD 0)).placed e.span), w, [.enter (e :: path)]⟩
  else
    let o := body (e :: path) { w with depth := w.depth + 1 }
    ⟨o.result, { o.world with depth := o.world.depth - 1 },
      [.enter (e :: path)] ++ o.events ++ Event.ofResult o.result⟩

instance : Monad Traced where
  pure a := fun _ w => ⟨.ok a, w, []⟩
  bind := andThen

instance : Machine Traced where
  act x := fun _ w => ⟨(x.outcome w).1, (x.outcome w).2, []⟩
  link op opSpan left right := fun _ w =>
    let o := (Eval.link op opSpan left right).outcome w
    ⟨o.1, o.2, [.link op left right]⟩
  enter := enter

theorem bind_of_ok {x : Traced α} {f : α → Traced β} {path : List Expr} {w : World} {a : α}
    (h : (x path w).result = .ok a) :
    (x >>= f) path w = ⟨(f a path (x path w).world).result, (f a path (x path w).world).world,
      (x path w).events ++ (f a path (x path w).world).events⟩ := by
  show andThen x f path w = _
  simp only [andThen, h]

theorem bind_of_error {x : Traced α} {f : α → Traced β} {path : List Expr} {w : World}
    {e : EvalError} (h : (x path w).result = .error e) :
    (x >>= f) path w = ⟨.error e, (x path w).world, (x path w).events⟩ := by
  show andThen x f path w = _
  simp only [andThen, h]

end Traced

/-- The evaluation of an expression with notes, with the flag for commands turned on. -/
def trace (host : Host) (e : Expr) (w : World) : Outcome Value :=
  (e.eval host : Traced Value) [] { w with options := w.options.push Flags.errexit }

/-! ### Leaving the notes out -/

theorem outcome_nested {limit : Option Nat} {span : Span} {α : Type} (body : Eval α) (w : World) :
    (Eval.nested limit span body).outcome w =
      if limit.any (· ≤ w.depth) then
        (.error ((Fault.tooDeep (limit.getD 0)).placed span), w)
      else
        ((body.outcome { w with depth := w.depth + 1 }).1,
          { (body.outcome { w with depth := w.depth + 1 }).2 with
            depth := (body.outcome { w with depth := w.depth + 1 }).2.depth - 1 }) := by
  cases limit with
  | none => rfl
  | some n => by_cases h : n ≤ w.depth <;> simp [Eval.nested, h]

/-- The two evaluations end in the same way, and a result satisfies what it should. -/
def Erases {α : Type} (G : α → Prop) (x : Traced α) (y : Eval α) : Prop :=
  ∀ path w, ((x path w).result, (x path w).world) = y.outcome w ∧
    ∀ a, (x path w).result = .ok a → G a

theorem erases_respects (limit : Option Nat) :
    Respects (fun _ => True) limit limit @Erases where
  pure {α G a} h := by
    intro path w
    refine ⟨rfl, fun b hb => ?_⟩
    obtain rfl := Except.ok.inj hb
    exact h
  bind {α β G H x y f g} hx hf := by
    intro path w
    obtain ⟨hx, hG⟩ := hx path w
    -- both go on from the same result in the same world, or end with the same error
    rw [Eval.outcome_bind, ← hx]
    cases hr : (x path w).result with
    | ok a =>
      rw [Traced.bind_of_ok hr]
      exact hf a (hG a hr) path (x path w).world
    | error e =>
      rw [Traced.bind_of_error hr]
      exact ⟨rfl, fun b hb => by contradiction⟩
  act {α G x} _ hy := by
    intro path w
    exact ⟨rfl, fun a ha => hy w a (Store.holds_true _) ha⟩
  link := fun path w => ⟨rfl, fun _ _ => trivial⟩
  enter {e x y} hx := by
    intro path w
    refine ⟨?_, fun v _ t _ => trivial⟩
    show ((Traced.enter limit e x path w).result, (Traced.enter limit e x path w).world) =
      (Eval.nested limit e.span y).outcome w
    rw [outcome_nested, ← (hx (e :: path) _).1]
    unfold Traced.enter
    split <;> rfl

/-- **The notes change nothing.** -/
theorem eval_erases (host : Host) (e : Expr) (path : List Expr) (w : World) :
    (((e.eval host : Traced Value) path w).result, ((e.eval host : Traced Value) path w).world) =
      (e.eval host : Eval Value).outcome w :=
  ((erases_respects host.limit).eval host.sound_true e (fun _ _ => trivial) path w).1

theorem outcome_evalExpr (host : Host) (e : Expr) (w : World) :
    (evalExpr host e).outcome w =
      let o := (e.eval host : Eval Value).outcome
        { w with options := w.options.push Flags.errexit }
      (o.1.mapError EvalError.classify, { o.2 with options := o.2.options.pop }) := rfl

/-- **The trace of an expression is of its evaluation**, which then reclassifies the error and turns
the flag off again. -/
theorem evalExpr_eq_trace (host : Host) (e : Expr) (w : World) :
    (evalExpr host e).outcome w = ((trace host e w).result.mapError EvalError.classify,
      { (trace host e w).world with options := (trace host e w).world.options.pop }) := by
  rw [outcome_evalExpr, ← eval_erases host e []]
  rfl

/-- Evaluation starts by entering the expression. -/
theorem eval_eq_enter (host : Host) (e : Expr) :
    ∃ body, (e.eval host : Traced Value) = Traced.enter host.limit e body := by
  cases e <;> exact ⟨_, rfl⟩

/-- The value of an expression is noted. -/
theorem value_mem_trace {host : Host} {e : Expr} {w : World} {v : Value}
    (h : (trace host e w).result = .ok v) : .value v ∈ (trace host e w).events := by
  obtain ⟨body, hb⟩ := eval_eq_enter host e
  unfold trace at h ⊢
  rw [hb] at h ⊢
  unfold Traced.enter at h ⊢
  split at h
  · contradiction
  · rename_i hlim
    simp only at h
    rw [if_neg hlim]
    simp only [h]
    exact List.mem_append_right _ List.mem_cons_self

/-! ### Links -/

/-- The pattern that a right operand is, if it is one. -/
def Value.pattern? : Value → Option String
  | .str _ s => some s
  | .eggex _ e => (e.tree.render).toOption.map String.ofList
  | _ => none

/-- The groups of a match, none of a miss. -/
def Verdict.groups? : Verdict → Option (List String)
  | .hit groups => some groups
  | .miss => some []
  | .rejected => none

/-- The match groups that a step decides. Only a link by `~` does so, between a text and a pattern
that is well-formed. -/
def Event.decided? : Event → Option (List String)
  | .link .regex (.str _ text) right =>
    right.pattern?.bind fun pattern => (Verdict.of pattern text).groups?
  | _ => none

/-- The match groups after some steps. -/
def lastDecided (groups : List String) (events : List Event) : List String :=
  (events.filterMap Event.decided?).getLast?.getD groups

/-- The world with other match groups. -/
def World.withGroups (w : World) (groups : List String) : World :=
  { w with store := { w.store with groups } }

@[simp] theorem lastDecided_nil (groups : List String) : lastDecided groups [] = groups := rfl

theorem lastDecided_append (groups : List String) (es es' : List Event) :
    lastDecided groups (es ++ es') = lastDecided (lastDecided groups es) es' := by
  unfold lastDecided
  rw [List.filterMap_append, List.getLast?_append]
  cases (es'.filterMap Event.decided?).getLast? <;> rfl

theorem lastDecided_singleton (groups : List String) (e : Event) :
    lastDecided groups [e] = e.decided?.getD groups := by
  unfold lastDecided
  cases h : e.decided? with
  | none => rw [List.filterMap_cons_none h]; rfl
  | some g => rw [List.filterMap_cons_some h]; rfl

namespace Eval

/-- A right operand gives its pattern or fails, and the world stays as it is. -/
theorem outcome_patternOf (opSpan : Span) (right : Value) (w : World) :
    ∃ r, (patternOf opSpan right).outcome w = (r, w) ∧ r.toOption = right.pattern? := by
  cases right with
  | str _ s => exact ⟨.ok s, rfl, rfl⟩
  | eggex _ e =>
    unfold patternOf Value.pattern?
    simp only
    cases e.tree.render with
    | ok cs => exact ⟨.ok (String.ofList cs), rfl, rfl⟩
    | error f => exact ⟨.error f.unplaced, rfl, rfl⟩
  | _ => exact ⟨.error _, rfl, rfl⟩

/-- A match keeps the groups it decides, if it is to, and all else in the world stays as it is. It
fails just if it decides none. -/
theorem outcome_regexMatch (keepGroups : Bool) (opSpan : Span) (left right : Value) (w : World) :
    ∃ r, (regexMatch keepGroups opSpan left right).outcome w = (r, if keepGroups then
        w.withGroups ((Event.link .regex left right).decided?.getD w.store.groups) else w) ∧
      r.toOption.isSome = (Event.link .regex left right).decided?.isSome := by
  obtain ⟨r, hr, hp⟩ := outcome_patternOf opSpan right w
  unfold regexMatch
  rw [outcome_bind, hr]
  cases left with
  | str _ text =>
    simp only [Event.decided?, ← hp]
    cases r with
    | error e =>
      refine ⟨.error e, ?_, rfl⟩
      cases keepGroups <;> rfl
    | ok pattern =>
      -- the groups are written only once the engine has answered
      simp only [Except.toOption, Option.bind_some]
      cases Verdict.of pattern text with
      | rejected => exact ⟨.error _, by cases keepGroups <;> rfl, rfl⟩
      | miss => exact ⟨.ok false, by cases keepGroups <;> rfl, rfl⟩
      | hit groups => exact ⟨.ok true, by cases keepGroups <;> rfl, rfl⟩
  | _ => cases r <;> exact ⟨.error _, by cases keepGroups <;> rfl, rfl⟩

theorem world_regexMatch (keepGroups : Bool) (opSpan : Span) (left right : Value) (w : World) :
    ((regexMatch keepGroups opSpan left right).outcome w).2 =
      if keepGroups then w.withGroups ((Event.link .regex left right).decided?.getD w.store.groups)
      else w := by
  obtain ⟨r, hr, -⟩ := outcome_regexMatch keepGroups opSpan left right w
  rw [hr]

theorem world_globMatch (op : CompareOp) (opSpan : Span) (left right : Value) (w : World) :
    ((globMatch op opSpan left right).outcome w).2 = w := by
  unfold globMatch
  split <;> rfl

theorem world_ofFault {α : Type} (span : Span) (r : Except Fault α) (w : World) :
    ((ofFault span r).outcome w).2 = w := by
  cases r <;> rfl

theorem world_map {α β : Type} (x : Eval α) (f : α → β) (w : World) :
    ((x >>= fun a => pure (f a)).outcome w).2 = (x.outcome w).2 := by
  rw [outcome_bind]
  rcases x.outcome w with ⟨r, w'⟩
  cases r <;> rfl

/-- **A link changes no more of the world than the match groups**, which become those it decides. -/
theorem world_link (op : CompareOp) (opSpan : Span) (left right : Value) (w : World) :
    ((link op opSpan left right).outcome w).2 =
      w.withGroups (lastDecided w.store.groups [.link op left right]) := by
  rw [lastDecided_singleton]
  cases op with
  | regex => exact (world_map _ _ w).trans (world_regexMatch true opSpan left right w)
  | notRegex => exact (world_map _ _ w).trans (world_regexMatch false opSpan left right w)
  | glob => exact (world_map _ _ w).trans (world_globMatch .glob opSpan left right w)
  | notGlob => exact (world_map _ _ w).trans (world_globMatch .notGlob opSpan left right w)
  | _ => exact (world_map _ _ w).trans (world_ofFault _ _ w)

end Eval

end ShellExpr
