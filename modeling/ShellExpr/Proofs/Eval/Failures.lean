import ShellExpr.Proofs.Eval.Trace

/-!
# Failures on the way out

An evaluation that fails ends expression by expression, from the inside out. A machine notes each of
them with the error that it fails with. Nothing catches an error and nothing on the way out touches
it, so all these errors are one.

* `Watched`: evaluations with notes of what has failed.
* `failures`: the expressions that fail in an evaluation, each with its error.
* `failures_of_error`: **all of them fail with the error of the whole**.
-/

namespace ShellExpr

/-- What has failed, each expression with its error. -/
abbrev Failures := List (Expr × EvalError)

/-- An evaluation that notes what fails. -/
def Watched (α : Type) : Type := World → (Except EvalError α × World) × Failures

namespace Watched

variable {α β : Type}

/-- Goes on with a result, if there is one. -/
def andThen (x : Watched α) (f : α → Watched β) : Watched β := fun w =>
  let o := x w
  match o.1.1 with
  | .ok a =>
    let o' := f a o.1.2
    (o'.1, o.2 ++ o'.2)
  | .error err => ((.error err, o.1.2), o.2)

/-- The note of an expression that has ended. -/
def noteOf (e : Expr) : Except EvalError Value → Failures
  | .ok _ => []
  | .error err => [(e, err)]

/-- Enters an expression, as `Eval.nested` does, and notes how it ends. -/
def enter (limit : Option Nat) (e : Expr) (body : Watched Value) : Watched Value := fun w =>
  if limit.any (· ≤ w.depth) then
    let r := .error ((Fault.tooDeep (limit.getD 0)).placed e.span)
    ((r, w), noteOf e r)
  else
    let o := body { w with depth := w.depth + 1 }
    ((o.1.1, { o.1.2 with depth := o.1.2.depth - 1 }), o.2 ++ noteOf e o.1.1)

instance : Monad Watched where
  pure a := fun w => ((.ok a, w), [])
  bind := andThen

instance : Machine Watched where
  act x := fun w => (x.outcome w, [])
  link op opSpan left right := fun w => ((Eval.link op opSpan left right).outcome w, [])
  enter := enter

theorem bind_of_ok {x : Watched α} {f : α → Watched β} {w w' : World} {a : α} {notes : Failures}
    (h : x w = ((.ok a, w'), notes)) : (x >>= f) w = ((f a w').1, notes ++ (f a w').2) := by
  show andThen x f w = _
  simp only [andThen, h]

theorem bind_of_error {x : Watched α} {f : α → Watched β} {w w' : World} {err : EvalError}
    {notes : Failures} (h : x w = ((.error err, w'), notes)) :
    (x >>= f) w = ((.error err, w'), notes) := by
  show andThen x f w = _
  simp only [andThen, h]

end Watched

/-- What fails in the evaluation of an expression, in the order in which it ends. -/
def failures (host : Host) (e : Expr) (w : World) : Failures :=
  ((e.eval host : Watched Value) { w with options := w.options.push Flags.errexit }).2

/-- Whether the notes go with how an evaluation ends: nothing has failed if it gives a result, and
all that has failed has done so with its error. -/
def Failures.Fit {α : Type} (notes : Failures) : Except EvalError α → Prop
  | .ok _ => notes = []
  | .error err => ∀ f ∈ notes, f.2 = err

/-! ### Leaving the notes out -/

/-- The two evaluations end in the same way, a result satisfies what it should, and the notes go with
the end. -/
structure WatchesAt {α : Type} (G : α → Prop) (x : Watched α) (y : Eval α) (w : World) : Prop where
  same : (x w).1 = y.outcome w
  result : ∀ a, (x w).1.1 = .ok a → G a
  fit : (x w).2.Fit (x w).1.1

/-- Two evaluations that end in the same way in every world, one of them with notes. -/
def Watches {α : Type} (G : α → Prop) (x : Watched α) (y : Eval α) : Prop :=
  ∀ w, WatchesAt G x y w

theorem watches_act {α : Type} {G : α → Prop} {x : Eval α}
    (h : ∀ w a, (x.outcome w).1 = .ok a → G a) :
    Watches G (fun w => (x.outcome w, [])) x := by
  intro w
  refine ⟨rfl, h w, ?_⟩
  cases (x.outcome w).1 with
  | ok a => exact rfl
  | error err => exact fun f hf => by contradiction

theorem watches_respects (limit : Option Nat) :
    Respects (fun _ => True) limit limit @Watches where
  pure {α G a} h := by
    intro w
    refine ⟨rfl, fun b hb => ?_, rfl⟩
    obtain rfl := Except.ok.inj hb
    exact h
  bind {α β G H x y f g} hx hf := by
    intro w
    obtain ⟨hsame, hresult, hfit⟩ := hx w
    rcases hr : x w with ⟨⟨r, w'⟩, notes⟩
    rw [hr] at hsame hresult hfit
    cases r with
    | ok a =>
      obtain rfl : notes = [] := hfit
      obtain ⟨hsame', hresult', hfit'⟩ := hf a (hresult a rfl) w'
      have hgo : (x >>= f) w = f a w' := Watched.bind_of_ok hr
      refine ⟨?_, ?_, ?_⟩
      · rw [hgo, hsame', Eval.outcome_bind, ← hsame]
      · rwa [hgo]
      · rwa [hgo]
    | error err =>
      -- nothing more is evaluated, so nothing more is noted
      have hstop : (x >>= f) w = ((.error err, w'), notes) := Watched.bind_of_error hr
      refine ⟨?_, ?_, ?_⟩
      · rw [hstop, Eval.outcome_bind, ← hsame]
      · rw [hstop]
        exact fun a ha => by contradiction
      · rwa [hstop]
  act {α G x} _ hy := watches_act fun w a ha => hy w a (Store.holds_true _) ha
  link := watches_act fun _ _ _ => trivial
  enter {e x y} hx := by
    intro w
    refine ⟨?_, fun v _ t _ => trivial, ?_⟩
    · show (Watched.enter limit e x w).1 = (Eval.nested limit e.span y).outcome w
      rw [outcome_nested, ← (hx _).same]
      unfold Watched.enter
      split <;> rfl
    · show (Watched.enter limit e x w).2.Fit (Watched.enter limit e x w).1.1
      unfold Watched.enter
      split
      · exact fun f hf => List.mem_singleton.mp hf ▸ rfl
      · have hfit := (hx { w with depth := w.depth + 1 }).fit
        simp only
        -- the expression joins what has failed in it, with the same error
        cases hr : (x { w with depth := w.depth + 1 }).1.1 with
        | ok v =>
          rw [hr] at hfit
          exact List.append_eq_nil_iff.mpr ⟨hfit, rfl⟩
        | error err =>
          rw [hr] at hfit
          exact List.forall_mem_append.mpr ⟨hfit, fun f hf => List.mem_singleton.mp hf ▸ rfl⟩

/-- **The notes change nothing**, and go with how the evaluation ends. -/
theorem eval_watches (host : Host) (e : Expr) :
    Watches (Value.Holds fun _ => True) (e.eval host : Watched Value) (e.eval host : Eval Value) :=
  (watches_respects host.limit).eval host.sound_true e fun _ _ => trivial

/-- An expression that fails is noted last. -/
theorem getLast?_of_error {host : Host} {e : Expr} {w : World} {err : EvalError}
    (h : ((e.eval host : Watched Value) w).1.1 = .error err) :
    ((e.eval host : Watched Value) w).2.getLast? = some (e, err) := by
  obtain ⟨body, hb⟩ : ∃ body, (e.eval host : Watched Value) = Watched.enter host.limit e body := by
    cases e <;> exact ⟨_, rfl⟩
  rw [hb] at h ⊢
  unfold Watched.enter at h ⊢
  split at h
  · rename_i hlimit
    rw [if_pos hlimit]
    exact congrArg (fun err => some (e, err)) (Except.error.inj h)
  · rename_i hlimit
    rw [if_neg hlimit]
    simp only at h ⊢
    rw [h]
    exact List.getLast?_concat

/-- **What fails in an evaluation fails with its error**, the expression itself at last; the error is
then reclassified. -/
theorem failures_of_error {host : Host} {e : Expr} {w : World} {err : EvalError}
    (h : ((evalExpr host e).outcome w).1 = .error err) :
    ∃ err', err'.classify = err ∧ (failures host e w).getLast? = some (e, err') ∧
      ∀ f ∈ failures host e w, f.2 = err' := by
  rw [outcome_evalExpr] at h
  obtain ⟨err', herr, hclass⟩ := error_of_mapError h
  obtain ⟨hsame, -, hfit⟩ :=
    eval_watches host e { w with options := w.options.push Flags.errexit }
  rw [← hsame] at herr
  rw [herr] at hfit
  exact ⟨err', hclass, getLast?_of_error herr, hfit⟩

end ShellExpr
