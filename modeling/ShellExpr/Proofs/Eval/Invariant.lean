import Mathlib.Tactic.Set
import ShellExpr.Proofs.Eval.Trace

/-!
# Invariants

What each step of an evaluation keeps, the whole evaluation keeps. An invariant here relates the
world before, the world after and the notes in between. It may use that the eggexes of the store are
as they should be: they stay so.

* `Invariant`: what the steps keep.
* `Invariant.trace`: the trace of an expression keeps it.
-/

namespace ShellExpr

variable {T Q : Eggex → Prop} {P : World → World → List Event → Prop}

/-- What the steps of an evaluation keep. -/
structure Invariant (T : Eggex → Prop) (P : World → World → List Event → Prop) : Prop where
  calm {w w' : World} : w.Calm w' → P w w' []
  append {u v w : World} {es es' : List Event} : P u v es → P v w es' → P u w (es ++ es')
  deeper {w w' : World} {es : List Event} (d d' : Nat) :
    P { w with depth := d } w' es → P w { w' with depth := d' } es
  enter (w : World) (path : List Expr) : P w w [.enter path]
  value (w : World) {v : Value} : v.Holds T → P w w [.value v]
  link (w : World) (op : CompareOp) (left right : Value) :
    P w (w.withGroups (lastDecided w.store.groups [.link op left right])) [.link op left right]

/-- Whether an evaluation keeps an invariant, the eggexes of the store stay as they should be and a
result is as it should be. -/
structure Outcome.Keeps {α : Type} (T : Eggex → Prop) (P : World → World → List Event → Prop)
    (G : α → Prop) (w : World) (o : Outcome α) : Prop where
  holds : o.world.store.Holds T
  kept : P w o.world o.events
  result : ∀ a, o.result = .ok a → G a

/-- The evaluation keeps the invariant wherever it starts. -/
def Traced.Keeps {α : Type} (T : Eggex → Prop) (P : World → World → List Event → Prop)
    (G : α → Prop) (x : Traced α) : Prop :=
  ∀ path w, w.store.Holds T → (x path w).Keeps T P G w

namespace Invariant

theorem refl (hP : Invariant T P) (w : World) : P w w [] := hP.calm (.refl w)

theorem keeps_pure (hP : Invariant T P) {α : Type} {G : α → Prop} {a : α} (h : G a) :
    Traced.Keeps T P G (pure a) := by
  intro path w hw
  refine ⟨hw, hP.refl w, fun b hb => ?_⟩
  obtain rfl := Except.ok.inj hb
  exact h

theorem keeps_bind (hP : Invariant T P) {α β : Type} {G : α → Prop} {H : β → Prop} {x : Traced α}
    {f : α → Traced β} (hx : x.Keeps T P G) (hf : ∀ a, G a → (f a).Keeps T P H) :
    (x >>= f).Keeps T P H := by
  intro path w hw
  have h := hx path w hw
  cases hr : (x path w).result with
  | error e =>
    rw [Traced.bind_of_error hr]
    exact ⟨h.holds, h.kept, fun b hb => by contradiction⟩
  | ok a =>
    rw [Traced.bind_of_ok hr]
    have h' := hf a (h.result a hr) path _ h.holds
    exact ⟨h'.holds, hP.append h.kept h'.kept, h'.result⟩

theorem keeps_act (hP : Invariant T P) {α : Type} {G : α → Prop} {x : Eval α} (hx : Eval.Calm x)
    (hy : Eval.Yields T G x) : Traced.Keeps T P G (Machine.act x) := by
  intro path w hw
  refine ⟨?_, hP.calm (hx w), fun a ha => hy w a hw ha⟩
  show (x.outcome w).2.store.Holds T
  rw [(hx w).store]
  exact hw

theorem keeps_link (hP : Invariant T P) (op : CompareOp) (opSpan : Span) (left right : Value) :
    Traced.Keeps T P (fun _ => True) (Machine.link op opSpan left right) := by
  intro path w hw
  have hl := Eval.world_link op opSpan left right w
  refine ⟨?_, ?_, fun _ _ => trivial⟩
  · show ((Eval.link op opSpan left right).outcome w).2.store.Holds T
    rw [hl]
    exact hw
  · show P w ((Eval.link op opSpan left right).outcome w).2 [.link op left right]
    rw [hl]
    exact hP.link w op left right

/-- A value is noted if there is one. -/
theorem ofResult (hP : Invariant T P) {r : Except EvalError Value} (w : World)
    (hr : ∀ v, r = .ok v → v.Holds T) : P w w (Event.ofResult r) := by
  cases r with
  | error e => exact hP.refl w
  | ok v => exact hP.value w (hr v rfl)

theorem keeps_enter (hP : Invariant T P) (limit : Option Nat) (e : Expr) {x : Traced Value}
    (hx : x.Keeps T P (Value.Holds T)) :
    Traced.Keeps T P (Value.Holds T) (Machine.enter limit e x) := by
  intro path w hw
  show (Traced.enter limit e x path w).Keeps T P (Value.Holds T) w
  unfold Traced.enter
  split
  · exact ⟨hw, hP.enter w _, fun v hv => by contradiction⟩
  · have h := hx (e :: path) { w with depth := w.depth + 1 } hw
    set o := x (e :: path) { w with depth := w.depth + 1 }
    -- the invariant does not look at the depth, which is another inside
    have hbody := hP.deeper (w.depth + 1) (o.world.depth - 1) h.kept
    refine ⟨h.holds, ?_, h.result⟩
    exact hP.append (hP.append (hP.enter w _) hbody) (hP.ofResult _ h.result)

theorem respects (hP : Invariant T P) (limit : Option Nat) :
    Respects (m := Traced) (n := Traced) T limit limit fun G x _ => x.Keeps T P G where
  pure := hP.keeps_pure
  bind := hP.keeps_bind
  act := hP.keeps_act
  link := hP.keeps_link _ _ _ _
  enter := hP.keeps_enter limit _

/-- **The trace of an expression keeps an invariant.** -/
theorem trace (hP : Invariant T P) {host : Host} (hs : host.Sound T Q) {e : Expr}
    (hq : ∀ t ∈ e.eggexes, Q t) {w : World} (hw : w.store.Holds T) :
    (trace host e w).Keeps T P (Value.Holds T)
      { w with options := w.options.push Flags.errexit } :=
  (hP.respects host.limit).eval hs e hq [] _ hw

end Invariant

end ShellExpr
