import ShellExpr.Host.Tables
import ShellExpr.Proofs.Eval.Correspondence
import ShellExpr.Proofs.Eval.Trace

/-!
# The commands an evaluation runs

Evaluation comes to the command substitutions of an expression one after the other and never twice
to the same. What it skips or does not reach any more does not run.

* `RunsIn`: a computation runs commands of a list, in its order.
* `runs_evalExpr`: **what an expression runs**.
-/

namespace ShellExpr

open Eval

variable {α β : Type} {whole : Prop} {order order' : List CommandSub}

/-- Whether a computation runs commands in some order, each at most once: maybe not all, but all if
`whole` is the case and it does not fail. -/
def RunsIn (whole : Prop) (order : List CommandSub) (x : Eval α) : Prop :=
  ∀ w : World, ∃ ran, (x.outcome w).2.runs = w.runs ++ ran ∧ (ran.map Run.sub).Sublist order ∧
    (whole → (∃ a, (x.outcome w).1 = .ok a) → ran.map Run.sub = order)

namespace RunsIn

/-- A computation that runs nothing. -/
theorem of_runs_eq {x : Eval α} (h : ∀ w, (x.outcome w).2.runs = w.runs) : RunsIn whole [] x := by
  intro w
  exact ⟨[], by rw [h, List.append_nil], List.nil_sublist _, fun _ _ => rfl⟩

theorem fail (order : List CommandSub) (e : EvalError) :
    RunsIn whole order (Eval.fail e : Eval α) := by
  intro w
  refine ⟨[], (List.append_nil _).symm, List.nil_sublist _, ?_⟩
  rintro - ⟨a, ha⟩
  contradiction

/-- What a computation and its continuation run, one after the other. -/
theorem bind {x : Eval α} {f : α → Eval β} (hx : RunsIn whole order x)
    (hf : ∀ a, x.Gives a → RunsIn whole order' (f a)) :
    RunsIn whole (order ++ order') (x >>= f) := by
  intro w
  obtain ⟨ran, hr, hsub, hall⟩ := hx w
  have hg : ∀ a, (x.outcome w).1 = .ok a → x.Gives a := fun a ha => ⟨w, ha⟩
  rw [outcome_bind]
  generalize x.outcome w = o at hr hall hg ⊢
  obtain ⟨r, w'⟩ := o
  cases r with
  | error e =>
    refine ⟨ran, hr, hsub.trans (List.sublist_append_left _ _), ?_⟩
    rintro - ⟨a, ha⟩
    contradiction
  | ok a =>
    obtain ⟨ran', hr', hsub', hall'⟩ := hf a (hg a rfl) w'
    refine ⟨ran ++ ran', ?_, ?_, fun hw hb => ?_⟩
    · rw [← List.append_assoc, ← hr]
      exact hr'
    · rw [List.map_append]
      exact hsub.append hsub'
    · rw [List.map_append, hall hw ⟨a, rfl⟩, hall' hw hb]

theorem skip {x : Eval α} (hw : ¬ whole) (h : order.Sublist order') (hx : RunsIn whole order x) :
    RunsIn whole order' x := by
  intro w
  obtain ⟨ran, hr, hsub, -⟩ := hx w
  exact ⟨ran, hr, hsub.trans h, fun hw' => (hw hw').elim⟩

theorem command (host : Host) (sub : CommandSub) : RunsIn whole [sub] (Eval.command host sub) :=
  fun w => ⟨[⟨sub, w.options.current, w.options.depth⟩], rfl, .refl _, fun _ _ => rfl⟩

theorem nested {x : Eval α} (limit : Option Nat) (span : Span) (hx : RunsIn whole order x) :
    RunsIn whole order (Eval.nested limit span x) := by
  intro w
  rw [outcome_nested]
  split
  · exact fail order _ w
  · exact hx { w with depth := w.depth + 1 }

theorem runs_lookup (name : String) (span : Span) (w : World) :
    ((lookup name span).outcome w).2.runs = w.runs := by
  rw [outcome_lookup]
  split <;> rfl

/-- **Each step of an evaluation runs what is its own.** -/
theorem corresponds (host : Host) (whole : Prop) :
    Corresponds host id (fun _ => True) whole fun order _ x _ => RunsIn whole order x where
  injective := Function.injective_id
  commutes := host.commutes_id
  pure _ _ := of_runs_eq fun _ => rfl
  fail order _ e := fail order e
  bind := bind
  skip := skip
  fresh := of_runs_eq fun _ => rfl
  lookup name span _ := of_runs_eq (runs_lookup name span)
  compile tree _ := of_runs_eq fun w => by rw [outcome_compileEggex]
  setGroups _ := of_runs_eq fun _ => rfl
  command sub _ := command host sub
  nested span hx := nested host.limit span hx

end RunsIn

/-- **The commands that an expression runs** are among those written in it, each at most once and in
the order of evaluation; a block never is. If the expression skips no operand and gives a value, it
has run all of them. -/
theorem runs_evalExpr (host : Host) (e : Expr) (w : World) :
    let o := (evalExpr host e).outcome w
    ∃ ran, o.2.runs = w.runs ++ ran ∧ (ran.map Run.sub).Sublist e.commands ∧
      (∀ r ∈ ran, r.sub.kind ≠ .block) ∧
      (e.IsStraight → (∃ v, o.1 = .ok v) → ran.map Run.sub = e.commands) := by
  intro o
  have hruns : RunsIn e.IsStraight e.commands (e.eval host : Eval Value) :=
    (RunsIn.corresponds host e.IsStraight).eval e fun n hn => ⟨n.readsIn_true, fun hs => hs n hn⟩
  obtain ⟨ran, hr, hsub, hall⟩ := hruns { w with options := w.options.push Flags.errexit }
  refine ⟨ran, hr, hsub, fun r hran => ?_, ?_⟩
  · exact Expr.kind_of_mem_commands (hsub.subset (List.mem_map_of_mem hran))
  · rintro hs ⟨v, hv⟩
    exact hall hs ⟨v, ok_of_mapError hv⟩

/-- Two commands run and a block does not, in a dict whose key comes before its value. -/
theorem runs_evalExpr_dict :
    let host : Host := ({ outputs := [("a", .ok "A")] } : Tables).host
    let a : CommandSub := ⟨.output, "a", .dummy⟩
    let b : CommandSub := ⟨.fields, "b", .dummy⟩
    let e : Expr := .dict [.commandSub a .dummy]
      [.list [.commandSub b .dummy, .commandSub ⟨.block, "c", .dummy⟩ .dummy] .dummy] .dummy
    e.IsStraight ∧ (∃ v, ((evalExpr host e).outcome {}).1 = .ok v) ∧ e.commands = [a, b] ∧
      ((evalExpr host e).outcome {}).2.runs.map Run.sub = [a, b] := by
  intro host a b e
  have hs : e.IsStraight := by decide
  have hok : ∃ v, ((evalExpr host e).outcome {}).1 = .ok v := ok_of_isOk (by decide +kernel)
  have hc : e.commands = [a, b] := rfl
  obtain ⟨ran, hr, -, -, hall⟩ := runs_evalExpr host e {}
  refine ⟨hs, hok, hc, ?_⟩
  rw [hr, ← hc]
  exact hall hs hok

end ShellExpr
