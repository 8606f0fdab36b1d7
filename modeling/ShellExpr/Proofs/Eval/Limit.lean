import ShellExpr.Host.Tables
import ShellExpr.Proofs.Eval.Paths

/-!
# The limit on the nesting

A limit only cuts evaluations short. Beside an evaluation with a limit runs one without, which notes
the paths it enters. As long as those are within the limit the two are the same; from the first one
that is not, the former has failed.

* `StaysWithin`: all paths entered are within the limit.
* `Limited`: how the two evaluations end.
* `evalExpr_limit`: **the same as without the limit, or cut short by it**.
-/

namespace ShellExpr

/-- All paths entered are within the limit, if `base` expressions were open before. -/
def StaysWithin (limit base : Nat) (events : List Event) : Prop :=
  ∀ path, Event.enter path ∈ events → base + path.length ≤ limit

section StaysWithin

variable {limit base : Nat}

theorem within_append {es es' : List Event} :
    StaysWithin limit base (es ++ es') ↔
      StaysWithin limit base es ∧ StaysWithin limit base es' := by
  unfold StaysWithin
  simp only [List.mem_append]
  constructor
  · intro h
    exact ⟨fun path hp => h path (.inl hp), fun path hp => h path (.inr hp)⟩
  · rintro ⟨h, h'⟩ path (hp | hp)
    · exact h path hp
    · exact h' path hp

theorem within_enter {path : List Expr} :
    StaysWithin limit base [.enter path] ↔ base + path.length ≤ limit := by
  simp [StaysWithin]

theorem within_nil : StaysWithin limit base [] := by simp [StaysWithin]

theorem within_link {op : CompareOp} {left right : Value} :
    StaysWithin limit base [.link op left right] := by simp [StaysWithin]

theorem within_ofResult (r : Except EvalError Value) :
    StaysWithin limit base (Event.ofResult r) := by
  cases r <;> simp [StaysWithin, Event.ofResult]

end StaysWithin

/-- An evaluation that the limit has cut short. It is as deep as it was at the start, and it has run
some of the commands that an evaluation without a limit runs, the first ones. -/
structure CutShort {α : Type} (limit : Nat) (before after : World)
    (c : Except EvalError α × World) : Prop where
  result : ∃ span, c.1 = .error ((Fault.tooDeep limit).placed span)
  depth : c.2.depth = before.depth
  runs : before.runs <+: c.2.runs
  fewer : c.2.runs <+: after.runs

/-- How an evaluation with a limit ends, beside one without. -/
structure Limited {α : Type} (limit base : Nat) (G : α → Prop) (w : World)
    (c : Except EvalError α × World) (o : Outcome α) : Prop where
  result : ∀ a, o.result = .ok a → G a
  depth : o.world.depth = w.depth
  runs : w.runs <+: o.world.runs
  same : StaysWithin limit base o.events → c = (o.result, o.world)
  cut : ¬ StaysWithin limit base o.events → CutShort limit w o.world c

/-- The evaluations end so, whatever is open when they start. -/
def Limits {α : Type} (limit : Nat) (G : α → Prop) (x : Eval α) (y : Traced α) : Prop :=
  ∀ base path w, w.depth = base + path.length →
    Limited limit base G w (x.outcome w) (y path w)

section Limits

variable {limit : Nat} {α β : Type} {G : α → Prop} {H : β → Prop}

theorem limits_pure {a : α} (h : G a) : Limits limit G (pure a) (pure a) := by
  intro base path w _
  refine ⟨fun b hb => ?_, rfl, List.prefix_refl _, fun _ => rfl, fun hn => ?_⟩
  · obtain rfl := Except.ok.inj hb
    exact h
  · exact absurd within_nil hn

/-- What is cut short goes on with nothing. -/
theorem CutShort.bind {x : Eval α} {f : α → Eval β} {w after after' : World}
    (h : CutShort limit w after (x.outcome w)) (hle : after.runs <+: after'.runs) :
    CutShort limit w after' ((x >>= f).outcome w) := by
  obtain ⟨⟨span, hs⟩, hd, hp, hp'⟩ := h
  rw [Eval.outcome_bind]
  rcases hc : x.outcome w with ⟨r, w'⟩
  rw [hc] at hs hd hp hp'
  subst hs
  exact ⟨⟨span, rfl⟩, hd, hp, hp'.trans hle⟩

theorem Limits.bind {x : Eval α} {y : Traced α} {f : α → Eval β} {g : α → Traced β}
    (hx : Limits limit G x y) (hf : ∀ a, G a → Limits limit H (f a) (g a)) :
    Limits limit H (x >>= f) (y >>= g) := by
  intro base path w hw
  have h := hx base path w hw
  cases hr : (y path w).result with
  | error e =>
    rw [Traced.bind_of_error hr]
    refine ⟨fun b hb => by contradiction, h.depth, h.runs, fun hin => ?_, fun hout => ?_⟩
    · rw [Eval.outcome_bind, h.same hin, hr]
    · exact (h.cut hout).bind (List.prefix_refl _)
  | ok a =>
    rw [Traced.bind_of_ok hr]
    have hw' : (y path w).world.depth = base + path.length := h.depth.trans hw
    have h' := hf a (h.result a hr) base path (y path w).world hw'
    refine ⟨h'.result, h'.depth.trans h.depth, h.runs.trans h'.runs, fun hin => ?_, fun hout => ?_⟩
    · obtain ⟨hin, hin'⟩ := within_append.mp hin
      rw [Eval.outcome_bind, h.same hin, hr]
      exact h'.same hin'
    by_cases hin : StaysWithin limit base (y path w).events
    · -- the first part is within the limit, so the second one is cut
      have hout' : ¬ StaysWithin limit base (g a path (y path w).world).events := by
        intro hin'
        exact hout (within_append.mpr ⟨hin, hin'⟩)
      obtain ⟨hs, hd, hp, hp'⟩ := h'.cut hout'
      rw [Eval.outcome_bind, h.same hin, hr]
      exact ⟨hs, hd.trans h.depth, h.runs.trans hp, hp'⟩
    · exact (h.cut hin).bind h'.runs

theorem limits_act {x : Eval α} (hx : Eval.Calm x) (hy : Eval.Yields (fun _ => True) G x) :
    Limits limit G (Machine.act x) (Machine.act x) := by
  intro base path w _
  -- nothing is entered, so this is within any limit
  obtain ⟨-, -, hd, new, hn, -⟩ := hx w
  refine ⟨fun a ha => hy w a (Store.holds_true _) ha, hd, ?_, fun _ => rfl, fun hn => ?_⟩
  · show w.runs <+: (x.outcome w).2.runs
    rw [hn]
    exact List.prefix_append _ _
  · exact absurd within_nil hn

theorem limits_link (op : CompareOp) (opSpan : Span) (left right : Value) :
    Limits limit (fun _ => True) (Machine.link op opSpan left right)
      (Machine.link op opSpan left right) := by
  intro base path w _
  have hl := Eval.world_link op opSpan left right w
  refine ⟨fun _ _ => trivial, ?_, ?_, fun _ => rfl, fun hn => absurd within_link hn⟩
  · show ((Eval.link op opSpan left right).outcome w).2.depth = w.depth
    rw [hl]
    rfl
  · show w.runs <+: ((Eval.link op opSpan left right).outcome w).2.runs
    rw [hl]
    exact List.prefix_refl _

/-- The limit stops the evaluation at an expression just if the path to that expression is not
within it. -/
theorem limits_enter (e : Expr) {x : Eval Value} {y : Traced Value} {G : Value → Prop}
    (hx : Limits limit G x y) :
    Limits limit G (Machine.enter (some limit) e x) (Machine.enter none e y) := by
  intro base path w hw
  -- inside, one expression more is open, and the depth counts it
  have hw' : w.depth + 1 = base + (e :: path).length := by
    rw [List.length_cons]
    omega
  have h := hx base (e :: path) { w with depth := w.depth + 1 } hw'
  set o := y (e :: path) { w with depth := w.depth + 1 }
  have hevents :
      StaysWithin limit base ([.enter (e :: path)] ++ o.events ++ Event.ofResult o.result) ↔
        w.depth + 1 ≤ limit ∧ StaysWithin limit base o.events := by
    rw [within_append, within_append, within_enter, hw']
    exact and_iff_left (within_ofResult _)
  have hd : o.world.depth - 1 = w.depth := by
    have := h.depth
    simp only at this
    omega
  show Limited limit base G w ((Eval.nested (some limit) e.span x).outcome w)
    ⟨o.result, { o.world with depth := o.world.depth - 1 },
      [.enter (e :: path)] ++ o.events ++ Event.ofResult o.result⟩
  rw [outcome_nested]
  refine ⟨h.result, hd, h.runs, fun hin => ?_, fun hout => ?_⟩
  · obtain ⟨hlim, hin⟩ := hevents.mp hin
    have hneg : ¬ (some limit).any (· ≤ w.depth) := by
      simp only [Option.any_some, decide_eq_true_eq]
      omega
    rw [if_neg hneg, h.same hin]
  -- the limit stops either this expression or one inside it
  by_cases hlim : limit ≤ w.depth
  · rw [if_pos (by simpa using hlim)]
    exact ⟨⟨e.span, rfl⟩, rfl, List.prefix_refl _, h.runs⟩
  · rw [if_neg (by simpa using hlim)]
    have hout' : ¬ StaysWithin limit base o.events := by
      intro hin
      exact hout (hevents.mpr ⟨by omega, hin⟩)
    obtain ⟨hs, hd', hp, hp'⟩ := h.cut hout'
    refine ⟨hs, ?_, hp, hp'⟩
    simp only at hd' ⊢
    omega

theorem limits_respects (limit : Nat) :
    Respects (fun _ => True) (some limit) none (fun {α} => @Limits α limit) where
  pure := limits_pure
  bind := Limits.bind
  act := limits_act
  link := limits_link _ _ _ _
  enter := limits_enter _

end Limits

/-- **A limit on the nesting only cuts evaluations short.** The evaluation without a limit enters
along paths of the tree. If all of these are within the limit, the two evaluations end the same,
with the same world. If not, the one with the limit fails for it, after the first ones of the
commands that the other runs. The depth is always back at its old value. -/
theorem evalExpr_limit (host : Host) (e : Expr) (w : World) (limit : Nat) :
    let free := (evalExpr (host.withLimit none) e).outcome w
    let bound := (evalExpr (host.withLimit (some limit)) e).outcome w
    let visited := (trace (host.withLimit none) e w).events
    free.2.depth = w.depth ∧ bound.2.depth = w.depth ∧
      (∀ path, Event.enter path ∈ visited → e.Path path) ∧
      (StaysWithin limit w.depth visited → bound = free) ∧
      (¬ StaysWithin limit w.depth visited →
        (∃ span, bound.1 = .error ((Fault.tooDeep limit).placed span)) ∧
          w.runs <+: bound.2.runs ∧ bound.2.runs <+: free.2.runs) := by
  intro free bound visited
  have hs : (host.withLimit (some limit)).Sound (fun _ => True) fun _ => True := Host.sound_true _
  have h := (limits_respects limit).eval hs e (fun _ _ => trivial) w.depth []
    { w with options := w.options.push Flags.errexit } rfl
  have hfree : free = _ := evalExpr_eq_trace (host.withLimit none) e w
  have hbound : bound = _ := outcome_evalExpr (host.withLimit (some limit)) e w
  have hsame : StaysWithin limit w.depth visited → bound = free := by
    intro hin
    rw [hbound, hfree, h.same hin]
    rfl
  have hcut : ¬ StaysWithin limit w.depth visited → CutShort limit w free.2 bound := by
    intro hout
    obtain ⟨⟨span, hs⟩, hd, hp, hp'⟩ := h.cut hout
    rw [hbound, hfree]
    refine ⟨⟨span, ?_⟩, hd, hp, hp'⟩
    show (Except.mapError EvalError.classify _) = _
    rw [hs]
    rfl
  have hdepth : free.2.depth = w.depth := by
    rw [hfree]
    exact h.depth
  refine ⟨hdepth, ?_, fun path hp => path_of_enter hp, hsame, fun hout => ?_⟩
  · by_cases hin : StaysWithin limit w.depth visited
    · rw [hsame hin]
      exact hdepth
    · exact (hcut hin).depth
  · exact ⟨(hcut hout).result, (hcut hout).runs, (hcut hout).fewer⟩

/-- A list in a list is two deep. -/
theorem evalExpr_limit_list :
    let host := ({} : Tables).host
    let e : Expr := .list [.list [] ⟨1, 3⟩] ⟨0, 4⟩
    (∃ span, ((evalExpr (host.withLimit (some 1)) e).outcome {}).1 =
      .error ((Fault.tooDeep 1).placed span)) ∧
      (evalExpr (host.withLimit (some 2)) e).outcome {} =
        (evalExpr (host.withLimit none) e).outcome {} := by
  intro host e
  have hvisited : (trace (host.withLimit none) e {}).events =
      [.enter [e], .enter [.list [] ⟨1, 3⟩, e], .value (.list ⟨[0]⟩ []),
        .value (.list ⟨[1]⟩ [.list ⟨[0]⟩ []])] := rfl
  have hout : ¬ StaysWithin 1 0 (trace (host.withLimit none) e {}).events := by
    intro h
    rw [hvisited] at h
    have := h [.list [] ⟨1, 3⟩, e] (by simp)
    simp at this
  have hin : StaysWithin 2 0 (trace (host.withLimit none) e {}).events := by
    rw [hvisited]
    intro path hp
    simp only [List.mem_cons, Event.enter.injEq, reduceCtorEq, List.not_mem_nil, or_false] at hp
    obtain rfl | rfl := hp <;> simp
  obtain ⟨-, -, -, -, hcut⟩ := evalExpr_limit host e {} 1
  obtain ⟨-, -, -, hsame, -⟩ := evalExpr_limit host e {} 2
  exact ⟨(hcut hout).1, hsame hin⟩

end ShellExpr
