import ShellExpr.Proofs.Eval.Calls
import ShellExpr.Proofs.Eval.Commands

/-!
# Sessions

One evaluator is called many times, and each call starts in the world that the one before has left.
A call that fails leaves behind the commands it has run, the allocations it has made and the match
groups it has decided, and nothing else. So if it has decided none, the calls after it go on as if
it had not been made; only the numbers of their allocations are others.

* `Corresponds.body`: two runs of a call, as of an expression.
* `Call.runs_in_order`: the commands that a call runs.
* `World.Allocated`: new allocations are new, which calls preserve.
* `Call.timeline`: the calls of a session with the worlds they start in.
* `session_errors`: **failed calls may be left out**.
-/

namespace ShellExpr

open Assoc Eval

variable {host : Host}

/-! ### Two runs of a call -/

/-- The reply with other numbers for its allocations. -/
def Reply.rename (ρ : Nat → Nat) : Reply → Reply
  | value v => value (v.rename ρ)
  | arguments args => arguments (args.rename ρ)
  | place p => place (p.rename ρ)
  | eggex tree => eggex tree

/-- The nodes of a target. -/
def Target.nodes : Target → List Expr
  | named _ | invalid _ => []
  | item obj indices => obj.nodes ++ Expr.nodesAll indices
  | attr obj _ _ => obj.nodes

/-- The nodes of what a call evaluates, in the order of evaluation. -/
def Call.nodes : Call → List Expr
  | expr e => e.nodes
  | arguments args => Expr.nodesAll args.positional ++ Expr.nodesNamed args.named
  | place target => target.target.nodes
  | lhs e => e.target.nodes
  | plusEquals _ _ | eggex _ => []

namespace Corresponds

variable {ρ : Nat → Nat} {N : String → Prop} {whole : Prop}
  {R : {α β : Type} → List CommandSub → (α → β) → Eval α → Eval β → Prop}

theorem place (hR : Corresponds host ρ N whole R) (target : Target)
    (hn : ∀ n ∈ target.nodes, n.IsAdmitted N whole) :
    R (Expr.commandsOf target.nodes) (Place.rename ρ) (target.place host : Eval Place)
      (target.place host : Eval Place) := by
  cases target with
  | named tok => exact hR.pure (Place.rename ρ) _
  | item obj indices =>
    rw [Target.nodes, List.forall_mem_append] at hn
    rw [Target.nodes, Expr.commandsOf_append]
    refine hR.bind (hR.eval obj hn.1) fun o _ => ?_
    refine hR.bind_last (hR.bind_last (hR.evalAll indices hn.2) fun vs _ => hR.joinIndices vs) ?_
    exact fun i _ => hR.pure (Place.rename ρ) (.item o i)
  | attr obj op name =>
    refine hR.bind_last (hR.eval obj hn) fun o _ => ?_
    cases op with
    | arrow => exact hR.bind_last hR.fresh fun h _ => hR.pure (Place.rename ρ) (.item o (.str h _))
    | dot => exact hR.pure (Place.rename ρ) (.attr o name.text)
    | doubleColon => exact hR.pure (Place.rename ρ) (.attr o name.text)
  | invalid e => exact hR.fail _ _ _

theorem sumOf (hR : Corresponds host ρ N whole R) {name : Token} (hN : N name.text) (v : Value) :
    R [] (Value.rename ρ) (Eval.sumOf name v) (Eval.sumOf name v) := by
  refine hR.bind_last (hR.lookup name.text name.span hN) fun current _ => ?_
  -- added to a number, a value is used for its number or its type alone
  cases current with
  | int n =>
    refine hR.bind_last hR.fresh fun h _ => hR.ofFault _ _ ?_
    rw [← binary_rename]
    cases v <;> rfl
  | float x =>
    refine hR.bind_last hR.fresh fun h _ => hR.ofFault _ _ ?_
    rw [← binary_rename]
    cases v <;> rfl
  | _ => exact hR.fail _ _ _

/-- **The two runs of a call correspond as those of the steps of an evaluation do**, if all
variables are visible. -/
theorem body (hR : Corresponds host ρ N whole R) (hN : ∀ name, N name) (c : Call)
    (hn : ∀ n ∈ c.nodes, n.IsAdmitted N whole) :
    R (Expr.commandsOf c.nodes) (Reply.rename ρ) (c.body host : Eval Reply)
      (c.body host : Eval Reply) := by
  cases c with
  | expr e => exact hR.bind_last (hR.eval e hn) fun v _ => hR.pure (Reply.rename ρ) (.value v)
  | arguments args =>
    rw [Call.nodes, List.forall_mem_append] at hn
    rw [Call.nodes, Expr.commandsOf_append]
    refine hR.bind_last (g := Arguments.rename ρ) ?_ fun as _ =>
      hR.pure (Reply.rename ρ) (.arguments as)
    refine hR.bind (hR.evalPositional args.positional hn.1) fun ps _ => ?_
    refine hR.bind_last (hR.evalNamed [] args.named hn.2) fun ns _ => ?_
    exact hR.pure (Arguments.rename ρ) ⟨ps, ns⟩
  | place target =>
    exact hR.bind_last (hR.place target.target hn) fun p _ => hR.pure (Reply.rename ρ) (.place p)
  | lhs e =>
    exact hR.bind_last (hR.place e.target hn) fun p _ => hR.pure (Reply.rename ρ) (.place p)
  | plusEquals name v =>
    exact hR.bind_last (hR.sumOf (hN _) v) fun s _ => hR.pure (Reply.rename ρ) (.value s)
  | eggex tree =>
    refine hR.bind_last (hR.compile tree fun name _ => hN name) fun t _ => ?_
    exact hR.pure (Reply.rename ρ) (.eggex t)

end Corresponds

/-- **The commands that a call runs** are among those written in what it evaluates, each at most
once and in the order of evaluation: in particular positional arguments come before named ones, and
an object before its indices. -/
theorem Call.runs_in_order (host : Host) (c : Call) (w : World) :
    ∃ ran, ((c.run host).outcome w).2.runs = w.runs ++ ran ∧
      (ran.map Run.sub).Sublist (Expr.commandsOf c.nodes) := by
  have hbody : RunsIn False (Expr.commandsOf c.nodes) (c.body host) :=
    (RunsIn.corresponds host False).body (fun _ => trivial) c
      fun n _ => ⟨n.readsIn_true, False.elim⟩
  obtain ⟨ran, hr, hsub, -⟩ := hbody (c.entered w)
  rw [outcome_run, outcome_within]
  cases c <;> exact ⟨ran, hr, hsub⟩

/-- A call ends alike in mirrored worlds in which all variables are seen. -/
theorem Mirror.follows_run {μ : Mirror} (hρ : Function.Injective μ.number)
    (hc : host.Commutes μ.number) (hs : ∀ name, μ.sees name) (c : Call) :
    μ.Follows (Reply.rename μ.number) (c.run host) (c.run host) := by
  have hreads : ∀ n : Expr, n.ReadsIn μ.sees := fun n => by
    have htrue : μ.sees = fun _ => True := funext fun name => eq_true (hs name)
    rw [htrue]
    exact n.readsIn_true
  have hbody := (corresponds hρ hc).body hs c fun n _ => ⟨hreads n, False.elim⟩
  have hwithin : μ.Follows (Reply.rename μ.number) (c.within (c.body host))
      (c.within (c.body host)) := by
    cases c with
    | expr e => exact follows_withFlags _ (follows_classified hbody)
    | eggex tree => exact hbody
    | _ => exact follows_classified hbody
  have hrun := Call.outcome_run host c
  refine ⟨fun w => ?_, fun w w' h hcov => ?_⟩
  · rw [hrun]
    exact hwithin.grows w
  · rw [hrun] at hcov ⊢
    rw [hrun]
    exact hwithin.ends w w' h hcov

/-- The world after a call. -/
def Call.after (host : Host) (c : Call) (w : World) : World := ((c.run host).outcome w).2

theorem Call.supply_le_after (host : Host) (c : Call) (w : World) :
    w.supply ≤ (c.after host w).supply :=
  (Mirror.follows_run (μ := ⟨fun _ => True, id, fun _ => True, [], []⟩) Function.injective_id
    host.commutes_id (fun _ => trivial) c).grows w

/-- A call writes no variable. -/
theorem Call.vars_after (host : Host) (c : Call) (w : World) :
    (c.after host w).store = { w.store with groups := (c.after host w).store.groups } := by
  unfold after
  rw [store_run]

/-! ### Allocations -/

/-- Whether the values of all variables that can be seen were allocated in the past. -/
def World.Allocated (w : World) : Prop :=
  ∀ name v, w.store.lookup name .localOrGlobal = some v → ∀ h ∈ v.handles, h.Below w.supply

namespace World.Allocated

variable {w : World}

/-- Values of variables do not depend on the numbers of allocations still to come. -/
theorem lookup_rename (hw : w.Allocated) {ρ : Nat → Nat} (hρ : ∀ n < w.supply, ρ n = n)
    (name : String) : (w.store.lookup name .localOrGlobal).map (Value.rename ρ) =
      w.store.lookup name .localOrGlobal := by
  cases hv : w.store.lookup name .localOrGlobal with
  | none => rfl
  | some v =>
    have hfix : v.rename ρ = v :=
      Value.rename_of_fixes v fun k hk => Handle.rename_of_below hρ (hw name v hv k hk)
    exact congrArg some hfix

/-- After a call, the variables are as before, and no allocation is taken back. -/
theorem after (hw : w.Allocated) (host : Host) (c : Call) : (c.after host w).Allocated := by
  intro name v hv h hh
  rw [c.vars_after] at hv
  have hb : h.Below w.supply := hw name v hv h hh
  exact fun r hr => Nat.lt_of_lt_of_le (hb r hr) (c.supply_le_after host w)

/-- **What a call gives was allocated by its end.** Numbers from there on may be raised: neither
the variables nor the callables notice, so the reply is the same. -/
theorem rename_reply (hw : w.Allocated) {host : Host} (hu : host.IsUniform w.supply) {c : Call}
    {r : Reply} {last : Nat} (hr : ((c.run host).outcome w).1 = .ok r)
    (hlast : (c.after host w).supply = last) :
    r.rename (raiseFrom id last (last + 1)) = r := by
  have hle := c.supply_le_after host w
  have hinj : Function.Injective (raiseFrom id last (last + 1)) :=
    (strictMono_raiseFrom strictMono_id (Nat.le_succ last)).injective
  have hfixes : ∀ n < w.supply, raiseFrom id last (last + 1) n = n := fun n hn =>
    raiseFrom_of_lt (by omega)
  have hstart : Mirror.Relates
      ⟨fun _ => True, raiseFrom id last (last + 1), (· < last), w.runs, w.runs⟩ w w :=
    { Mirror.relates_self (fun _ => True) w with
      lookup := fun name _ => (hw.lookup_rename hfixes name).symm
      supply := fun i hi => raiseFrom_of_lt hi }
  have hfollows := Mirror.follows_run
    (μ := ⟨fun _ => True, raiseFrom id last (last + 1), (· < last), w.runs, w.runs⟩)
    hinj (hu _ hinj hfixes) (fun _ => trivial) c
  -- all allocations of the call have numbers below the last, which are not raised
  obtain ⟨hres, -⟩ := hfollows.ends w w hstart fun n hn => Nat.lt_of_lt_of_eq hn hlast
  rw [hr] at hres
  exact (Except.ok.inj hres).symm

/-- A value that an expression gives can be bound to a variable. -/
theorem below_of_evalExpr (hw : w.Allocated) {host : Host} (hu : host.IsUniform w.supply)
    {e : Expr} {v : Value} (hv : ((evalExpr host e).outcome w).1 = .ok v) :
    ∀ h ∈ v.handles, h.Below ((evalExpr host e).outcome w).2.supply := by
  have hrun : ((Call.expr e).run host).outcome w =
      (.ok (.value v), ((evalExpr host e).outcome w).2) := by
    show (do return Reply.value (← evalExpr host e) : Eval Reply).outcome w = _
    rw [Call.outcome_map, hv]
    rfl
  have hfix := hw.rename_reply hu (congrArg Prod.fst hrun) (congrArg (·.2.supply) hrun)
  exact fun h hh => Handle.below_of_rename (v.rename_eq_self.mp (Reply.value.inj hfix) h hh)

end World.Allocated

/-! ### Sessions -/

/-- What a call shows: its reply or error, the commands it has run and the match groups then. -/
structure Answer where
  result : Except EvalError Reply
  ran : List Run
  groups : List String

/-- The answer with other numbers for the allocations of the reply. -/
def Answer.rename (ρ : Nat → Nat) (a : Answer) : Answer :=
  { a with result := a.result.map (Reply.rename ρ) }

namespace Call

/-- The answer to a call in a world. -/
def answer (host : Host) (c : Call) (w : World) : Answer :=
  ⟨((c.run host).outcome w).1, (c.after host w).runs.drop w.runs.length,
    (c.after host w).store.groups⟩

/-- Whether a call fails and no link by `~` has decided the match groups before it does. -/
def failsSilently (host : Host) (c : Call) (w : World) : Bool :=
  !((c.run host).outcome w).1.isOk && (c.events host w).all fun e => e.decided?.isNone

/-- The calls of a session, each with the world in which it starts. -/
def timeline (host : Host) : List Call → World → List (Call × World)
  | [], _ => []
  | c :: rest, w => (c, w) :: timeline host rest (c.after host w)

end Call

/-- A session with all its calls and the same one with some of them left out, seen at one moment:
the two worlds differ in the commands run and in the numbers of the allocations made since the
start. -/
structure InStep (start : World) (ρ : Nat → Nat) (w w' : World) : Prop where
  mono : StrictMono ρ
  fixes : ∀ n < start.supply, ρ n = n
  started : start.supply ≤ w'.supply
  supply : ∀ i, ρ (w'.supply + i) = w.supply + i
  vars : w'.store = { start.store with groups := w'.store.groups }
  store : w.store = w'.store
  options : w.options = w'.options
  depth : w.depth = w'.depth

/-! ### Calls that are kept -/

theorem lastDecided_of_none {groups : List String} {events : List Event}
    (h : ∀ e ∈ events, e.decided? = none) : lastDecided groups events = groups := by
  unfold lastDecided
  rw [List.filterMap_eq_nil_iff.mpr h]
  rfl

/-- A call that fails silently leaves the store as it was. -/
theorem Call.store_of_failsSilently {c : Call} {w : World}
    (h : c.failsSilently host w = true) : (c.after host w).store = w.store := by
  have hnone : ∀ e ∈ c.events host w, e.decided? = none := by
    unfold failsSilently at h
    rw [Bool.and_eq_true, List.all_eq_true] at h
    exact fun e he => Option.isNone_iff_eq_none.mp (h.2 e he)
  show ((c.run host).outcome w).2.store = w.store
  rw [store_run, lastDecided_of_none hnone]

namespace InStep

variable {start w w' : World} {ρ F : Nat → Nat}

/-- At the start the two sessions have the same world. -/
theorem refl (w : World) : InStep w id w w :=
  ⟨strictMono_id, fun _ _ => rfl, Nat.le_refl _, fun _ => rfl, rfl, rfl, rfl, rfl⟩

/-- The values of variables are as they were at the start, whatever numbers are given to the
allocations since. -/
theorem lookup (h : InStep start ρ w w') (ha : start.Allocated) (hF : ∀ n < start.supply, F n = n)
    (name : String) : w.store.lookup name .localOrGlobal =
      (w'.store.lookup name .localOrGlobal).map (Value.rename F) := by
  have hstart : w'.store.lookup name .localOrGlobal = start.store.lookup name .localOrGlobal := by
    rw [h.vars]
    rfl
  rw [h.store, hstart]
  exact (ha.lookup_rename hF name).symm

/-- The world of the shorter session mirrored in that of the longer one. -/
theorem relates (h : InStep start ρ w w') (ha : start.Allocated) {covers : Nat → Prop}
    (hF : ∀ n, n < w'.supply ∨ covers n → F n = ρ n) :
    Mirror.Relates ⟨fun _ => True, F, covers, w'.runs, w.runs⟩ w' w where
  lookup name _ := h.lookup ha
    (fun n hn => (hF n (.inl (Nat.lt_of_lt_of_le hn h.started))).trans (h.fixes n hn)) name
  groups := congrArg Store.groups h.store
  options := h.options
  depth := h.depth
  runs := ⟨[], (List.append_nil _).symm, (List.append_nil _).symm⟩
  supply i hi := (hF _ (.inr hi)).trans (h.supply i)

/-- Both sessions make a call. -/
theorem keep (h : InStep start ρ w w') (ha : start.Allocated)
    (hu : host.IsUniform start.supply) (c : Call) :
    InStep start ρ (c.after host w) (c.after host w') := by
  have hfollows := Mirror.follows_run (μ := ⟨fun _ => True, ρ, fun _ => True, w'.runs, w.runs⟩)
    h.mono.injective (hu ρ h.mono.injective h.fixes) (fun _ => trivial) c
  obtain ⟨-, hw⟩ := hfollows.ends w' w (h.relates ha fun _ _ => rfl) fun _ _ => trivial
  have hgroups : (c.after host w).store.groups = (c.after host w').store.groups := hw.groups
  refine ⟨h.mono, h.fixes, Nat.le_trans h.started (c.supply_le_after host w'),
    fun i => hw.supply i trivial, ?_, ?_, hw.options, hw.depth⟩
  · rw [c.vars_after, h.vars]
  · rw [c.vars_after, hgroups, h.store, ← c.vars_after]

/-- A call that fails silently is made in the longer session alone: the allocations still to come
in the shorter one get higher numbers. -/
theorem drop (h : InStep start ρ w w') {c : Call} (hc : c.failsSilently host w = true) :
    InStep start (raiseFrom ρ w'.supply (c.after host w).supply) (c.after host w) w' := by
  have hle := c.supply_le_after host w
  have hnow : ρ w'.supply = w.supply := h.supply 0
  obtain ⟨hoptions, hdepth, -⟩ := Call.ends_run host c w
  refine ⟨strictMono_raiseFrom h.mono (by omega), fun n hn => ?_, h.started,
    fun i => raiseFrom_add i, h.vars, (Call.store_of_failsSilently hc).trans h.store,
    hoptions.trans h.options, hdepth.trans h.depth⟩
  rw [raiseFrom_of_lt (Nat.lt_of_lt_of_le hn h.started)]
  exact h.fixes n hn

/-- A call that both sessions make has the same answer in both. -/
theorem answer_eq (h : InStep start ρ w w') (ha : start.Allocated)
    (hu : host.IsUniform start.supply) {c : Call} (hF : StrictMono F)
    (hagree : ∀ n < (c.after host w').supply, F n = ρ n) :
    c.answer host w = (c.answer host w').rename F := by
  have hle := c.supply_le_after host w'
  have hstarted := h.started
  have hfixes : ∀ n < start.supply, F n = n := fun n hn =>
    (hagree n (by omega)).trans (h.fixes n hn)
  -- `F` is the numbering after later calls: it need agree only where this call allocates
  have hfollows := Mirror.follows_run
    (μ := ⟨fun _ => True, F, (· < (c.after host w').supply), w'.runs, w.runs⟩)
    hF.injective (hu F hF.injective hfixes) (fun _ => trivial) c
  have hrel := h.relates (F := F) ha fun n hn => hagree n (hn.elim (by omega) id)
  obtain ⟨hr, hw⟩ := hfollows.ends w' w hrel fun n hn => hn
  obtain ⟨new, hn', hn⟩ := hw.runs
  have hran : ∀ past : List Run, (past ++ new).drop past.length = new :=
    fun past => List.drop_left
  unfold Call.answer Answer.rename Call.after
  rw [hr, hn, hn', hran, hran, hw.groups]

end InStep

/-- The answers to the calls that are kept, in the session with all calls and in the one without
those left out. -/
theorem answers_of_inStep {start : World} (hu : host.IsUniform start.supply) (ha : start.Allocated)
    {keep : Call × World → Bool} (calls : List Call) {ρ : Nat → Nat} {w w' : World}
    (h : InStep start ρ w w')
    (hk : ∀ p ∈ Call.timeline host calls w, keep p = false → p.1.failsSilently host p.2 = true) :
    let kept := (Call.timeline host calls w).filter keep
    ∃ F, StrictMono F ∧ (∀ n < w'.supply, F n = ρ n) ∧
      kept.map (fun p => p.1.answer host p.2) =
        (Call.timeline host (kept.map Prod.fst) w').map fun p =>
          (p.1.answer host p.2).rename F := by
  -- the numbers below the supply of the shorter session are settled, and no later call changes them
  induction calls generalizing ρ w w' with
  | nil => exact ⟨ρ, h.mono, fun _ _ => rfl, rfl⟩
  | cons c rest ih =>
    rw [Call.timeline, List.forall_mem_cons] at hk
    cases hc : keep (c, w) with
    | true =>
      obtain ⟨F, hF, hagree, hanswers⟩ := ih (h.keep ha hu c) hk.2
      have hle := c.supply_le_after host w'
      refine ⟨F, hF, fun n hn => hagree n (by omega), ?_⟩
      rw [Call.timeline, List.filter_cons_of_pos hc, List.map_cons, List.map_cons, Call.timeline,
        List.map_cons, hanswers, h.answer_eq ha hu hF hagree]
    | false =>
      obtain ⟨F, hF, hagree, hanswers⟩ := ih (h.drop (hk.1 hc)) hk.2
      refine ⟨F, hF, fun n hn => (hagree n hn).trans (raiseFrom_of_lt hn), ?_⟩
      rw [Call.timeline, List.filter_cons_of_neg (by simp [hc])]
      exact hanswers

/-- **Errors leave no trace in the evaluator.** Each call of a session leaves the base flags, the
overrides and the depth as they were, whether it fails or not. And if all calls are left out that
fail before a link by `~` has decided the match groups, the other calls have the same answers, with
other numbers for the allocations made since the start. Callables must not look at these numbers. -/
theorem session_errors (host : Host) (calls : List Call) (w : World) :
    (∀ p ∈ Call.timeline host calls w, (p.1.after host p.2).options = p.2.options ∧
      (p.1.after host p.2).depth = p.2.depth) ∧
    (host.IsUniform w.supply → w.Allocated →
      let kept := (Call.timeline host calls w).filter fun p => !p.1.failsSilently host p.2
      ∃ ρ, StrictMono ρ ∧ (∀ n < w.supply, ρ n = n) ∧
        kept.map (fun p => p.1.answer host p.2) =
          (Call.timeline host (kept.map Prod.fst) w).map fun p =>
            (p.1.answer host p.2).rename ρ) := by
  refine ⟨fun p _ => ?_, fun hu ha => ?_⟩
  · -- a failed call unwinds its own scope before it returns
    obtain ⟨ho, hd, -⟩ := Call.ends_run host p.1 p.2
    exact ⟨ho, hd⟩
  · exact answers_of_inStep hu ha calls (.refl w) fun p _ hp => by simpa using hp

/-- A list that fails at its second element is left out, and the list after it gets another number.
One that fails after a match stays. -/
theorem session_errors_lists :
    let host := ({} : Tables).host
    let unknown : Expr := .var ⟨.name, "x", .dummy⟩ .dummy
    let a : Expr := .word (.single ⟨.raw, [⟨.literal, "a", .dummy⟩], .dummy⟩) .dummy
    let silent : Call := .expr (.list [.list [] .dummy, unknown] .dummy)
    let good : Call := .arguments ⟨[.list [] .dummy], []⟩
    let noisy : Call := .expr (.list [.compare a [((.regex, .dummy), a)] .dummy, unknown] .dummy)
    let kept := (Call.timeline host [silent, good, noisy] {}).filter fun p =>
      !p.1.failsSilently host p.2
    host.IsUniform 0 ∧ ({} : World).Allocated ∧ kept.map Prod.fst = [good, noisy] ∧
      ∃ ρ, StrictMono ρ ∧ kept.map (fun p => p.1.answer host p.2) =
        (Call.timeline host [good, noisy] {}).map fun p => (p.1.answer host p.2).rename ρ := by
  intro host unknown a silent good noisy kept
  have hu : host.IsUniform 0 := Tables.host_isUniform {} 0
  have ha : ({} : World).Allocated := by
    intro name v hv
    contradiction
  have h1 : silent.failsSilently host {} = true := by decide +kernel
  have h2 : good.failsSilently host (silent.after host {}) = false := by decide +kernel
  have h3 : noisy.failsSilently host (good.after host (silent.after host {})) = false := by
    decide +kernel
  have hcalls : kept.map Prod.fst = [good, noisy] := by
    simp [kept, Call.timeline, h1, h2, h3]
  obtain ⟨ρ, hρ, -, hanswers⟩ := (session_errors host [silent, good, noisy] {}).2 hu ha
  refine ⟨hu, ha, hcalls, ρ, hρ, ?_⟩
  rw [← hcalls]
  exact hanswers

end ShellExpr
