import ShellExpr.Host.Tables
import ShellExpr.Proofs.Eggex.Canonical
import ShellExpr.Proofs.Eval.Invariant

/-!
# Canonical eggexes

An eggex literal is compiled when it is evaluated, and what a variable holds is spliced unchecked.
So that all eggexes are canonical is kept by compilation and by the store together, over any number
of expressions whose values are bound to variables.

* `Step`, `runSteps`: expressions evaluated one after the other.
* `Produced`, `Stored`: the values that come up in a run.
* `run_canonical`: **the eggexes inside them are canonical**.
-/

namespace ShellExpr

/-- The trees that evaluation may rely on. -/
abbrev IsCanonical (t : Eggex) : Prop := t.isCanonical = true

/-! ### Hosts -/

/-- Whether callables give back no eggexes but those inside their arguments. -/
def Host.BuildsFromArguments (host : Host) : Prop :=
  ∀ h name args v, host.call h name args = .ok v →
    ∀ t ∈ v.trees, t ∈ Value.treesAll args.positional ++ Value.treesAttrs args.named

theorem Host.BuildsFromArguments.conserves {host : Host} (hb : host.BuildsFromArguments)
    (T : Eggex → Prop) : host.Conserves T := by
  intro h name args v hv hp hn t ht
  rcases List.mem_append.mp (hb h name args v hv t ht) with ht | ht
  · obtain ⟨u, hu, ht⟩ := Value.mem_treesAll.mp ht
    exact hp u hu t ht
  · obtain ⟨e, he, ht⟩ := Value.mem_treesAttrs.mp ht
    exact hn e he t ht

/-- The callables of a host made of tables give back their arguments, so they make no eggexes. -/
theorem Tables.buildsFromArguments (t : Tables) : t.host.BuildsFromArguments := by
  intro h name args v hv u hu
  have hdict : ∀ named : List (String × Value),
      Value.treesEntries (named.map fun e => (.str e.1, e.2)) = Value.treesAttrs named := by
    intro named
    induction named with
    | nil => rfl
    | cons e rest ih => exact congrArg (e.2.trees ++ ·) ih
  change Callables.call h name args = .ok v at hv
  unfold Callables.call at hv
  split at hv
  · obtain rfl := Except.ok.inj hv
    exact List.mem_append_left _ hu
  · obtain rfl := Except.ok.inj hv
    exact List.mem_append_right _ (hdict args.named ▸ hu)
  · obtain rfl := Except.ok.inj hv
    simpa [Value.trees, Value.treesAll, Callables.dictOf, hdict] using hu
  · obtain rfl := Except.ok.inj hv
    cases hp : args.positional with
    | nil =>
      rw [hp] at hu
      contradiction
    | cons a rest =>
      rw [hp] at hu
      exact List.mem_append_left _ (List.mem_append_left _ hu)
  all_goals contradiction

/-- The variables of a store with canonical eggexes can be spliced. -/
theorem Store.Holds.scope_canonical {s : Store} (h : s.Holds IsCanonical) (host : Host) :
    (Eval.scopeOf host s).Canonical := by
  intro name v e hl he
  have hl : s.lookup name .localOrGlobal = some v := hl
  have hv : v.Holds IsCanonical := h.lookup hl
  cases v with
  | eggex id e' =>
    obtain rfl := Option.some.inj he
    exact Value.holds_eggex.mp hv
  | _ => contradiction

theorem Host.BuildsFromArguments.sound {host : Host} (hb : host.BuildsFromArguments) :
    host.Sound IsCanonical Eggex.Spelled where
  call := hb.conserves IsCanonical
  compile tree hs := by
    intro w u hw hu
    rw [Eval.outcome_compileEggex] at hu
    have hcompile := (Eggex.compileAsserting_eq_ok_iff.mp hu).1
    exact Eggex.isCanonical_of_compile (hw.scope_canonical host) tree u hcompile hs

/-! ### Runs -/

/-- An expression to evaluate, and the variable its value is bound to, if any. -/
structure Step where
  host : Host
  expr : Expr
  target : Option (String × Scope)

/-- The world after a step. An expression that fails binds nothing. -/
def Step.after (s : Step) (w : World) : World :=
  match (evalExpr s.host s.expr).outcome w, s.target with
  | (.ok v, w'), some (name, scope) => { w' with store := w'.store.write name v scope }
  | (_, w'), _ => w'

/-- What a run asks of each step: callables make no eggexes of their own, and tokens in
character classes spell characters. -/
structure Step.Proper (s : Step) : Prop where
  host : s.host.BuildsFromArguments
  expr : ∀ t ∈ s.expr.eggexes, t.Spelled

/-- The world after several steps. -/
def runSteps (w : World) : List Step → World
  | [] => w
  | s :: rest => runSteps (s.after w) rest

/-- An expression evaluated in a run, at any depth inside a step, has the value. -/
def Produced (w : World) (steps : List Step) (v : Value) : Prop :=
  ∃ before s rest, steps = before ++ s :: rest ∧
    Event.value v ∈ (trace s.host s.expr (runSteps w before)).events

/-- A variable of some frame has the value at some point between the steps of a run. Inside a step
variables do not change. -/
def Stored (w : World) (steps : List Step) (v : Value) : Prop :=
  ∃ before rest, steps = before ++ rest ∧
    ∃ f ∈ (runSteps w before).store.globals :: (runSteps w before).store.frames,
      ∃ name, (name, v) ∈ f

/-- The value of an expression that is evaluated in a run. -/
theorem produced_of_ok {w : World} {before rest : List Step} {s : Step} {v : Value}
    (h : ((evalExpr s.host s.expr).outcome (runSteps w before)).1 = .ok v) :
    Produced w (before ++ s :: rest) v := by
  refine ⟨before, s, rest, rfl, value_mem_trace ?_⟩
  rw [evalExpr_eq_trace] at h
  exact ok_of_mapError h

/-- Values noted are as they should be. -/
theorem values_invariant (T : Eggex → Prop) :
    Invariant T fun _ _ events => ∀ v, Event.value v ∈ events → v.Holds T where
  calm _ := by simp
  append {u v w es es'} h h' := by
    intro x hx
    rcases List.mem_append.mp hx with hx | hx
    · exact h x hx
    · exact h' x hx
  deeper _ _ h := h
  enter w path := by simp
  value w v hv := by
    intro x hx
    obtain rfl := Event.value.inj (List.mem_singleton.mp hx)
    exact hv
  link w op left right := by simp

theorem Step.Proper.trace {s : Step} (hs : s.Proper) {w : World} (hw : w.store.Holds IsCanonical) :
    (trace s.host s.expr w).Keeps IsCanonical
      (fun _ _ events => ∀ v, Event.value v ∈ events → v.Holds IsCanonical)
      (Value.Holds IsCanonical) { w with options := w.options.push Flags.errexit } :=
  (values_invariant IsCanonical).trace hs.host.sound hs.expr hw

/-- A step keeps the eggexes of the store canonical. -/
theorem Step.Proper.holds_after {s : Step} (hs : s.Proper) {w : World}
    (hw : w.store.Holds IsCanonical) : (s.after w).store.Holds IsCanonical := by
  have hk := hs.trace hw
  -- the value that is bound is as it should be, like those that were there
  unfold Step.after
  rw [evalExpr_eq_trace]
  cases hr : (ShellExpr.trace s.host s.expr w).result with
  | error e => exact hk.holds
  | ok v =>
    cases s.target with
    | none => exact hk.holds
    | some target => exact hk.holds.write (hk.result v hr) target.2

/-- **A run keeps the eggexes of the store canonical.** -/
theorem holds_runSteps {steps : List Step} (hs : ∀ s ∈ steps, s.Proper) {w : World}
    (hw : w.store.Holds IsCanonical) : (runSteps w steps).store.Holds IsCanonical := by
  induction steps generalizing w with
  | nil => exact hw
  | cons s rest ih =>
    rw [List.forall_mem_cons] at hs
    exact ih hs.2 (hs.1.holds_after hw)

/-- **All eggexes of a run are canonical**, those produced on the way and those stored, at any depth
inside their values. -/
theorem run_canonical (steps : List Step) (w : World) (hw : w.store.Holds IsCanonical)
    (hs : ∀ s ∈ steps, s.Proper) (v : Value) (hv : Produced w steps v ∨ Stored w steps v) :
    ∀ t ∈ v.trees, t.isCanonical = true := by
  -- whichever the point, the steps before it have kept the store canonical
  rcases hv with ⟨before, s, rest, rfl, hv⟩ | ⟨before, rest, rfl, f, hf, name, hv⟩
  · rw [List.forall_mem_append, List.forall_mem_cons] at hs
    exact (hs.2.1.trace (holds_runSteps hs.1 hw)).kept v hv
  · rw [List.forall_mem_append] at hs
    exact holds_runSteps hs.1 hw f hf (name, v) hv

/-- Binds an eggex with a character class, then evaluates a list with one that splices it. -/
def spliceRun : List Step :=
  [⟨({} : Tables).host, .eggex (.seq [.token ⟨.charOne, "\\n", .dummy⟩,
      .charClass false [.charLiteral ⟨.name, "d", .dummy⟩, .range 'a' 'c']]) [] .dummy,
      some ("x", .localOnly)⟩,
    ⟨({} : Tables).host, .list [.eggex (.rep (.splice ⟨.name, "x", .dummy⟩) .plus) [] .dummy]
      .dummy, none⟩]

/-- The list that the run ends with. -/
def spliceValue : Value :=
  .list ⟨[2]⟩ [.eggex ⟨[1]⟩ ⟨.rep (.seq [.literal "\n" .dummy,
    .charClass false [.bytes [100] .dummy, .range 'a' 'c']]) .plus, []⟩]

theorem spliceRun_canonical :
    ({} : World).store.Holds IsCanonical ∧ (∀ s ∈ spliceRun, s.Proper) ∧
      Produced {} spliceRun spliceValue ∧ ∀ t ∈ spliceValue.trees, t.isCanonical = true := by
  have hw : ({} : World).store.Holds IsCanonical := by
    intro f hf e he
    rw [List.mem_singleton.mp hf] at he
    contradiction
  have hs : ∀ s ∈ spliceRun, s.Proper := by
    intro s hs
    rcases List.mem_cons.mp hs with rfl | hs
    · exact ⟨Tables.buildsFromArguments _, by decide⟩
    · obtain rfl := List.mem_singleton.mp hs
      exact ⟨Tables.buildsFromArguments _, by decide⟩
  have hv : Produced {} spliceRun spliceValue :=
    @produced_of_ok {} [spliceRun[0]] [] spliceRun[1] spliceValue rfl
  exact ⟨hw, hs, hv, run_canonical spliceRun {} hw hs spliceValue (.inl hv)⟩

end ShellExpr
