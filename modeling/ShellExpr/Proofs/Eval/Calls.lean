import ShellExpr.Host.Tables
import ShellExpr.Proofs.Eval.Coincidence
import ShellExpr.Proofs.Eval.MatchGroups

/-!
# Calls of the evaluator

There are six ways to call on the evaluator. Each does some work within a scope of its own: an
expression with the flag for commands turned on, an eggex with its faults left raw. The work is
steps of evaluation in all of them, so what these keep every call keeps.

* `Call.run`: what a call does.
* `Call.body`, `Call.outcome_run`: its work, on any machine, and the scope around it.
* `Call.ends_run`: **a call leaves the flags and the depth as they were**, whatever comes of it.
* `Call.flags_of_run`: the flags with which it runs commands.
* `Call.store_run`: what it changes in the store.
-/

namespace ShellExpr

open Eval

/-- A call of the evaluator. -/
inductive Call where
  | expr (e : Expr)
  | arguments (args : ArgList)
  | place (target : PlaceExpr)
  /-- The place of an expression used as a target. -/
  | lhs (e : Expr)
  | plusEquals (name : Token) (v : Value)
  | eggex (tree : Eggex)

/-- What a call gives. -/
inductive Reply where
  | value (v : Value)
  | arguments (args : Arguments)
  | place (p : Place)
  | eggex (tree : Eggex)

/-- What a call does. -/
def Call.run (host : Host) : Call → Eval Reply
  | expr e => do return .value (← evalExpr host e)
  | arguments args => do return .arguments (← evalArgList host args)
  | place target => do return .place (← evalPlace host target)
  | lhs e => do return .place (← evalTarget host e)
  | plusEquals name v => do return .value (← ShellExpr.plusEquals name v)
  | eggex tree => do return .eggex (← evalEggex host tree)

/-! ### Targets -/

/-- What an assignment writes to, before it is evaluated. -/
inductive Target where
  | named (tok : Token)
  | item (obj : Expr) (indices : List Expr)
  | attr (obj : Expr) (op : AttrOp) (name : Token)
  /-- No target; the error says why. -/
  | invalid (e : EvalError)

def PlaceExpr.target : PlaceExpr → Target
  | var tok => .named tok
  | subscript obj indices => .item obj indices
  | member obj op _ attr => .attr obj op attr
  | tuple _ => .invalid (Fault.unsupported "Tuple unpacking").unplaced
  | starred _ => .invalid (Fault.unsupported "Starred assignment target").unplaced

def Expr.target : Expr → Target
  | var tok _ => .named tok
  | subscript obj indices _ => .item obj indices
  | member obj op _ attr _ => .attr obj op attr
  | e => .invalid ((Fault.unsupported "Assignment to this expression").placed e.span)

section Machines

variable {m : Type → Type} [Monad m] [Machine m]

open Machine

/-- The place of a target. -/
def Target.place (host : Host) : Target → m Place
  | named tok => return .named tok.text
  | item obj indices => do
    let o ← obj.eval host
    let i ← Expr.evalIndices host indices
    return .item o i
  | attr obj op name => do
    let o ← obj.eval host
    match op with
    | .arrow => return .item o (.str (← act fresh) name.text)
    | .dot | .doubleColon => return .attr o name.text
  | invalid e => act (fail e)

/-- The sum of the value of a variable, which must be a number, and another value. -/
def Eval.sumOf (name : Token) (v : Value) : Eval Value := do
  let current ← lookup name.text name.span
  match current with
  | .int _ | .float _ => do
    let h ← fresh
    ofFault name.span (binary h .add current v)
  | _ => fail ((Fault.exprEval (.plusEquals current.typeName)).placed name.span)

/-- The work of a call. -/
def Call.body (host : Host) : Call → m Reply
  | expr e => do return .value (← e.eval host)
  | arguments args => do return .arguments (← Expr.evalArguments host args)
  | place target => do return .place (← target.target.place host)
  | lhs e => do return .place (← e.target.place host)
  | plusEquals name v => do return .value (← act (sumOf name v))
  | eggex tree => do return .eggex (← act (compileEggex host tree))

end Machines

namespace Call

variable {host : Host} {α β : Type}

/-- The flags that a call adds while it works. -/
def scope : Call → Flags → Flags
  | expr _, flags => flags.union Flags.errexit
  | _, flags => flags

/-- A computation within the scope of a call. -/
def within : Call → Eval α → Eval α
  | expr _, x => withFlags Flags.errexit (classified x)
  | eggex _, x => x
  | _, x => classified x

/-- The world in which a call works. -/
def entered (c : Call) (w : World) : World :=
  match c with
  | expr _ => { w with options := w.options.push Flags.errexit }
  | _ => w

/-- The world that a call leaves, from the one its work ends in. -/
def left (c : Call) (w : World) : World :=
  match c with
  | expr _ => { w with options := w.options.pop }
  | _ => w

/-- The fault of a call, from that of its work. -/
def fault (c : Call) (e : EvalError) : EvalError :=
  match c with
  | eggex _ => e
  | _ => e.classify

theorem outcome_map (x : Eval α) (f : α → β) (w : World) :
    (do return f (← x) : Eval β).outcome w = ((x.outcome w).1.map f, (x.outcome w).2) := by
  show Eval.outcome (x >>= fun a => pure (f a)) w = _
  rw [outcome_bind]
  rcases x.outcome w with ⟨r, w'⟩
  cases r <;> rfl

theorem outcome_within (c : Call) (x : Eval α) (w : World) :
    (c.within x).outcome w = ((x.outcome (c.entered w)).1.mapError c.fault,
      c.left (x.outcome (c.entered w)).2) := by
  cases c with
  | eggex tree =>
    show x.outcome w = ((x.outcome w).1.mapError id, (x.outcome w).2)
    rcases x.outcome w with ⟨r, w'⟩
    cases r <;> rfl
  | _ => rfl

theorem evalPlace_eq (host : Host) (target : PlaceExpr) :
    evalPlace host target = classified (target.target.place host) := by
  cases target with
  | member obj op opSpan attr => cases op <;> rfl
  | _ => rfl

theorem evalTarget_eq (host : Host) (e : Expr) :
    evalTarget host e = classified (e.target.place host) := by
  cases e with
  | member obj op opSpan attr span => cases op <;> rfl
  | _ => rfl

/-- What is made of a result is made of it inside the scope or outside. -/
theorem within_map (c : Call) (x : Eval α) (f : α → β) (w : World) :
    (do return f (← c.within x) : Eval β).outcome w =
      (c.within (do return f (← x))).outcome w := by
  rw [outcome_map, outcome_within, outcome_within, outcome_map]
  refine Prod.ext ?_ rfl
  show ((x.outcome (c.entered w)).1.mapError c.fault).map f =
    ((x.outcome (c.entered w)).1.map f).mapError c.fault
  cases (x.outcome (c.entered w)).1 <;> rfl

/-- **A call is its work within its scope.** -/
theorem outcome_run (host : Host) (c : Call) (w : World) :
    (c.run host).outcome w = (c.within (c.body host)).outcome w := by
  cases c with
  | expr e => exact within_map (.expr e) (e.eval host) Reply.value w
  | arguments args =>
    exact within_map (.arguments args) (Expr.evalArguments host args) Reply.arguments w
  | place target =>
    show (do return .place (← evalPlace host target) : Eval Reply).outcome w = _
    rw [evalPlace_eq]
    exact within_map (.place target) (target.target.place host) Reply.place w
  | lhs e =>
    show (do return .place (← evalTarget host e) : Eval Reply).outcome w = _
    rw [evalTarget_eq]
    exact within_map (.lhs e) (e.target.place host) Reply.place w
  | plusEquals name v => exact within_map (.plusEquals name v) (sumOf name v) Reply.value w
  | eggex tree => exact within_map (.eggex tree) (compileEggex host tree) Reply.eggex w

end Call

/-! ### What calls preserve -/

theorem Eval.calm_sumOf (name : Token) (v : Value) : Calm (sumOf name v) := by
  unfold sumOf
  refine (calm_lookup _ _).bind fun current => ?_
  split
  · exact calm_fresh.bind fun h => calm_ofFault _ _
  · exact calm_fresh.bind fun h => calm_ofFault _ _
  · exact calm_fail _

section Preserved

variable {m n : Type → Type} [Monad m] [Monad n] [Machine m] [Machine n]
  {R : {α : Type} → (α → Prop) → m α → n α → Prop} {host : Host} {limit : Option Nat}

namespace Respects

theorem calm (hR : Respects (fun _ => True) host.limit limit R) {α : Type} {x : Eval α}
    (hx : Eval.Calm x) : R (fun _ => True) (Machine.act x : m α) (Machine.act x : n α) :=
  hR.act hx (yields_true x)

theorem place (hR : Respects (fun _ => True) host.limit limit R) (target : Target) :
    R (fun _ => True) (target.place host : m Place)
      (target.place (host.withLimit limit) : n Place) := by
  have hs := host.sound_true
  cases target with
  | named tok => exact hR.pure trivial
  | item obj indices =>
    refine hR.bind (hR.eval hs obj fun _ _ => trivial) fun o _ => ?_
    refine hR.bind (G := fun _ => True) ?_ fun i _ => hR.pure trivial
    refine hR.bind (hR.evalAll hs indices fun _ _ => trivial) fun vs _ => ?_
    exact hR.calm (calm_joinIndices vs)
  | attr obj op name =>
    refine hR.bind (hR.eval hs obj fun _ _ => trivial) fun o _ => ?_
    cases op with
    | arrow => exact hR.bind hR.fresh fun h _ => hR.pure trivial
    | dot => exact hR.pure trivial
    | doubleColon => exact hR.pure trivial
  | invalid e => exact hR.calm (calm_fail e)

/-- **The work of a call preserves what the steps of an evaluation preserve.** -/
theorem body (hR : Respects (fun _ => True) host.limit limit R) (c : Call) :
    R (fun _ => True) (c.body host : m Reply) (c.body (host.withLimit limit) : n Reply) := by
  have hs := host.sound_true
  cases c with
  | expr e => exact hR.bind (hR.eval hs e fun _ _ => trivial) fun v _ => hR.pure trivial
  | arguments args =>
    refine hR.bind (G := fun _ => True) ?_ fun as _ => hR.pure trivial
    refine hR.bind (hR.evalPositional hs args.positional fun _ _ => trivial) fun ps _ => ?_
    refine hR.bind (hR.evalNamed hs [] args.named (by simp) fun _ _ => trivial) fun ns _ => ?_
    exact hR.pure trivial
  | place target => exact hR.bind (hR.place target.target) fun p _ => hR.pure trivial
  | lhs e => exact hR.bind (hR.place e.target) fun p _ => hR.pure trivial
  | plusEquals name v => exact hR.bind (hR.calm (calm_sumOf name v)) fun s _ => hR.pure trivial
  | eggex tree => exact hR.bind (hR.calm (calm_compileEggex host tree)) fun t _ => hR.pure trivial

end Respects

end Preserved

/-! ### Flags and depth -/

/-- The end of a computation that leaves the flags and the depth as they were, has run its commands
with these flags, and gives a result as it should be. -/
structure Eval.Ends {α : Type} (G : α → Prop) (w : World) (o : Except EvalError α × World) :
    Prop where
  options : o.2.options = w.options
  depth : o.2.depth = w.depth
  runs : ∃ ran, o.2.runs = w.runs ++ ran ∧ ∀ r ∈ ran, r.flags = w.options.current
  result : ∀ a, o.1 = .ok a → G a

/-- Whether a computation always ends so. -/
def Eval.Tidy {α : Type} (G : α → Prop) (x : Eval α) : Prop := ∀ w, Ends G w (x.outcome w)

namespace Eval

variable {α β : Type} {G : α → Prop} {H : β → Prop}

theorem Tidy.bind {x : Eval α} {f : α → Eval β} (hx : Tidy G x) (hf : ∀ a, G a → Tidy H (f a)) :
    Tidy H (x >>= f) := by
  intro w
  have h := hx w
  rw [outcome_bind]
  generalize x.outcome w = o at h ⊢
  obtain ⟨r, w'⟩ := o
  cases r with
  | error e => exact ⟨h.options, h.depth, h.runs, fun b hb => by contradiction⟩
  | ok a =>
    have h' := hf a (h.result a rfl) w'
    obtain ⟨ran, hr, hflags⟩ := h.runs
    obtain ⟨ran', hr', hflags'⟩ := h'.runs
    have ho : w'.options = w.options := h.options
    rw [ho] at hflags'
    refine ⟨h'.options.trans ho, h'.depth.trans h.depth, ⟨ran ++ ran', ?_, ?_⟩, h'.result⟩
    · rw [← List.append_assoc, ← hr]
      exact hr'
    · exact List.forall_mem_append.mpr ⟨hflags, hflags'⟩

theorem tidy_act {x : Eval α} (hx : Calm x) (hg : Yields (fun _ => True) G x) : Tidy G x := by
  intro w
  have h := hx w
  exact ⟨h.options, h.depth, h.runs, fun a ha => hg w a (Store.holds_true _) ha⟩

theorem tidy_nested {x : Eval α} (limit : Option Nat) (span : Span) (hx : Tidy G x) :
    Tidy G (nested limit span x) := by
  intro w
  rw [outcome_nested]
  split
  · exact tidy_act (calm_fail _) (yields_fail _) w
  · have h := hx { w with depth := w.depth + 1 }
    refine ⟨h.options, ?_, h.runs, h.result⟩
    show (x.outcome { w with depth := w.depth + 1 }).2.depth - 1 = w.depth
    rw [h.depth]
    rfl

theorem tidy_link (op : CompareOp) (opSpan : Span) (left right : Value) :
    Tidy (fun _ => True) (link op opSpan left right) := by
  intro w
  refine ⟨?_, ?_, ⟨[], ?_, by simp⟩, fun _ _ => trivial⟩ <;> rw [world_link]
  · rfl
  · rfl
  · exact (List.append_nil _).symm

/-- Each step of an evaluation is tidy. -/
theorem tidy_respects (limit : Option Nat) :
    Respects (m := Eval) (n := Eval) (fun _ => True) limit limit fun G x _ => Tidy G x where
  pure h := tidy_act (calm_pure _) (yields_pure h)
  bind := Tidy.bind
  act := tidy_act
  link := tidy_link _ _ _ _
  enter := tidy_nested limit _

end Eval

namespace Call

/-- **A call leaves the flags and the depth as they were**, whatever comes of it, and runs its
commands with the flags of its scope. -/
theorem ends_run (host : Host) (c : Call) (w : World) :
    let w' := ((c.run host).outcome w).2
    w'.options = w.options ∧ w'.depth = w.depth ∧
      ∃ ran, w'.runs = w.runs ++ ran ∧ ∀ r ∈ ran, r.flags = c.scope w.options.current := by
  have h : Tidy (fun _ => True) (c.body host) := (tidy_respects host.limit).body c
  rw [outcome_run, outcome_within]
  obtain ⟨ho, hd, hr, -⟩ := h (c.entered w)
  cases c with
  | expr e => exact ⟨congrArg OptionStack.pop ho, hd, hr⟩
  | _ => exact ⟨ho, hd, hr⟩

theorem union_scope (c : Call) (flags : Flags) : flags.union (c.scope flags) = c.scope flags := by
  cases c <;> simp [scope, Flags.union, Flags.errexit]

/-- Only an expression turns the flag for commands on. -/
theorem errexit_scope (c : Call) (flags : Flags) : (c.scope flags).commandSubErrexit = true ↔
    (∃ e, c = .expr e) ∨ flags.commandSubErrexit = true := by
  cases c <;> simp [scope, Flags.union, Flags.errexit]

/-- **The flags of commands.** All flags in effect before a call are in effect for the commands it
runs. The flag that makes their failures fatal is turned on by the evaluation of an expression, and
by no other call: arguments and targets run their commands without it, unless it was on before. -/
theorem flags_of_run (host : Host) (c : Call) (w : World) :
    ∃ ran, ((c.run host).outcome w).2.runs = w.runs ++ ran ∧ ∀ r ∈ ran,
      w.options.current.union r.flags = r.flags ∧
        (r.flags.commandSubErrexit = true ↔
          (∃ e, c = .expr e) ∨ w.options.current.commandSubErrexit = true) := by
  obtain ⟨-, -, ran, hr, hflags⟩ := ends_run host c w
  refine ⟨ran, hr, fun r hran => ?_⟩
  rw [hflags r hran]
  exact ⟨c.union_scope _, c.errexit_scope _⟩

/-- An argument and the objects of two targets, all a command that runs without the flag. -/
theorem runs_without_errexit :
    let host := ({ outputs := [("a", .ok "A")] } : Tables).host
    let a : Expr := .commandSub ⟨.output, "a", ⟨1, 5⟩⟩ ⟨1, 5⟩
    let calls : List Call := [.arguments ⟨[a], []⟩, .place (.subscript a []),
      .lhs (.subscript a [] .dummy)]
    ∀ c ∈ calls, ∃ r ∈ ((c.run host).outcome {}).2.runs, r.flags.commandSubErrexit = false := by
  intro host a calls c hc
  have hmem : c = calls[0] ∨ c = calls[1] ∨ c = calls[2] := by simpa [calls] using hc
  obtain rfl | rfl | rfl := hmem <;> decide +kernel

/-! ### The store -/

/-- What is noted of a call: the expressions it enters, their values and the links it reaches. -/
def events (host : Host) (c : Call) (w : World) : List Event :=
  ((c.body host : Traced Reply) [] (c.entered w)).events

/-- **Of the store, a call changes no more than the match groups**, to those decided last. -/
theorem store_run (host : Host) (c : Call) (w : World) : ((c.run host).outcome w).2.store =
    { w.store with groups := lastDecided w.store.groups (c.events host w) } := by
  have herase := ((erases_respects host.limit).body c [] (c.entered w)).1
  have hkeep := (groups_invariant.respects host.limit).body c [] (c.entered w)
    (Store.holds_true _)
  have hstore : (c.entered w).store = w.store := by
    cases c <;> rfl
  have hleft : ∀ v, (c.left v).store = v.store := by
    intro v
    cases c <;> rfl
  rw [outcome_run, outcome_within]
  show (c.left ((Eval.outcome (c.body host) (c.entered w)).2)).store = _
  rw [hleft, ← hstore, ← show _ = Eval.outcome (c.body host) (c.entered w) from herase]
  exact hkeep.kept

end Call

end ShellExpr
