import ShellExpr.Options
import ShellExpr.Store
import ShellExpr.Words

/-!
# The world of an evaluation

An evaluation reads and writes a world: variables and match groups, option flags, the depth of
nesting, the commands run so far and the supply of handles. It asks a host for words, commands and
callables. What it did to the world stays when it fails.

* `Eval`: computations that change a world and may fail.
* `Eval.nested`: a computation one level deeper, within the limit.
* `Eval.withFlags`: a computation with more flags in effect.
-/

namespace ShellExpr

/-- A command run: what was run, and the flags then in effect. -/
structure Run where
  sub : CommandSub
  flags : Flags
  /-- How many overrides of the flags were active. -/
  optionDepth : Nat
deriving DecidableEq, Inhabited

/-- What an evaluation changes. -/
structure World where
  store : Store := {}
  options : OptionStack := {}
  /-- How many expression nodes are being evaluated, one inside the other. -/
  depth : Nat := 0
  /-- The commands run so far, in order. -/
  runs : List Run := []
  /-- The number of the next new allocation. -/
  supply : Nat := 0
deriving Inhabited

/-- Arguments of a call that were evaluated. -/
structure Arguments where
  positional : List Value
  /-- Named arguments in the order of their names' first occurrence. -/
  named : List (String × Value)
deriving Inhabited

/-- What an evaluation asks of its surroundings. -/
structure Host where
  words : Words
  /-- The output of a command, run with the given flags in effect. -/
  run : CommandSub → Flags → Except EvalError String
  /-- The fields of a command's output. -/
  split : String → List String
  /-- The result of a callable, by its name; the handle is that of a new result. -/
  call : Handle → String → Arguments → Except EvalError Value
  /-- No expression may be nested deeper, if there is a limit. -/
  limit : Option Nat := none
  /-- Whether assertions are checked, as they are in a debug build. -/
  debug : Bool := true

/-- A computation that changes a world and may fail. -/
abbrev Eval := ExceptT EvalError (StateM World)

namespace Eval

/-- The result of a computation in a world, and the world after it. -/
def outcome (m : Eval α) (w : World) : Except EvalError α × World := m.run w

/-- The computation that is given by its results. -/
def mk (f : World → Except EvalError α × World) : Eval α := ExceptT.mk f

def fail (e : EvalError) : Eval α := throw e

@[simp] theorem outcome_mk (f : World → Except EvalError α × World) (w : World) :
    (mk f).outcome w = f w := rfl

@[simp] theorem outcome_pure (a : α) (w : World) : outcome (pure a) w = (.ok a, w) := rfl

@[simp] theorem outcome_fail (e : EvalError) (w : World) :
    (fail e : Eval α).outcome w = (.error e, w) := rfl

/-- A failure ends a computation and keeps the world as it is then. -/
theorem outcome_bind (m : Eval α) (f : α → Eval β) (w : World) :
    (m >>= f).outcome w = match m.outcome w with
      | (.ok a, w') => (f a).outcome w'
      | (.error e, w') => (.error e, w') := by
  change (ExceptT.bindCont f (m w).1 : StateM World _) (m w).2 = _
  unfold outcome ExceptT.run
  rcases m w with ⟨r, w'⟩
  cases r <;> rfl

/-- A result that is known already. -/
def of : Except EvalError α → Eval α
  | .ok a => pure a
  | .error e => fail e

/-- A result that is known already, its fault at `span` if that is a place. -/
def ofFault (span : Span) : Except Fault α → Eval α
  | .ok a => pure a
  | .error f => fail (f.near span)

/-- A new allocation. -/
def fresh : Eval Handle := mk fun w => (.ok ⟨[w.supply]⟩, { w with supply := w.supply + 1 })

/-- A value of a variable as the world has it. -/
def lookup (name : String) (span : Span) : Eval Value := do
  match (← get).store.lookup name .localOrGlobal with
  | some v => pure v
  | none => fail ((Fault.undefined name).placed span)

/-- Replaces the match groups. -/
def setGroups (groups : List String) : Eval Unit :=
  modify fun w => { w with store := { w.store with groups } }

/-- Runs a computation one level deeper, unless the limit is reached. The depth is back at its old
value afterwards, whatever the outcome. -/
def nested (limit : Option Nat) (span : Span) (body : Eval α) : Eval α := mk fun w =>
  match limit with
  | some n =>
    if n ≤ w.depth then (.error ((Fault.tooDeep n).placed span), w)
    else
      let (r, w') := body.outcome { w with depth := w.depth + 1 }
      (r, { w' with depth := w'.depth - 1 })
  | none =>
    let (r, w') := body.outcome { w with depth := w.depth + 1 }
    (r, { w' with depth := w'.depth - 1 })

/-- Runs a computation with more flags in effect. The override ends with it, whatever the
outcome. -/
def withFlags (flags : Flags) (body : Eval α) : Eval α := mk fun w =>
  let (r, w') := body.outcome { w with options := w.options.push flags }
  (r, { w' with options := w'.options.pop })

/-- Reclassifies the error of a computation. -/
def classified (body : Eval α) : Eval α := mk fun w =>
  let (r, w') := body.outcome w
  (r.mapError EvalError.classify, w')

/-- The output of a command, which is noted among those run. -/
def command (host : Host) (sub : CommandSub) : Eval String := mk fun w =>
  let flags := w.options.current
  let ran : Run := ⟨sub, flags, w.options.depth⟩
  (host.run sub flags, { w with runs := w.runs ++ [ran] })

end Eval

end ShellExpr
