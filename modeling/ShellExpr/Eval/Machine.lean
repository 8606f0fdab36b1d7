import ShellExpr.Eggex.Render
import ShellExpr.Eval.World
import ShellExpr.Glob
import ShellExpr.Operation.Comparison
import ShellExpr.Pattern.Cache
import ShellExpr.Syntax.Expr
import ShellExpr.Value.Printer

/-!
# Machines

Evaluation is written once for all machines that can act on a world, decide the links of comparison
chains and enter expressions. The evaluator proper is the machine `Eval`. A match by `~` leaves its
groups behind, a miss clears them.

* `Eval.link`: one link of a comparison chain.
* `Machine`: what an evaluation needs.
-/

namespace ShellExpr

/-! ### Patterns -/

namespace Eval

/-- `left ~~ right`: whether the text matches the glob. -/
def globMatch (op : CompareOp) (opSpan : Span) (left right : Value) : Eval Bool :=
  match left, right with
  | .str _ text, .str _ pattern => pure (Glob.isMatch pattern.toList text.toList)
  | _, _ =>
    fail ((Fault.mismatch (.operands op.symbol left.typeName right.typeName)).near opSpan)

/-- The pattern of a right operand: a string as it is, an eggex rendered. -/
def patternOf (opSpan : Span) (right : Value) : Eval String :=
  match right with
  | .str _ s => pure s
  | .eggex _ e =>
    match e.tree.render with
    | .ok cs => pure (String.ofList cs)
    | .error f => fail f.unplaced
  | _ => fail ((Fault.invalidRegex right.text).placed opSpan)

/-- Whether a text matches a pattern. If `keepGroups`, the match groups become those of this match,
none after a miss. -/
def regexMatch (keepGroups : Bool) (opSpan : Span) (left right : Value) : Eval Bool := do
  let pattern ← patternOf opSpan right
  match left with
  | .str _ text =>
    match Verdict.of pattern text with
    | .rejected => fail ((Fault.invalidRegex right.text).placed opSpan)
    | .miss => do
      if keepGroups then setGroups []
      return false
    | .hit groups => do
      if keepGroups then setGroups groups
      return true
  | _ => fail ((Fault.mismatch (.operands "~" left.typeName right.typeName)).near opSpan)

/-- What a link of a comparison chain decides. -/
inductive Link where
  /-- Whether the chain goes on; if not it is false. -/
  | holds (b : Bool)
  /-- The chain ends with this result. -/
  | ends (b : Bool)

/-- One link of a comparison chain. -/
def link (op : CompareOp) (opSpan : Span) (left right : Value) : Eval Link :=
  match op with
  | .glob => return .ends (← globMatch op opSpan left right)
  | .notGlob => return .ends !(← globMatch op opSpan left right)
  | .approx => return .ends (← ofFault opSpan (approxEqual left right))
  | .regex => return .holds (← regexMatch true opSpan left right)
  | .notRegex => return .holds !(← regexMatch false opSpan left right)
  | _ => return .holds (← ofFault opSpan (compareValues op left right))

end Eval

/-! ### Machines -/

/-- What runs an evaluation. -/
class Machine (m : Type → Type) where
  /-- Acts on the world. -/
  act {α : Type} : Eval α → m α
  /-- Decides a link of a comparison chain. -/
  link : CompareOp → Span → Value → Value → m Eval.Link
  /-- Enters an expression, given the limit on the nesting and the computation of its value. -/
  enter : Option Nat → Expr → m Value → m Value

instance : Machine Eval where
  act x := x
  link := Eval.link
  enter limit e body := Eval.nested limit e.span body

end ShellExpr
