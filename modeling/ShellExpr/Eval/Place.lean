import ShellExpr.Eval.Expr

/-!
# Assignment targets

A target is resolved to a place: its object and index are evaluated, nothing is assigned. Writing
to the place is a step of its own.

* `evalPlace`: the place of a target.
* `evalTarget`: the place of an expression used as a target.
* `plusEquals`: the value that `+=` assigns.
-/

namespace ShellExpr

namespace Eval

/-- The place of an element or entry. -/
def itemPlace (host : Host) (obj : Expr) (indices : List Expr) : Eval Place := do
  let o ← obj.eval host
  let i ← Expr.evalIndices host indices
  return .item o i

/-- The place of an attribute; an arrow is sugar for the string as an index. -/
def attrPlace (host : Host) (obj : Expr) (op : AttrOp) (attr : Token) : Eval Place := do
  let o ← obj.eval host
  match op with
  | .arrow => return .item o (.str (← fresh) attr.text)
  | .dot | .doubleColon => return .attr o attr.text

end Eval

open Eval

/-- The place of a target. -/
def evalPlace (host : Host) (target : PlaceExpr) : Eval Place :=
  classified (match target with
  | .var tok => pure (.named tok.text)
  | .subscript obj indices => itemPlace host obj indices
  | .member obj op _ attr => attrPlace host obj op attr
  | .tuple _ => fail (Fault.unsupported "Tuple unpacking").unplaced
  | .starred _ => fail (Fault.unsupported "Starred assignment target").unplaced)

/-- The place of an expression used as a target. -/
def evalTarget (host : Host) (target : Expr) : Eval Place :=
  classified (match target with
  | .var tok _ => pure (.named tok.text)
  | .subscript obj indices _ => itemPlace host obj indices
  | .member obj op _ attr _ => attrPlace host obj op attr
  | _ => fail ((Fault.unsupported "Assignment to this expression").placed target.span))

/-- The sum of the value of a variable, which must be a number, and another value. -/
def plusEquals (name : Token) (v : Value) : Eval Value :=
  classified do
    let current ← lookup name.text name.span
    match current with
    | .int _ | .float _ => do
      let h ← fresh
      ofFault name.span (binary h .add current v)
    | _ => fail ((Fault.exprEval (.plusEquals current.typeName)).placed name.span)

/-- Writes a place. -/
def assignPlace (place : Place) (v : Value) (scope : Scope) : Eval Unit := do
  match (← get).store.assign place v scope with
  | .ok store => modify fun w => { w with store }
  | .error f => fail f.unplaced

/-- `target = expr`: resolves the target, evaluates the expression and writes its value, which is
the result. -/
def assign (host : Host) (target expr : Expr) (scope : Scope) : Eval Value := do
  let place ← evalTarget host target
  let v ← evalExpr host expr
  assignPlace place v scope
  return v

/-- `name += expr`: evaluates the expression and writes the sum, which is the result. -/
def assignSum (host : Host) (name : Token) (expr : Expr) (scope : Scope) : Eval Value := do
  let v ← evalExpr host expr
  let sum ← plusEquals name v
  assignPlace (.named name.text) sum scope
  return sum

end ShellExpr
