import ShellExpr.Eggex.Compile
import ShellExpr.Eval.Machine
import ShellExpr.Operation.Access
import ShellExpr.Operation.Arithmetic

/-!
# Evaluating expressions

Evaluation goes through a tree from left to right. `and`, `or`, conditionals and comparison chains
skip what cannot matter; the keys of a dict come before its values.

* `Expr.eval`: the value of an expression.
* `Expr.evalArguments`: the arguments of a call, spreads laid out.
* `evalExpr`, `evalArgList`, `evalEggex`: the entry points; the first runs commands with
  `Flags.errexit`, the first two reclassify raw faults.
-/

namespace ShellExpr

namespace Eval

/-! ### Arguments -/

/-- The elements of a spread sequence; `h` is the handle above new ones. -/
def spreadItems (h : Handle) : Value → Except Fault (List Value)
  | .list _ xs => .ok xs
  | .tuple _ xs => .ok xs
  | .strArray _ slots => .ok (slots.mapIdx fun i s => Access.slot (h.child i) s)
  | .range r => .ok (r.items.map .int)
  | v => .error (.mismatch (.iterate v.typeName))

/-- The named arguments with the entries of a dict, whose keys are strings. -/
def mergeEntries (named : List (String × Value)) :
    List (Key × Value) → Except Fault (List (String × Value))
  | [] => .ok named
  | (k, v) :: rest =>
    match k with
    | .str name => mergeEntries (Assoc.insert name v named) rest
    | _ => .error (.mismatch (.keyword k.typeName))

/-- The named arguments with the entries of a spread mapping; `h` is the handle above new ones. -/
def mergeNamed (h : Handle) (named : List (String × Value)) :
    Value → Except Fault (List (String × Value))
  | .dict _ es => mergeEntries named es
  | .assocArray _ es =>
    .ok (Assoc.insertAll named (es.mapIdx fun i e => (e.1, .str (h.child i) e.2)))
  | v => .error (.mismatch (.mapping v.typeName))

/-! ### Pieces of expressions -/

/-- The canonical form of an eggex, with the variables of the world. -/
def compileEggex (host : Host) (tree : Eggex) : Eval Eggex := do
  let store := (← get).store
  of (tree.compileAsserting host.debug
    ⟨host.words, fun name => store.lookup name .localOrGlobal⟩)

/-- The value of a command substitution. A block is never run. -/
def commandSub (host : Host) (sub : CommandSub) : Eval Value :=
  match sub.kind with
  | .output => do
    let out ← command host sub
    return .str (← fresh) out
  | .fields => do
    let out ← command host sub
    return .strArray (← fresh) ((host.split out).map some)
  | .block => pure .null

/-- A range of integers. -/
def rangeOf (lower upper : Value) (span : Span) : Eval Value :=
  match lower, upper with
  | .int a, .int b => pure (.range ⟨a, b⟩)
  | _, _ => fail ((Fault.mismatch (.operands ":" lower.typeName upper.typeName)).near span)

/-- A bound of a slice. -/
def sliceBound (span : Span) : Value → Eval (Option Int64)
  | .int n => pure (some n)
  | .null => pure none
  | v => fail ((Fault.mismatch (.sliceBound v.typeName)).near span)

/-- Indices as one value: a single one as it is, several as a tuple. -/
def joinIndices : List Value → Eval Value
  | [v] => pure v
  | vs => return .tuple (← fresh) vs

/-- The member that an attribute stands for. -/
def memberOf (op : AttrOp) (opSpan : Span) (attr : Token) (obj : Value) : Eval Value :=
  match op with
  | .dot => ofFault attr.span (member obj attr.text)
  | .arrow => do
    let h ← fresh
    ofFault opSpan (subscript h obj (.str (h.child 0) attr.text))
  | .doubleColon => fail ((Fault.unsupported "Static access with '::'").placed opSpan)

/-- The variable that a key of a dict names, for a value left out. -/
def implicitValue (key : Value) (span : Span) : Eval Value :=
  match key with
  | .str _ name => lookup name span
  | _ => fail ((Fault.mismatch (.implicitKey key.typeName)).near span)

/-- A value as a key of a dict. -/
def keyOf (key : Value) (span : Span) : Eval Key :=
  match Key.ofValue? key with
  | some k => pure k
  | none => fail ((Fault.mismatch (.hash key.typeName)).near span)

end Eval

/-! ### Expressions -/

namespace Expr

open Eval Machine

variable {m : Type → Type} [Monad m] [Machine m]

mutual

/-- The value of an expression. -/
def eval (host : Host) (e : Expr) : m Value :=
  enter host.limit e (match e with
  | .const tok _ => do
    let h ← act fresh
    act (of (Literal.constant h tok))
  | .var tok _ => act (lookup tok.text tok.span)
  | .commandSub sub _ => act (Eval.commandSub host sub)
  | .array words _ => do
    let fields ← act (of (host.words.sequence words))
    return .strArray (← act fresh) (fields.map some)
  | .word w _ => do
    let s ← act (of (host.words.string w))
    return .str (← act fresh) s
  | .unary op opSpan child _ => do
    let v ← eval host child
    act (ofFault opSpan (ShellExpr.unary op v))
  | .binary op opSpan left right _ => do
    let l ← eval host left
    match op with
    | .and => if l.isTruthy then eval host right else return l
    | .or => if l.isTruthy then return l else eval host right
    | _ => do
      let r ← eval host right
      let h ← act fresh
      act (ofFault opSpan (ShellExpr.binary h op l r))
  | .range lower upper span => do
    let l ← eval host lower
    let u ← eval host upper
    act (rangeOf l u span)
  | .slice lower upper _ => do
    let l ← evalBound host lower
    let u ← evalBound host upper
    return .slice ⟨l, u⟩
  | .compare left links _ => do
    let l ← eval host left
    return .bool (← evalLinks host l links)
  | .ifExp test body orElse _ => do
    let t ← eval host test
    if t.isTruthy then eval host body else eval host orElse
  | .list items _ => do
    let vs ← evalAll host items
    return .list (← act fresh) vs
  | .tuple items _ => do
    let vs ← evalAll host items
    return .tuple (← act fresh) vs
  | .dict keys values _ => do
    let ks ← evalAll host keys
    let es ← evalEntries host [] (ks.zip (keys.map Expr.span)) values
    return .dict (← act fresh) es
  | .implicit span =>
    act (fail ((Fault.unsupported "Implicit value outside a dict literal").placed span))
  | .reserved form _ span => act (fail ((Fault.reserved form.label).placed span))
  | .call func positional named _ => do
    let f ← eval host func
    match f with
    | .func _ name => do
      let ps ← evalPositional host positional
      let ns ← evalNamed host [] named
      let h ← act fresh
      act (of (host.call h name ⟨ps, ns⟩))
    | _ => act (fail ((Fault.mismatch (.call f.typeName)).placed func.span))
  | .subscript obj indices _ => do
    let o ← eval host obj
    let is ← evalAll host indices
    let i ← act (joinIndices is)
    let h ← act fresh
    act (ofFault Span.dummy (ShellExpr.subscript h o i))
  | .member obj op opSpan attr _ => do
    let o ← eval host obj
    act (memberOf op opSpan attr o)
  | .eggex tree flags _ => do
    let t ← act (compileEggex host tree)
    return .eggex (← act fresh) ⟨t, flags.map Token.text⟩
  | .spread _ span =>
    act (fail ((Fault.unsupported "Spread outside an argument list").placed span)))
termination_by structural e

/-- The values of several expressions, from left to right. -/
def evalAll (host : Host) : List Expr → m (List Value)
  | [] => pure []
  | e :: rest => do
    let v ← eval host e
    let vs ← evalAll host rest
    return v :: vs
termination_by structural es => es

/-- A bound of a slice; a missing one is open. -/
def evalBound (host : Host) : Option Expr → m (Option Int64)
  | none => pure none
  | some e => do
    let v ← eval host e
    act (sliceBound e.span v)
termination_by structural e => e

/-- The result of a comparison chain from the value of its first operand. -/
def evalLinks (host : Host) (left : Value) : List ((CompareOp × Span) × Expr) → m Bool
  | [] => pure true
  | ((op, opSpan), e) :: rest => do
    let right ← eval host e
    match ← Machine.link op opSpan left right with
    | .ends b => return b
    | .holds false => return false
    | .holds true => evalLinks host right rest
termination_by structural links => links

/-- The entries of a dict, from its evaluated keys with their places and its values. -/
def evalEntries (host : Host) (entries : List (Key × Value)) (keys : List (Value × Span))
    (values : List Expr) : m (List (Key × Value)) :=
  match values with
  | [] => pure entries
  | e :: rest =>
    match keys with
    | [] => pure entries
    | (key, span) :: keys => do
      let v ← if e.isImplicit then act (implicitValue key span) else eval host e
      let k ← act (keyOf key span)
      evalEntries host (Assoc.insert k v entries) keys rest
termination_by structural values

/-- The positional arguments of a call. -/
def evalPositional (host : Host) : List Expr → m (List Value)
  | [] => pure []
  | .spread child span :: rest => do
    let v ← eval host child
    let h ← act fresh
    let items ← act (ofFault span (spreadItems h v))
    let vs ← evalPositional host rest
    return items ++ vs
  | e :: rest => do
    let v ← eval host e
    let vs ← evalPositional host rest
    return v :: vs
termination_by structural es => es

/-- The named arguments of a call, written to those before them. -/
def evalNamed (host : Host) (named : List (String × Value)) :
    List (Option Token × Expr) → m (List (String × Value))
  | [] => pure named
  | (some name, e) :: rest => do
    let v ← eval host e
    evalNamed host (Assoc.insert name.text v named) rest
  | (none, e) :: rest => do
    let v ← eval host e
    let h ← act fresh
    let named ← act (ofFault e.span (mergeNamed h named v))
    evalNamed host named rest
termination_by structural args => args

end

/-- The arguments of a call: positional ones, then named ones. -/
def evalArguments (host : Host) (args : ArgList) : m Arguments := do
  let ps ← evalPositional host args.positional
  let ns ← evalNamed host [] args.named
  return ⟨ps, ns⟩

/-- The value of the indices of a subscript. -/
def evalIndices (host : Host) (indices : List Expr) : m Value := do
  let vs ← evalAll host indices
  act (joinIndices vs)

end Expr

/-! ### Entry points -/

/-- The value of an expression, its commands run with `Flags.errexit`. -/
def evalExpr (host : Host) (e : Expr) : Eval Value :=
  Eval.withFlags Flags.errexit (Eval.classified (e.eval host))

/-- The arguments of a call. -/
def evalArgList (host : Host) (args : ArgList) : Eval Arguments :=
  Eval.classified (Expr.evalArguments host args)

/-- The canonical form of an eggex; raw faults stay raw. -/
def evalEggex (host : Host) (tree : Eggex) : Eval Eggex := Eval.compileEggex host tree

end ShellExpr
