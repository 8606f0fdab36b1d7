import ShellExpr.Pattern.Escape

/-!
# Bracket expressions

A bracket expression holds characters, ranges, classes and further bracket expressions, and may
combine two such lists by `&&` (both), `--` (the first only) or `~~` (exactly one), the operators
taken from left to right. A caret at its start complements it.

* `Brackets.read?`: the set of a bracket expression, how deep it is nested, and what follows it.
-/

namespace ShellExpr.Pattern.Brackets

/-- A set and how deep its expression is nested. -/
structure Term where
  set : CharSet
  nesting : Nat

/-- Operators between two lists of terms. -/
inductive Operator where
  | inter | diff | symDiff

def Operator.apply : Operator → CharSet → CharSet → CharSet
  | inter, a, b => .inter a b
  | diff, a, b => .diff a b
  | symDiff, a, b => .symDiff a b

/-- A bracket expression being read: its terms so far, the last one first, and the operator before
them with its left side. -/
structure Open where
  negated : Bool
  terms : List Term
  pending : Option (Operator × Term) := none

namespace Open

def add (b : Open) (t : Term) : Open := { b with terms := t :: b.terms }

/-- The union of the terms since the last operator. -/
def list (b : Open) : Term :=
  match b.terms with
  | [t] => t
  | ts =>
    { set := CharSet.unions (ts.reverse.map Term.set)
      nesting := if ts.isEmpty then 0 else 1 + (ts.map Term.nesting).foldl max 0 }

/-- All that was read, the pending operator applied. -/
def content (b : Open) : Term :=
  match b.pending with
  | none => b.list
  | some (op, left) =>
    { set := op.apply (.fold left.set) (.fold b.list.set)
      nesting := 1 + max left.nesting b.list.nesting }

/-- What was read becomes the left side of an operator. -/
def operate (b : Open) (op : Operator) : Open :=
  { b with terms := [], pending := some (op, b.content) }

/-- The closed bracket expression. -/
def close (b : Open) : Term :=
  let t := b.content
  { set := if b.negated then .compl (.fold t.set) else .fold t.set
    nesting := 1 + t.nesting }

end Open

def literal (c : Char) : Term := ⟨.single c, 0⟩

/-- The dashes at the start of a bracket expression, which stand for themselves. -/
def leadingDashes : List Char → List Term × List Char
  | '-' :: rest =>
    let (ts, rest) := leadingDashes rest
    (literal '-' :: ts, rest)
  | cs => ([], cs)

/-- The start of a bracket expression after its bracket: a caret, dashes, and a closing bracket that
comes first and stands for itself. -/
def start (cs : List Char) : Open × List Char :=
  let (negated, cs) := match cs with
    | '^' :: rest => (true, rest)
    | _ => (false, cs)
  let (dashes, cs) := leadingDashes cs
  match dashes, cs with
  | [], ']' :: rest => (⟨negated, [literal ']'], none⟩, rest)
  | _, _ => (⟨negated, dashes, none⟩, cs)

/-- A class by name after its opening bracket, complemented by a caret. -/
def named? : List Char → Option (Term × List Char)
  | ':' :: cs =>
    let (negated, cs) := match cs with
      | '^' :: rest => (true, rest)
      | _ => (false, cs)
    match cs.dropWhile (· ≠ ':') with
    | ':' :: ']' :: rest =>
      (CharSet.ascii? (String.ofList (cs.takeWhile (· ≠ ':')))).map fun s =>
        (⟨if negated then .compl (.fold s) else s, 0⟩, rest)
    | _ => none
  | _ => none

/-- One character or class inside brackets. -/
def item? : List Char → Option (Escape × List Char)
  | [] => none
  | '\\' :: rest => Escape.read? rest
  | c :: rest => some (.char c, rest)

/-- An item as a term; a condition on the position is none. -/
def term? : Escape → Option Term
  | .char c => some (literal c)
  | .set s => some ⟨s, 0⟩
  | .look _ => none

/-- An item, or a range if a dash and a further item follow. A dash before a closing bracket or a
second dash makes no range. -/
def range? (cs : List Char) : Option (Term × List Char) := do
  let (low, rest) ← item? cs
  match rest with
  | [] => none
  | '-' :: after =>
    if after.head? = some ']' ∨ after.head? = some '-' then return (← term? low, rest)
    else
      let (high, rest) ← item? after
      match low, high with
      | .char a, .char b => if a ≤ b then some (⟨.range a b, 0⟩, rest) else none
      | _, _ => none
  | _ => return (← term? low, rest)

/-- What a step of reading leads to. -/
inductive Step where
  /-- The outermost bracket expression is closed. -/
  | done (t : Term) (rest : List Char)
  /-- Reading goes on inside the innermost open bracket expression. -/
  | next (outer : List Open) (inner : Open) (rest : List Char)

/-- One step of reading inside `inner`, which is inside `outer`. -/
def step? (outer : List Open) (inner : Open) : List Char → Option Step
  | [] => none
  | '[' :: cs =>
    match named? cs with
    | some (t, rest) => some (.next outer (inner.add t) rest)
    | none =>
      let (b, rest) := start cs
      some (.next (inner :: outer) b rest)
  | ']' :: cs =>
    match outer with
    | [] => some (.done inner.close cs)
    | b :: outer => some (.next outer (b.add inner.close) cs)
  | '&' :: '&' :: cs => some (.next outer (inner.operate .inter) cs)
  | '-' :: '-' :: cs => some (.next outer (inner.operate .diff) cs)
  | '~' :: '~' :: cs => some (.next outer (inner.operate .symDiff) cs)
  | cs => (range? cs).map fun (t, rest) => .next outer (inner.add t) rest

/-- Reads on up to the end of the outermost bracket expression. Every step takes characters. -/
def readFrom? (outer : List Open) (inner : Open) (cs : List Char) : Option (Term × List Char) :=
  match step? outer inner cs with
  | none => none
  | some (.done t rest) => some (t, rest)
  | some (.next outer inner rest) =>
    if _h : rest.length < cs.length then readFrom? outer inner rest else none
termination_by cs.length

/-- The bracket expression after its opening bracket, and what follows it. -/
def read? (cs : List Char) : Option (Term × List Char) :=
  let (b, rest) := start cs
  readFrom? [] b rest

end ShellExpr.Pattern.Brackets
