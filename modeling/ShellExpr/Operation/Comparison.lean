import ShellExpr.Fault
import ShellExpr.Number.Decimal
import ShellExpr.Text.Blank
import ShellExpr.Value.Equality

/-!
# Comparison

Equality, identity, order, membership and loose equality. The pattern operators need a matcher and
are left to evaluation.

* `order`: numbers by value, strings by code point, lists and tuples by their first unequal
  elements; nothing is ordered against not-a-number.
* `contains`: membership in strings, collections, maps and ranges.
* `approxEqual`: a string, blanks at its ends aside, against a string, an integer or a truth value.
* `compareValues`: one link of a chain.
-/

namespace ShellExpr

namespace Number

/-- The order of two numbers: exact for two integers, else of the nearest floats. -/
def compare? : Number → Number → Option Ordering
  | int a, int b => some (compare a.toInt b.toInt)
  | a, b => a.toDouble.compare? b.toDouble

end Number

/-- The order of two texts, character by character. -/
def compareTexts : List Char → List Char → Ordering
  | [], [] => .eq
  | [], _ :: _ => .lt
  | _ :: _, [] => .gt
  | a :: as, b :: bs => if a < b then .lt else if b < a then .gt else compareTexts as bs

mutual

/-- The order of two values, of which there may be none. -/
def order (op : CompareOp) : Value → Value → Except Fault (Option Ordering)
  | .str _ a, .str _ b => .ok (some (compareTexts a.toList b.toList))
  | .list _ xs, .list _ ys => orderItems op xs ys
  | .tuple _ xs, .tuple _ ys => orderItems op xs ys
  | a, b =>
    match a.number?, b.number? with
    | some x, some y => .ok (x.compare? y)
    | _, _ => .error (.mismatch (.order op.symbol a.typeName b.typeName))

/-- The order of two sequences: that of their first unequal elements, or of their lengths. -/
def orderItems (op : CompareOp) : List Value → List Value → Except Fault (Option Ordering)
  | x :: xs, y :: ys => if x.equal y then orderItems op xs ys else order op x y
  | [], [] => .ok (some .eq)
  | [], _ :: _ => .ok (some .lt)
  | _ :: _, [] => .ok (some .gt)

end

/-- Whether a text stands somewhere in another. -/
def isWithin (needle : List Char) : List Char → Bool
  | [] => needle.isEmpty
  | c :: rest => needle.isPrefixOf (c :: rest) || isWithin needle rest

/-- No larger float is looked for in a range. -/
def integralLimit : Int := 9200000000000000000

/-- The integer a float equals, short of the limit. -/
def integral? (x : Double) : Option Int := x.toInt?.filter fun n => n.natAbs < integralLimit

/-- Whether an item is in a container. -/
def contains (container item : Value) : Except Fault Bool :=
  match container with
  | .str _ s =>
    match item with
    | .str _ t => .ok (isWithin t.toList s.toList)
    | _ => .error (.mismatch (.substring item.typeName))
  | .strArray _ slots => .ok (item.str?.any fun s => slots.contains (some s))
  | .assocArray _ es => .ok (item.str?.any fun s => Assoc.contains s es)
  | .list _ xs => .ok (xs.any fun x => x.equal item)
  | .tuple _ xs => .ok (xs.any fun x => x.equal item)
  | .dict _ es =>
    match Key.ofValue? item with
    | some k => .ok (Assoc.contains k es)
    | none => .error (.mismatch (.hash item.typeName))
  | .range r =>
    match item.number? with
    | some (.int n) => .ok (r.contains n.toInt)
    | some (.float x) => .ok ((integral? x).any r.contains)
    | none => .ok false
  | _ => .error (.mismatch (.iterate container.typeName))

/-- Loose equality of a string with a typed value. -/
def approxEqual (left right : Value) : Except Fault Bool :=
  match left with
  | .str _ s =>
    let cs := Blank.trim s.toList
    match right with
    | .str _ t => .ok (cs = t.toList)
    | .bool b =>
      let lower := cs.map Decimal.lower
      if lower = "true".toList ∨ lower = ['1'] then .ok b
      else if lower = "false".toList ∨ lower = ['0'] then .ok !b
      else .ok false
    | .int n =>
      if cs.all Numeral.isDecimalDigit then
        .ok ((Numeral.value? 10 cs).bind (fun m => Integer.ofInt? m) = some n)
      else .ok false
    | _ => .error (.exprEval .approxRight)
  | _ => .error (.exprEval .approxLeft)

/-- One link of a comparison chain, the pattern operators apart. -/
def compareValues (op : CompareOp) (left right : Value) : Except Fault Bool :=
  match op with
  | .eq => .ok (left.equal right)
  | .notEq => .ok !(left.equal right)
  | .is => .ok (left.isSame right)
  | .isNot => .ok !(left.isSame right)
  | .mem => contains right left
  | .notMem => (contains right left).map not
  | .approx => approxEqual left right
  | .lt | .gt | .le | .ge => (order op left right).map fun o => o.any op.holds
  | .glob | .notGlob | .regex | .notRegex => .error (.mismatch (.matcher op.symbol))

end ShellExpr
