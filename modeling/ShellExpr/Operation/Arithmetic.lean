import ShellExpr.Fault
import ShellExpr.Value.Basic

/-!
# Binary and unary operators

Numbers share one arithmetic, truth values counting as zero and one; strings, lists and tuples can
be joined and repeated. An operator on other operands is a mismatch.

* `binary`: the value of a binary operator on two values; `h` is the handle of a new result.
* `unary`: the value of a unary operator.
* `Repetition.sequence`: a sequence a number of times over, an overflow if it gets too long.
-/

namespace ShellExpr

namespace Arithmetic

def mismatch (op : BinaryOp) (left right : Value) : Fault :=
  .mismatch (.operands op.symbol left.typeName right.typeName)

def overflow (operation : String) : Fault := .exprEval (.overflow operation)

/-- An integer result, or the overflow of the named operation. -/
def checked (operation : String) : Option Int64 → Except Fault Value
  | some n => .ok (.int n)
  | none => .error (overflow operation)

/-- The operators that keep two truth values a truth value. -/
def onBools? (a b : Bool) : BinaryOp → Option Bool
  | .bitAnd => some (a && b)
  | .bitOr => some (a || b)
  | .bitXor => some (a != b)
  | _ => none

/-- `a ** b`: an integer for a natural exponent, a float for a negative one. -/
def power (a b : Int64) : Except Fault Value :=
  if b < 0 then
    .ok (.float ((Double.ofInt a.toInt).reciprocalPower (min b.toInt.natAbs (2 ^ 31))))
  else checked "exponentiation" (Integer.pow? a b.toInt.toNat)

def shiftLeft (a b : Int64) : Except Fault Value :=
  if b < 0 then .error (.missing .shiftCount)
  else checked "left shift" (Integer.shiftLeft? a b.toInt.toNat)

def shiftRight (a b : Int64) : Except Fault Value :=
  if b < 0 then .error (.missing .shiftCount) else .ok (.int (Integer.shiftRight a b.toInt.toNat))

/-- An operator on two integers, the divisor not being zero. -/
def onInts? (a b : Int64) : BinaryOp → Option (Except Fault Value)
  | .add => some (checked "addition" (Integer.add? a b))
  | .sub => some (checked "subtraction" (Integer.sub? a b))
  | .mul => some (checked "multiplication" (Integer.mul? a b))
  | .floorDiv => some (checked "floor division" (Integer.floorDiv? a b))
  | .mod => some (checked "modulo" (Integer.mod? a b))
  | .pow => some (power a b)
  | .bitAnd => some (.ok (.int (a &&& b)))
  | .bitOr => some (.ok (.int (a ||| b)))
  | .bitXor => some (.ok (.int (a ^^^ b)))
  | .shiftLeft => some (shiftLeft a b)
  | .shiftRight => some (shiftRight a b)
  | _ => none

/-- An operator on two floats, the divisor not being zero. -/
def onDoubles? (a b : Double) : BinaryOp → Option Double
  | .add => some (a.add b)
  | .sub => some (a.sub b)
  | .mul => some (a.mul b)
  | .pow => some (a.pow b)
  | .floorDiv => some (a.floorDiv b)
  | .mod => some (a.mod b)
  | _ => none

/-- An operator on two numbers, or nothing if it takes none. -/
def onNumbers? (a b : Number) (op : BinaryOp) : Option (Except Fault Value) :=
  if op.isDivision && b.toDouble.isZero then some (.error (.divideByZero op))
  else if op = .div then some (.ok (.float (a.toDouble.div b.toDouble)))
  else match a, b with
    | .int x, .int y => onInts? x y op
    | _, _ => (onDoubles? a.toDouble b.toDouble op).map fun x => .ok (.float x)

end Arithmetic

namespace Repetition

/-- No sequence may get this long. This is no constant of the language: it stands for the length at
which memory cannot be reserved, and the machine decides which that is. -/
def lengthLimit : Nat := 2 ^ 62

/-- How many copies a count asks for; none for a negative one. -/
def copies (n : Int64) : Nat := n.toInt.toNat

/-- `count` copies of a sequence whose length counts as `size`. -/
def sequence (size : Nat) (xs : List α) (count : Nat) : Except Fault (List α) :=
  if size * count = 0 then .ok []
  else if lengthLimit ≤ size * count then .error (Arithmetic.overflow "repetition")
  else .ok (List.replicate count xs).flatten

/-- A string, a list or a tuple a number of times over; nothing for other values. -/
def value? (h : Handle) (n : Int64) : Value → Option (Except Fault Value)
  | .str _ s => some ((sequence s.utf8ByteSize s.toList (copies n)).map fun cs =>
      .str h (String.ofList cs))
  | .list _ xs => some ((sequence xs.length xs (copies n)).map (.list h))
  | .tuple _ xs => some ((sequence xs.length xs (copies n)).map (.tuple h))
  | _ => none

end Repetition

namespace Arithmetic

/-- An operator on two values that are not both numbers. -/
def onSequences (h : Handle) (op : BinaryOp) (left right : Value) : Except Fault Value :=
  match left, right with
  | .str _ a, .str _ b =>
    if op = .add ∨ op = .concat then .ok (.str h (a ++ b)) else .error (mismatch op left right)
  | .list _ a, .list _ b =>
    if op = .add ∨ op = .concat then .ok (.list h (a ++ b)) else .error (mismatch op left right)
  | .tuple _ a, .tuple _ b =>
    if op = .add ∨ op = .concat then .ok (.tuple h (a ++ b)) else .error (mismatch op left right)
  | other, .int n | .int n, other =>
    if op = .mul then (Repetition.value? h n other).getD (.error (mismatch op left right))
    else .error (mismatch op left right)
  | _, _ => .error (mismatch op left right)

end Arithmetic

open Arithmetic in
/-- The value of a binary operator on two values. `and` and `or` give one of their operands. -/
def binary (h : Handle) (op : BinaryOp) (left right : Value) : Except Fault Value :=
  match op, left, right with
  | .and, _, _ => .ok (if left.isTruthy then right else left)
  | .or, _, _ => .ok (if left.isTruthy then left else right)
  | _, .bool a, .bool b =>
    match onBools? a b op with
    | some c => .ok (.bool c)
    | none =>
      (onNumbers? (.int (Integer.ofBool a)) (.int (Integer.ofBool b)) op).getD
        (.error (mismatch op left right))
  | _, _, _ =>
    match left.number?, right.number? with
    | some a, some b => (onNumbers? a b op).getD (.error (mismatch op left right))
    | _, _ => onSequences h op left right

/-- The value of a unary operator. -/
def unary (op : UnaryOp) (operand : Value) : Except Fault Value :=
  match op, operand with
  | .not, v => .ok (.bool !v.isTruthy)
  | .neg, .int n => Arithmetic.checked "negation" (Integer.neg? n)
  | .neg, .bool b => .ok (.int (-Integer.ofBool b))
  | .neg, .float x => .ok (.float x.neg)
  | .bitNot, .int n => .ok (.int (~~~n))
  | .bitNot, .bool b => .ok (.int (~~~(Integer.ofBool b)))
  | op, v => .error (.mismatch (.unaryOperand op.symbol v.typeName))

end ShellExpr
