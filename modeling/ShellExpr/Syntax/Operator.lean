/-!
# Operators

The operators of the expression language and their spellings.

* `BinaryOp.isLogical`: the two operators that decide on truth and may skip their right side.
* `CompareOp.holds`: what the four ordering operators ask of the order of their operands.
-/

namespace ShellExpr

/-- Operators with two operands, comparisons apart. -/
inductive BinaryOp where
  | add | sub | mul
  /-- Division of floats, whatever the operands. -/
  | div
  /-- Division rounded toward negative infinity. -/
  | floorDiv
  | mod | pow
  /-- Joins strings, lists or tuples. -/
  | concat
  | bitAnd | bitOr | bitXor | shiftLeft | shiftRight | and | or
deriving DecidableEq, Inhabited

namespace BinaryOp

def symbol : BinaryOp → String
  | add => "+"
  | sub => "-"
  | mul => "*"
  | div => "/"
  | floorDiv => "//"
  | mod => "%"
  | pow => "**"
  | concat => "++"
  | bitAnd => "&"
  | bitOr => "|"
  | bitXor => "^"
  | shiftLeft => "<<"
  | shiftRight => ">>"
  | and => "and"
  | or => "or"

def isLogical : BinaryOp → Bool
  | and | or => true
  | _ => false

/-- The operators after which a zero on the right is an error. -/
def isDivision : BinaryOp → Bool
  | div | floorDiv | mod => true
  | _ => false

end BinaryOp

/-- Operators with one operand. -/
inductive UnaryOp where
  | neg | bitNot | not
deriving DecidableEq, Inhabited

def UnaryOp.symbol : UnaryOp → String
  | neg => "-"
  | bitNot => "~"
  | not => "not"

/-- Operators of a comparison chain. -/
inductive CompareOp where
  | lt | gt | le | ge
  | eq | notEq
  | mem | notMem
  /-- Identity. -/
  | is
  | isNot
  | glob | notGlob
  | regex | notRegex
  /-- Loose equality of a string with a typed value. -/
  | approx
deriving DecidableEq, Inhabited

namespace CompareOp

def symbol : CompareOp → String
  | lt => "<"
  | gt => ">"
  | le => "<="
  | ge => ">="
  | eq => "==="
  | notEq => "!=="
  | mem => "in"
  | notMem => "not in"
  | is => "is"
  | isNot => "is not"
  | glob => "~~"
  | notGlob => "!~~"
  | regex => "~"
  | notRegex => "!~"
  | approx => "~=="

/-- What an ordering operator asks of the order of its operands; false for the other operators. -/
def holds : CompareOp → Ordering → Bool
  | lt, o => o = .lt
  | gt, o => o = .gt
  | le, o => o ≠ .gt
  | ge, o => o ≠ .lt
  | _, _ => false

end CompareOp

/-- How an attribute is written: with a dot, as sugar for a string subscript, or statically. -/
inductive AttrOp where
  | dot | arrow | doubleColon
deriving DecidableEq, Inhabited

end ShellExpr
