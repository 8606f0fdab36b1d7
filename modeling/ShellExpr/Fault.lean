import ShellExpr.Syntax.Operator
import ShellExpr.Syntax.Span
import ShellExpr.Number.Numeral

/-!
# Faults

Why an evaluation fails. A fault is a cause; its kind, its text and its exit status are functions
of it. Two kinds are *raw*: operators and access report a `mismatch` of types or something
`missing`, and the entry points of evaluation reclassify these as errors of the expression. A `panic`
is set apart from all of them: it takes the way of an error, but is none.

* `Fault.text`: the text of a fault.
* `EvalError`: a fault with the text shown to a user and its place.
* `EvalError.classify`: raw faults become errors of the expression, all others stay.
* `EvalError.orSpan`: a place is added only where none is known.
-/

namespace ShellExpr

/-- An operand whose type an operation does not take. Types are given by name. -/
inductive Mismatch where
  | operands (op left right : String)
  | unaryOperand (op operand : String)
  | order (op left right : String)
  /-- Something other than a string looked for in a string. -/
  | substring (item : String)
  /-- A pattern operator used where no matcher is at hand. -/
  | matcher (op : String)
  | call (operand : String)
  | subscript (operand : String)
  | iterate (operand : String)
  | hash (operand : String)
  | index (container index : String)
  | sliceBound (bound : String)
  /-- A dict value left out after a key that names no variable. -/
  | implicitKey (key : String)
  | keyword (key : String)
  /-- Something other than a mapping spread over the named arguments. -/
  | mapping (operand : String)
  /-- A mismatch that a callable or a command reports in its own words. -/
  | reported (message : String)
deriving DecidableEq, Inhabited

namespace Mismatch

def text : Mismatch → String
  | operands op l r => "unsupported operand type(s) for " ++ op ++ ": '" ++ l ++ "' and '" ++ r ++ "'"
  | unaryOperand op t => "bad operand type for unary " ++ op ++ ": '" ++ t ++ "'"
  | order op l r =>
    "'" ++ op ++ "' not supported between instances of '" ++ l ++ "' and '" ++ r ++ "'"
  | substring t => "'in <Str>' requires Str as left operand, not '" ++ t ++ "'"
  | matcher op => "'" ++ op ++ "' needs a pattern matcher"
  | call t => "'" ++ t ++ "' object is not callable"
  | subscript t => "'" ++ t ++ "' object is not subscriptable"
  | iterate t => "'" ++ t ++ "' object is not iterable"
  | hash t => "unhashable type: '" ++ t ++ "'"
  | index c t => "'" ++ c ++ "' indices must be integers or slices, not '" ++ t ++ "'"
  | sliceBound t => "slice indices must be Int or null, not '" ++ t ++ "'"
  | implicitKey t => "implicit dict value needs a Str key, not '" ++ t ++ "'"
  | keyword t => "keywords must be Str, not '" ++ t ++ "'"
  | mapping t => "argument after ... must be a Dict, not '" ++ t ++ "'"
  | reported m => m

end Mismatch

/-- Something asked for that is not there, or a text that stands for nothing. -/
inductive Missing where
  | attr (type name : String)
  | shiftCount
  | integerLiteral (text : String)
  | floatLiteral (text : String)
  | charLiteral (text : String)
  /-- A failure that a callable or a command reports in its own words. -/
  | reported (message : String)
deriving DecidableEq, Inhabited

namespace Missing

def text : Missing → String
  | attr t a => "'" ++ t ++ "' object has no attribute '" ++ a ++ "'"
  | shiftCount => "negative shift count"
  | integerLiteral s => "invalid integer literal '" ++ s ++ "'"
  | floatLiteral s => "could not convert string to float: '" ++ s ++ "'"
  | charLiteral s => "invalid character literal '" ++ s ++ "'"
  | reported m => m

end Missing

/-- A failure of the expression itself. -/
inductive Failure where
  | overflow (operation : String)
  | approxLeft
  | approxRight
  | noEntry
  | outOfRange
  | plusEquals (type : String)
  /-- What was missing, reclassified. -/
  | missing (cause : Missing)
deriving DecidableEq, Inhabited

namespace Failure

def text : Failure → String
  | overflow op => "integer overflow in " ++ op
  | approxLeft => "~== expects a string on the left"
  | approxRight => "~== expects Str, Int, or Bool on the right"
  | noEntry => "dict entry not found"
  | outOfRange => "index out of range"
  | plusEquals t => "Object of type '" ++ t ++ "' doesn't support +="
  | missing m => "Expression eval error: " ++ m.text

end Failure

/-- A failure to compile or to render an eggex. -/
inductive EggexFault where
  | splice (type : String)
  /-- Several bytes, not all ASCII, in one string of a character class. -/
  | ambiguousBytes
  /-- A leaf of syntax in a tree to be rendered. -/
  | notCompiled (node : String)
deriving DecidableEq, Inhabited

namespace EggexFault

def text : EggexFault → String
  | splice t => "Can't splice object of type '" ++ t ++ "' into regex"
  | ambiguousBytes => "Express these bytes as character literals to avoid confusing them " ++
      "with encoded characters"
  | notCompiled n => "eggex node " ++ n ++ " must be compiled before rendering"

end EggexFault

/-- Why an evaluation fails. -/
inductive Fault where
  | undefined (name : String)
  /-- A mismatch, reclassified. -/
  | exprType (cause : Mismatch)
  | exprEval (cause : Failure)
  | divideByZero (op : BinaryOp)
  /-- The pattern as written in literal syntax. -/
  | invalidRegex (pattern : String)
  | eggex (cause : EggexFault)
  | reserved (feature : String)
  | unsupported (feature : String)
  | tooDeep (limit : Nat)
  /-- A failure that a callable reports under its name. -/
  | callee (name message : String)
  | mismatch (cause : Mismatch)
  | missing (cause : Missing)
  /-- An assertion that does not hold. This is no error of the language but a panic: nothing handles
  it, and the program ends with it, so that the world it leaves does not matter. -/
  | panic (assertion : String)
deriving DecidableEq, Inhabited

namespace Fault

def text : Fault → String
  | undefined n => "Undefined variable '" ++ n ++ "'"
  | exprType m => "Type error in expression: " ++ m.text
  | exprEval f => f.text
  | divideByZero .div => "divide by zero"
  | divideByZero _ => "integer division or modulo by zero"
  | invalidRegex p => "Invalid regex " ++ p
  | eggex e => e.text
  | reserved f => f ++ " reserved but not implemented"
  | unsupported f => f ++ " not implemented"
  | tooDeep n =>
    "maximum expression depth exceeded (limit: " ++ String.ofList (Numeral.digits 10 n) ++ ")"
  | callee n m => n ++ ": " ++ m
  | mismatch m => m.text
  | missing m => m.text
  | panic a => a

/-- Whether evaluation panics. -/
def isPanic : Fault → Bool
  | panic _ => true
  | _ => false

/-- Whether the fault is still to be reclassified. -/
def isRaw : Fault → Bool
  | mismatch _ | missing _ => true
  | _ => false

/-- A raw fault as an error of the expression; every other fault as it is. -/
def classify : Fault → Fault
  | mismatch m => exprType m
  | missing m => exprEval (.missing m)
  | f => f

/-- Exit status: a rejected pattern and reserved syntax count as misuse. -/
def status : Fault → Nat
  | invalidRegex _ | reserved _ => 2
  | _ => 1

end Fault

/-- A fault, the text that is shown for it and its place in the source, where known. -/
structure EvalError where
  fault : Fault
  message : String
  span : Option Span := none
deriving DecidableEq, Inhabited

namespace EvalError

/-- The error of a fault, with the text of the fault and no place. -/
def ofFault (f : Fault) : EvalError := { fault := f, message := f.text }

/-- The error at a new place. -/
def withSpan (e : EvalError) (span : Span) : EvalError := { e with span := some span }

/-- The error at `span`, unless its place is known already or `span` is no place. -/
def orSpan (e : EvalError) (span : Span) : EvalError :=
  if e.span.isNone && !span.isDummy then e.withSpan span else e

/-- The error with a raw fault reclassified, which gives it another text, at the same place. -/
def classify (e : EvalError) : EvalError :=
  if e.fault.isRaw then { ofFault e.fault.classify with span := e.span } else e

end EvalError

namespace Fault

/-- The fault at a place. -/
def placed (f : Fault) (span : Span) : EvalError := (EvalError.ofFault f).withSpan span

/-- The fault at a place that may stand for none. -/
def near (f : Fault) (span : Span) : EvalError := (EvalError.ofFault f).orSpan span

/-- The fault without a place. -/
def unplaced (f : Fault) : EvalError := EvalError.ofFault f

end Fault

end ShellExpr
