import ShellExpr.Number.Integer
import ShellExpr.Number.Double
import ShellExpr.Eggex.Tree

/-!
# Values

The shell knows strings, arrays of strings with holes, and associative arrays; the expression
language adds numbers, collections, callables, compiled eggexes and host objects. Every value that
lives on the heap carries the handle of its allocation, which identity tests compare; the other
values are identical when equal.

* `Value.isTruthy`: what counts as true.
* `Slice.bounds`: the positions that a slice selects.
-/

namespace ShellExpr

/-- The allocation of a heap value. An operation that makes several values from one handle gives
its parts the handles below it. -/
structure Handle where
  path : List Nat
deriving DecidableEq, Inhabited

/-- The `i`-th handle below one. -/
def Handle.child (h : Handle) (i : Nat) : Handle := ⟨i :: h.path⟩

/-- Integers from `start` up to but excluding `stop`. -/
structure Range where
  start : Int64
  stop : Int64
deriving DecidableEq, Inhabited

namespace Range

def length (r : Range) : Nat := (r.stop.toInt - r.start.toInt).toNat

def isEmpty (r : Range) : Bool := r.length = 0

def contains (r : Range) (n : Int) : Bool := r.start.toInt ≤ n && n < r.stop.toInt

/-- The first `n` integers of the range, or all if there are fewer. -/
def first (r : Range) (n : Nat) : List Int64 :=
  (List.range (min n r.length)).map fun i : Nat => Int64.ofInt (r.start.toInt + i)

def items (r : Range) : List Int64 := r.first r.length

end Range

/-- An index for a piece of a sequence. -/
structure Slice where
  lower : Option Int64
  upper : Option Int64
deriving DecidableEq, Inhabited

namespace Slice

/-- A bound as a position in a sequence of length `n`: counted from the end if negative, and
clamped to the sequence. -/
def clamp (n : Nat) (i : Int64) : Nat :=
  if i.toInt < 0 then n - i.toInt.natAbs else min i.toInt.toNat n

/-- The first selected position and the one after the last; equal if nothing is selected. -/
def bounds (s : Slice) (n : Nat) : Nat × Nat :=
  let lower := (s.lower.map (clamp n)).getD 0
  let upper := (s.upper.map (clamp n)).getD n
  (lower, max lower upper)

/-- The selected elements. -/
def select (s : Slice) (xs : List α) : List α :=
  let (lower, upper) := s.bounds xs.length
  (xs.take upper).drop lower

end Slice

/-- Key of a dict. A float equal to a machine integer is that integer's key. -/
inductive Key where
  | null
  | bool (b : Bool)
  | int (n : Int64)
  | float (x : Double)
  | str (s : String)
  | tuple (items : List Key)
deriving Inhabited

/-- A compiled eggex with the flags it was written with. -/
structure EggexValue where
  tree : Eggex
  flags : List String
deriving Inhabited

/-- Runtime value. -/
inductive Value where
  | str (handle : Handle) (text : String)
  /-- An indexed array of strings; unset slots are holes. -/
  | strArray (handle : Handle) (slots : List (Option String))
  | assocArray (handle : Handle) (entries : List (String × String))
  | null
  | bool (b : Bool)
  | int (n : Int64)
  | float (x : Double)
  | list (handle : Handle) (items : List Value)
  | tuple (handle : Handle) (items : List Value)
  | dict (handle : Handle) (entries : List (Key × Value))
  | range (r : Range)
  | slice (s : Slice)
  /-- A callable of the host, by name. -/
  | func (handle : Handle) (name : String)
  | eggex (handle : Handle) (e : EggexValue)
  /-- A host object with named members. -/
  | object (handle : Handle) (type : String) (attrs : List (String × Value))
deriving Inhabited

/-- A numeric operand; a truth value counts as zero or one. -/
inductive Number where
  | int (n : Int64)
  | float (x : Double)
deriving DecidableEq, Inhabited

def Number.toDouble : Number → Double
  | int n => Double.ofInt n.toInt
  | float x => x

namespace Value

def typeName : Value → String
  | str .. => "Str"
  | strArray .. => "StrArray"
  | assocArray .. => "AssocArray"
  | null => "Null"
  | bool _ => "Bool"
  | int _ => "Int"
  | float _ => "Float"
  | list .. => "List"
  | tuple .. => "Tuple"
  | dict .. => "Dict"
  | range _ => "Range"
  | slice _ => "Slice"
  | func .. => "Func"
  | eggex .. => "Eggex"
  | object .. => "Obj"

/-- Whether the value counts as true: what is empty, zero, null or false does not. -/
def isTruthy : Value → Bool
  | str _ s => !s.isEmpty
  | strArray _ slots => !slots.isEmpty
  | assocArray _ es => !es.isEmpty
  | null => false
  | bool b => b
  | int n => n ≠ 0
  | float x => !x.isZero
  | list _ xs => !xs.isEmpty
  | tuple _ xs => !xs.isEmpty
  | dict _ es => !es.isEmpty
  | range r => !r.isEmpty
  | slice _ | func .. | eggex .. | object .. => true

def isNull : Value → Bool
  | null => true
  | _ => false

/-- Whether the value is one that the shell itself does not know. -/
def isObj : Value → Bool
  | str .. | strArray .. | assocArray .. => false
  | _ => true

def str? : Value → Option String
  | str _ s => some s
  | _ => none

def int? : Value → Option Int64
  | int n => some n
  | _ => none

def bool? : Value → Option Bool
  | bool b => some b
  | _ => none

def items? : Value → Option (List Value)
  | list _ xs => some xs
  | _ => none

def eggex? : Value → Option EggexValue
  | eggex _ e => some e
  | _ => none

def number? : Value → Option Number
  | int n => some (.int n)
  | bool b => some (.int (Integer.ofBool b))
  | float x => some (.float x)
  | _ => none

/-- Identity: the same allocation, or equal values that have none. Floats are identical bit for
bit. -/
def isSame : Value → Value → Bool
  | str h _, str k _ => h = k
  | strArray h _, strArray k _ => h = k
  | assocArray h _, assocArray k _ => h = k
  | null, null => true
  | bool a, bool b => a = b
  | int a, int b => a = b
  | float a, float b => a = b
  | list h _, list k _ => h = k
  | tuple h _, tuple k _ => h = k
  | dict h _, dict k _ => h = k
  | range a, range b => a = b
  | slice a, slice b => a = b
  | func h _, func k _ => h = k
  | eggex h _, eggex k _ => h = k
  | object h _ _, object k _ _ => h = k
  | _, _ => false

end Value

end ShellExpr
