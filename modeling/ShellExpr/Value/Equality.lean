import ShellExpr.Assoc
import ShellExpr.Value.Key

/-!
# Equality of values

Numbers are equal across their types, an integer compared with a float as the nearest float.
Collections are equal by content, maps whatever the order of their entries; callables and host
objects only by allocation. Two collections of one allocation are equal without a look at their
content, which matters where the content holds a value that does not equal itself.

* `Value.equalBy`: equality, with a test for shared allocations as a parameter.
* `Value.equal`: equality as programs see it.
* `Value.alike`: equality by content alone.
-/

namespace ShellExpr

/-- Equality of numbers. -/
def Number.equal : Number → Number → Bool
  | int a, int b => a = b
  | a, b => a.toDouble.equal b.toDouble

namespace Value

/-- Whether two associative arrays have the same entries, in any order. -/
def sameEntries (a b : List (String × String)) : Bool :=
  a.length = b.length && a.all fun e => Assoc.get? e.1 b = some e.2

/-- Equality of values that hold no others. -/
def scalarEqual (a b : Value) : Bool :=
  match a.number?, b.number? with
  | some x, some y => x.equal y
  | _, _ => false

mutual

/-- Equality, in which `share` tells which allocations need no comparison of their content. -/
def equalBy (share : Handle → Handle → Bool) : Value → Value → Bool
  | str h a, str k b => share h k || a = b
  | strArray h a, strArray k b => share h k || a = b
  | assocArray h a, assocArray k b => share h k || sameEntries a b
  | null, null => true
  | list h a, list k b => share h k || allEqualBy share a b
  | tuple h a, tuple k b => share h k || allEqualBy share a b
  | dict h a, dict k b => share h k || (a.length = b.length && entriesEqualBy share a b)
  | range a, range b => a = b
  | slice a, slice b => a = b
  | func h _, func k _ => h = k
  | eggex h a, eggex k b => share h k || (a.tree.same b.tree && a.flags = b.flags)
  | object h _ _, object k _ _ => h = k
  | a, b => scalarEqual a b

/-- Equality of lists of values, element by element. -/
def allEqualBy (share : Handle → Handle → Bool) : List Value → List Value → Bool
  | [], [] => true
  | x :: xs, y :: ys => equalBy share x y && allEqualBy share xs ys
  | _, _ => false

/-- Whether every entry of the first map is in the second. -/
def entriesEqualBy (share : Handle → Handle → Bool) :
    List (Key × Value) → List (Key × Value) → Bool
  | [], _ => true
  | (k, v) :: rest, other =>
    (match Assoc.get? k other with
      | some w => equalBy share v w
      | none => false) && entriesEqualBy share rest other

end

/-- Equality as programs see it: what shares an allocation is equal. -/
def equal : Value → Value → Bool := equalBy fun h k => h = k

/-- Equality by content alone. -/
def alike : Value → Value → Bool := equalBy fun _ _ => false

end Value

end ShellExpr
