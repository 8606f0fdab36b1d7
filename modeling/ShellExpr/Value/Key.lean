import ShellExpr.Value.Basic

/-!
# Dict keys

Null, truth values, numbers, strings and tuples of such values can be keys. A float equal to a
machine integer becomes that integer's key, so `1` and `1.0` address one entry.

* `Key.ofValue?`: the key of a value that can be one.
* `Key.toValue`: the value that a key stands for.
-/

namespace ShellExpr.Key

mutual

/-- Equality of keys. -/
def same : Key → Key → Bool
  | null, null => true
  | bool a, bool b => a = b
  | int a, int b => a = b
  | float a, float b => a = b
  | str a, str b => a = b
  | tuple xs, tuple ys => allSame xs ys
  | _, _ => false

/-- Equality of lists of keys. -/
def allSame : List Key → List Key → Bool
  | [], [] => true
  | x :: xs, y :: ys => same x y && allSame xs ys
  | _, _ => false

end

mutual

theorem same_iff : ∀ a b : Key, same a b = true ↔ a = b
  | null, b => by cases b <;> simp [same]
  | bool _, b => by cases b <;> simp [same]
  | int _, b => by cases b <;> simp [same]
  | float _, b => by cases b <;> simp [same]
  | str _, b => by cases b <;> simp [same]
  | tuple xs, b => by cases b <;> simp [same, allSame_iff xs]

theorem allSame_iff : ∀ xs ys : List Key, allSame xs ys = true ↔ xs = ys
  | [], ys => by cases ys <;> simp [allSame]
  | x :: xs, ys => by cases ys <;> simp [allSame, same_iff x, allSame_iff xs]

end

instance : DecidableEq Key := fun a b => decidable_of_iff _ (same_iff a b)

/-- The key of a float: the nearest machine integer if that has the float's value. -/
def ofDouble (x : Double) : Key :=
  match x.toInt? with
  | some n =>
    let near := Integer.clamp n
    if (Double.ofInt near.toInt).equal x then int near else float x
  | none => float x

mutual

/-- The key of a value that can be one. -/
def ofValue? : Value → Option Key
  | .null => some null
  | .bool b => some (bool b)
  | .int n => some (int n)
  | .float x => some (ofDouble x)
  | .str _ s => some (str s)
  | .tuple _ items => (ofValues? items).map tuple
  | _ => none

/-- The keys of values that can all be keys. -/
def ofValues? : List Value → Option (List Key)
  | [] => some []
  | v :: rest =>
    match ofValue? v with
    | some k => (ofValues? rest).map (k :: ·)
    | none => none

end

mutual

/-- The value that a key stands for, newly made. -/
def toValue (handle : Handle) : Key → Value
  | null => .null
  | bool b => .bool b
  | int n => .int n
  | float x => .float x
  | str s => .str handle s
  | tuple items => .tuple handle (toValues handle 0 items)

/-- The values of the keys from position `i` on. -/
def toValues (handle : Handle) (i : Nat) : List Key → List Value
  | [] => []
  | k :: rest => toValue (handle.child i) k :: toValues handle (i + 1) rest

end

def str? : Key → Option String
  | str s => some s
  | _ => none

/-- The type of the value that a key stands for. -/
def typeName (k : Key) : String := (k.toValue ⟨[]⟩).typeName

end ShellExpr.Key
