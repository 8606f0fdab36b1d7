import ShellExpr.Assoc
import ShellExpr.Fault
import ShellExpr.Value.Key

/-!
# Subscripts and attributes

* `subscript`: an entry of a map, an element or a piece of a sequence; `h` is the handle of a new
  result.
* `member`: a member of a host object.
-/

namespace ShellExpr

namespace Access

/-- What a sequence can be indexed with. -/
inductive Index where
  | position (i : Int)
  | piece (s : Slice)

/-- An index value of a sequence. -/
def index (container : Value) : Value → Except Fault Index
  | .int n => .ok (.position n.toInt)
  | .bool b => .ok (.position (Integer.ofBool b).toInt)
  | .slice s => .ok (.piece s)
  | other => .error (.mismatch (.index container.typeName other.typeName))

/-- The element at a position, which counts from the end if it is negative. -/
def element (xs : List α) (i : Int) : Except Fault α :=
  let j := if i < 0 then i + xs.length else i
  match if j < 0 then none else xs[j.toNat]? with
  | some x => .ok x
  | none => .error (.exprEval .outOfRange)

/-- An element or a piece of a sequence: `one` makes a value of an element, `many` of a piece. -/
def sequence (container index : Value) (xs : List α) (one : α → Value) (many : List α → Value) :
    Except Fault Value := do
  match ← Access.index container index with
  | .position i => return one (← element xs i)
  | .piece s => return many (s.select xs)

/-- The value of an array slot; a hole is null. -/
def slot (h : Handle) : Option String → Value
  | some s => .str h s
  | none => .null

/-- The value found in a map. -/
def entry : Option Value → Except Fault Value
  | some v => .ok v
  | none => .error (.exprEval .noEntry)

end Access

open Access in
/-- The entry, element or piece that an index selects. -/
def subscript (h : Handle) (obj index : Value) : Except Fault Value :=
  match obj with
  | .dict _ es =>
    match Key.ofValue? index with
    | some k => entry (Assoc.get? k es)
    | none => .error (.mismatch (.hash index.typeName))
  | .assocArray _ es =>
    match index with
    | .str _ k => entry ((Assoc.get? k es).map (.str h))
    | _ => .error (.mismatch (.index obj.typeName index.typeName))
  | .list _ xs => sequence obj index xs id (.list h)
  | .tuple _ xs => sequence obj index xs id (.tuple h)
  | .strArray _ slots => sequence obj index slots (slot h) (.strArray h)
  | .str _ s => sequence obj index s.toList (fun c => .str h (String.ofList [c]))
      fun cs => .str h (String.ofList cs)
  | _ => .error (.mismatch (.subscript obj.typeName))

/-- A member of a host object. -/
def member (obj : Value) (name : String) : Except Fault Value :=
  match obj with
  | .object _ type attrs =>
    match Assoc.get? name attrs with
    | some v => .ok v
    | none => .error (.missing (.attr type name))
  | _ => .error (.missing (.attr obj.typeName name))

end ShellExpr
