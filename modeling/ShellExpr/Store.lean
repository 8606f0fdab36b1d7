import ShellExpr.Fault
import ShellExpr.Value.Equality

/-!
# Variables and places

A store has a global frame, a stack of local frames and the groups of the last pattern match. With
no local frame pushed, the global frame is the local one too. Values are immutable, so only names
can be assigned.

* `Store.lookup`: the value that a name has in a scope.
* `Store.assign`: a store with a place written, or the fault of a place that cannot be.
-/

namespace ShellExpr

/-- What an assignment writes to. -/
inductive Place where
  | named (name : String)
  | item (obj index : Value)
  | attr (obj : Value) (name : String)
deriving Inhabited

namespace Place

/-- Equality of places, their values compared as programs compare them. -/
def equal : Place → Place → Bool
  | named a, named b => a = b
  | item a i, item b j => a.equal b && i.equal j
  | attr a m, attr b n => a.equal b && m = n
  | _, _ => false

def name? : Place → Option String
  | named n => some n
  | _ => none

end Place

/-- Which frames a lookup or an assignment may touch. -/
inductive Scope where
  /-- The innermost frame. -/
  | localOnly
  /-- The global frame. -/
  | globalOnly
  /-- The innermost frame, then the global one. -/
  | localOrGlobal
  /-- Every frame from the innermost outwards, then the global one. -/
  | dynamic
deriving DecidableEq, Inhabited

/-- The variables of one frame. -/
abbrev Frame := List (String × Value)

/-- Variables and match groups; the innermost local frame comes first. -/
structure Store where
  globals : Frame := []
  frames : List Frame := []
  /-- The whole match and its groups; empty after a failed match. -/
  groups : List String := []
deriving Inhabited

namespace Store

/-- The innermost frame. -/
def localFrame (s : Store) : Frame := s.frames.head?.getD s.globals

def pushFrame (s : Store) : Store := { s with frames := [] :: s.frames }

def popFrame (s : Store) : Store := { s with frames := s.frames.tail }

/-- Binds a name in the global frame. -/
def defineGlobal (name : String) (v : Value) (s : Store) : Store :=
  { s with globals := Assoc.insert name v s.globals }

/-- Binds a name in the innermost frame. -/
def define (name : String) (v : Value) (s : Store) : Store :=
  match s.frames with
  | [] => s.defineGlobal name v
  | f :: rest => { s with frames := Assoc.insert name v f :: rest }

/-- The value of a name in the first frame that binds it. -/
def lookupFrames (name : String) : List Frame → Option Value
  | [] => none
  | f :: rest =>
    match Assoc.get? name f with
    | some v => some v
    | none => lookupFrames name rest

/-- The frames with a name written in the first frame that binds it. -/
def writeFrames? (name : String) (v : Value) : List Frame → Option (List Frame)
  | [] => none
  | f :: rest =>
    if Assoc.contains name f then some (Assoc.insert name v f :: rest)
    else (writeFrames? name v rest).map (f :: ·)

/-- The value that a name has in a scope. -/
def lookup (name : String) (scope : Scope) (s : Store) : Option Value :=
  match scope with
  | .localOnly => Assoc.get? name s.localFrame
  | .globalOnly => Assoc.get? name s.globals
  | .localOrGlobal => lookupFrames name [s.localFrame, s.globals]
  | .dynamic => lookupFrames name (s.frames ++ [s.globals])

/-- The store with a name written where the scope finds it, or else in the innermost frame. -/
def write (name : String) (v : Value) (scope : Scope) (s : Store) : Store :=
  match scope with
  | .localOnly => s.define name v
  | .globalOnly => s.defineGlobal name v
  | .localOrGlobal =>
    if !Assoc.contains name s.localFrame && Assoc.contains name s.globals then
      s.defineGlobal name v
    else s.define name v
  | .dynamic =>
    match writeFrames? name v s.frames with
    | some frames => { s with frames }
    | none =>
      if Assoc.contains name s.globals then s.defineGlobal name v else s.define name v

/-- The store with a place written. -/
def assign (place : Place) (v : Value) (scope : Scope) (s : Store) : Except Fault Store :=
  match place with
  | .named name => .ok (s.write name v scope)
  | .item .. => .error (.unsupported "Indexed assignment")
  | .attr .. => .error (.unsupported "Attribute assignment")

end Store

end ShellExpr
