/-!
# Option flags

The flags in effect while an expression is evaluated: base flags and a stack of overrides. A push
adds flags to those in effect until it is popped; a change of the base shows once no override is
left.

* `OptionStack.current`: the flags in effect.
* `OptionStack.push`, `OptionStack.pop`: entering and leaving an override.
-/

namespace ShellExpr

/-- A set of option flags. -/
structure Flags where
  /-- A failing command substitution is a fatal error. -/
  commandSubErrexit : Bool := false
  /-- No implicit conversion of arrays to strings. -/
  strictArray : Bool := false
  /-- Splicing of arrays into words. -/
  parseAt : Bool := false
deriving DecidableEq, Inhabited

namespace Flags

def none : Flags := {}

/-- The flag that evaluation of an expression turns on. -/
def errexit : Flags := { commandSubErrexit := true }

def union (a b : Flags) : Flags :=
  ⟨a.commandSubErrexit || b.commandSubErrexit, a.strictArray || b.strictArray,
    a.parseAt || b.parseAt⟩

end Flags

/-- Base flags and overrides, the innermost first. -/
structure OptionStack where
  base : Flags := Flags.none
  overrides : List Flags := []
deriving DecidableEq, Inhabited

namespace OptionStack

/-- The flags in effect. -/
def current (s : OptionStack) : Flags := s.overrides.head?.getD s.base

/-- How many overrides are active. -/
def depth (s : OptionStack) : Nat := s.overrides.length

/-- Adds flags to those in effect, until the matching `pop`. -/
def push (flags : Flags) (s : OptionStack) : OptionStack :=
  { s with overrides := s.current.union flags :: s.overrides }

/-- Ends the innermost override. -/
def pop (s : OptionStack) : OptionStack := { s with overrides := s.overrides.tail }

/-- Replaces the base flags under the active overrides. -/
def setBase (base : Flags) (s : OptionStack) : OptionStack := { s with base }

@[simp] theorem pop_push (flags : Flags) (s : OptionStack) : (s.push flags).pop = s := rfl

end OptionStack

end ShellExpr
