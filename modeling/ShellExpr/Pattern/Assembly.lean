import ShellExpr.Pattern.Lexeme

/-!
# Patterns from lexemes

Lexemes are taken one by one, with a stack of the groups that are open. A repetition applies to the
item before it; a change of mode lasts to the end of the group it stands in. Match groups are
numbered by their opening parentheses.

* `Assembly.take?`: the effect of one lexeme.
* `parse?`: the pattern of a text; nothing if the text is no pattern or is nested too deeply.
-/

namespace ShellExpr.Pattern

/-- The modes in effect. -/
structure Modes where
  ignoreCase : Bool := false
  multiLine : Bool := false
  dotAll : Bool := false
  swapGreed : Bool := false
deriving DecidableEq, Inhabited

namespace Modes

def set (ms : Modes) : Mode × Bool → Modes
  | (.ignoreCase, on) => { ms with ignoreCase := on }
  | (.multiLine, on) => { ms with multiLine := on }
  | (.dotAll, on) => { ms with dotAll := on }
  | (.swapGreed, on) => { ms with swapGreed := on }
  | (.unicode, _) => ms

def change (ms : Modes) (changes : ModeChanges) : Modes := changes.foldl set ms

/-- What the dot takes. -/
def dot (ms : Modes) : CharSet := .compl (if ms.dotAll then .empty else .single '\n')

end Modes

namespace Assembly

/-- A part of a pattern and how deep it is nested. -/
structure Item where
  pattern : Pattern
  nesting : Nat
  /-- Whether a repetition may follow. -/
  repeatable : Bool := true

/-- A group being read, the last items and branches first. -/
structure Level where
  branches : List Item := []
  items : List Item := []

namespace Level

def push (l : Level) (i : Item) : Level := { l with items := i :: l.items }

/-- One deeper than the deepest item, if there is more than one. -/
def nesting (items : List Item) : Nat :=
  match items with
  | [] => 0
  | [i] => i.nesting
  | _ => 1 + (items.map Item.nesting).foldl max 0

/-- The items of the last branch in a row. -/
def branch (l : Level) : Item :=
  { pattern := row (l.items.reverse.map Item.pattern), nesting := nesting l.items }

/-- Ends a branch. -/
def bar (l : Level) : Level := { branches := l.branch :: l.branches }

/-- All branches. -/
def content (l : Level) : Item :=
  let all := l.branch :: l.branches
  { pattern := choice (all.reverse.map Item.pattern), nesting := nesting all }

end Level

/-- An open group: what was read around it, the modes there, and its number as a match group. -/
structure Outer where
  level : Level
  modes : Modes
  number : Option Nat

/-- A pattern being read. -/
structure State where
  level : Level := {}
  outer : List Outer := []
  modes : Modes := {}
  /-- The number of the next match group. -/
  next : Nat := 1
  names : List (List Char) := []

namespace State

def push (s : State) (p : Pattern) (nesting : Nat) : State :=
  { s with level := s.level.push { pattern := p, nesting } }

/-- Opens a group. -/
def descend (s : State) (number : Option Nat) : State :=
  { s with level := {}, outer := ⟨s.level, s.modes, number⟩ :: s.outer }

/-- Closes the innermost group. -/
def ascend? (s : State) : Option State :=
  match s.outer with
  | [] => none
  | o :: outer =>
    let content := s.level.content
    let p := match o.number with
      | some n => capture n content.pattern
      | none => content.pattern
    some { s with
      level := o.level.push { pattern := p, nesting := content.nesting + 1 }
      outer, modes := o.modes }

/-- Repeats the last item. -/
def repeat? (s : State) (min : Nat) (max : Option Nat) (greedy : Bool) : Option State :=
  match s.level.items with
  | i :: items =>
    if i.repeatable then
      some { s with level.items :=
        { pattern := repeated (greedy != s.modes.swapGreed) i.pattern min max
          nesting := i.nesting + 1 } :: items }
    else none
  | [] => none

end State

/-- The effect of one lexeme. -/
def take? (s : State) : Lexeme → Option State
  | .set chars nesting =>
    some (s.push (.set (if s.modes.ignoreCase then chars else chars.exact)) nesting)
  | .dot => some (s.push (.set s.modes.dot) 0)
  | .caret => some (s.push (.look (if s.modes.multiLine then .lineStart else .textStart)) 0)
  | .dollar => some (s.push (.look (if s.modes.multiLine then .lineEnd else .textEnd)) 0)
  | .look l => some (s.push (.look l) 0)
  | .openCapture none => some ({ s with next := s.next + 1 }.descend (some s.next))
  | .openCapture (some name) =>
    if s.names.contains name then none
    else some ({ s with next := s.next + 1, names := name :: s.names }.descend (some s.next))
  | .openGroup changes =>
    let inside := s.descend none
    some { inside with modes := s.modes.change changes }
  | .modes changes =>
    some { s with
      level := s.level.push { pattern := empty, nesting := 0, repeatable := false }
      modes := s.modes.change changes }
  | .close => s.ascend?
  | .bar => some { s with level := s.level.bar }
  | .rep min max greedy => s.repeat? min max greedy

/-- The effect of several lexemes. -/
def takeAll? (s : State) : List Lexeme → Option State
  | [] => some s
  | t :: rest => (take? s t).bind fun s => takeAll? s rest

/-- No pattern may be nested deeper. -/
def nestingLimit : Nat := 250

/-- The finished pattern. -/
def finish? (s : State) : Option Pattern :=
  let content := s.level.content
  if s.outer.isEmpty && content.nesting ≤ nestingLimit then some content.pattern else none

end Assembly

/-- The pattern that a text stands for, if it is well formed. -/
def parse? (cs : List Char) : Option Pattern :=
  (lexemes? cs).bind fun ts => (Assembly.takeAll? {} ts).bind Assembly.finish?

end ShellExpr.Pattern
