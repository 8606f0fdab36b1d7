import ShellExpr.Eval.World
import ShellExpr.Text.Fields

/-!
# A host made of tables

A host whose variables in words and whose command outputs stand in tables, with a few callables
that give their arguments back or fail. It does no globbing and expands no braces.

* `Tables.wordEvaluator`: words with variables from a table.
* `Callables.call`: the callables by name.
* `Tables.host`: the host of the tables.
-/

namespace ShellExpr

namespace Callables

/-- A dict of named arguments. -/
def dictOf (h : Handle) (named : List (String × Value)) : Value :=
  .dict h (named.map fun e => (.str e.1, e.2))

/-- The message of a callable that fails: its first argument, if that is a string. -/
def message (args : Arguments) : String := (args.positional.head?.bind Value.str?).getD ""

/-- The result of a callable. `args` gives the positional arguments as a list, `kwargs` the named
ones as a dict, `both` the two as a tuple and `first` the first positional one; the others fail. -/
def call (h : Handle) (name : String) (args : Arguments) : Except EvalError Value :=
  match name with
  | "args" => .ok (.list h args.positional)
  | "kwargs" => .ok (dictOf h args.named)
  | "both" => .ok (.tuple h [.list (h.child 0) args.positional, dictOf (h.child 1) args.named])
  | "first" => .ok (args.positional.head?.getD .null)
  | "fail" => .error (Fault.callee name (message args)).unplaced
  | "fail_type" => .error (Fault.mismatch (.reported (message args))).unplaced
  | "fail_lookup" => .error (Fault.missing (.reported (message args))).unplaced
  | _ => .error (Fault.callee name "no such callable").unplaced

end Callables

/-- Tables for a host. -/
structure Tables where
  /-- The texts of variables in words. -/
  words : List (String × String) := []
  /-- The outputs of commands by their code, or how they fail; other commands print nothing. -/
  outputs : List (String × Except Fault String) := []
  /-- The characters that separate the fields of an output. -/
  separators : List Char := Fields.defaultSeparators
  /-- The limit on the nesting of expressions. -/
  limit : Option Nat := none

namespace Tables

/-- The text of a variable. -/
def textOf (t : Tables) (name : Token) : Except EvalError String :=
  match Assoc.get? name.text t.words with
  | some s => .ok s
  | none => .error ((Fault.undefined name.text).placed name.span)

/-- The text of a piece of a word. -/
def part (t : Tables) : WordPart → Except EvalError String
  | .literal tok => .ok tok.text
  | .simple s => t.textOf s.name
  | .braced s => t.textOf s.name

/-- The texts of the pieces of a word in a row. -/
def parts (t : Tables) : List WordPart → Except EvalError String
  | [] => .ok ""
  | p :: rest => do
    let s ← t.part p
    return s ++ (← t.parts rest)

/-- The texts of several words. -/
def wordTexts (t : Tables) : List CompoundWord → Except EvalError (List String)
  | [] => .ok []
  | w :: rest => do
    let s ← t.parts w.parts
    return s :: (← t.wordTexts rest)

/-- Words with the variables of the table. -/
def wordEvaluator (t : Tables) : Words where
  doubleQuoted w := t.parts w.parts
  braced s := t.textOf s.name
  simple s := t.textOf s.name
  sequence := t.wordTexts

/-- The output of a command, whatever the flags. -/
def run (t : Tables) (sub : CommandSub) (_ : Flags) : Except EvalError String :=
  match Assoc.get? sub.code t.outputs with
  | some (.ok s) => .ok s
  | some (.error f) => .error f.unplaced
  | none => .ok ""

/-- The fields of an output. -/
def split (t : Tables) (s : String) : List String :=
  (Fields.split t.separators s.toList).map String.ofList

/-- The host of the tables. -/
def host (t : Tables) : Host where
  words := t.wordEvaluator
  run := t.run
  split := t.split
  call := Callables.call
  limit := t.limit

end Tables

end ShellExpr
