import ShellExpr.Text.CaseFold
import ShellExpr.Text.CharClass

/-!
# Sets of characters

Sets are kept as they are written, with the operations of bracket expressions. Where a set may have
to ignore case, it is marked by `fold`: with the marks it holds all variants of its letters, and
`exact` takes the marks away.

* `CharSet.mem`: membership.
* `CharSet.ascii?`: the classes with a name.
-/

namespace ShellExpr.Pattern

/-- A set of characters. -/
inductive CharSet where
  | empty
  | single (c : Char)
  | range (first last : Char)
  | digit
  | blank
  | word
  | union (a b : CharSet)
  | inter (a b : CharSet)
  | diff (a b : CharSet)
  /-- What is in exactly one of two sets. -/
  | symDiff (a b : CharSet)
  | compl (a : CharSet)
  /-- All variants of the letters of a set. -/
  | fold (a : CharSet)
deriving DecidableEq, Inhabited

namespace CharSet

/-- Whether the character is in the set. -/
def mem : CharSet → Char → Bool
  | empty, _ => false
  | single d, c => c = d
  | range first last, c => first ≤ c && c ≤ last
  | digit, c => CharClass.isDigit c
  | blank, c => Blank.isBlank c
  | word, c => CharClass.isWord c
  | union a b, c => a.mem c || b.mem c
  | inter a b, c => a.mem c && b.mem c
  | diff a b, c => a.mem c && !b.mem c
  | symDiff a b, c => a.mem c != b.mem c
  | compl a, c => !a.mem c
  | fold a, c => (CaseFold.variants c).any a.mem

/-- The set with case regarded. -/
def exact : CharSet → CharSet
  | union a b => union a.exact b.exact
  | inter a b => inter a.exact b.exact
  | diff a b => diff a.exact b.exact
  | symDiff a b => symDiff a.exact b.exact
  | compl a => compl a.exact
  | fold a => a.exact
  | s => s

/-- The union of several sets. -/
def unions : List CharSet → CharSet
  | [] => empty
  | [s] => s
  | s :: rest => union s (unions rest)

/-- The ASCII class of a name. -/
def ascii? (name : String) : Option CharSet :=
  let upper := range 'A' 'Z'
  let lower := range 'a' 'z'
  let decimal := range '0' '9'
  match name with
  | "alnum" => some (unions [decimal, upper, lower])
  | "alpha" => some (unions [upper, lower])
  | "ascii" => some (range '\x00' '\x7f')
  | "blank" => some (unions [single '\t', single ' '])
  | "cntrl" => some (unions [range '\x00' '\x1f', single '\x7f'])
  | "digit" => some decimal
  | "graph" => some (range '!' '~')
  | "lower" => some lower
  | "print" => some (range ' ' '~')
  | "punct" => some (unions [range '!' '/', range ':' '@', range '[' '\x60', range '\x7b' '~'])
  | "space" => some (unions [range '\t' '\r', single ' '])
  | "upper" => some upper
  | "word" => some (unions [decimal, upper, lower, single '_'])
  | "xdigit" => some (unions [decimal, range 'A' 'F', range 'a' 'f'])
  | _ => none

end CharSet

end ShellExpr.Pattern
