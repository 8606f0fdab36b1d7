import ShellExpr.Pattern.CharSet

/-!
# Pattern trees

What a pattern asks of a text, as a tree of sets, assertions, marks and their combinations. A mark
records the position in a slot; a match group is a pattern between two marks.

* `Pattern.capture`: a match group.
* `Pattern.repeated`: a pattern between two numbers of times.
* `Pattern.groupCount`: how many groups a match has, the whole match included.
-/

namespace ShellExpr

namespace Pattern

/-- A condition on a position. -/
inductive Look where
  | textStart | textEnd | lineStart | lineEnd
  | wordBoundary | notWordBoundary | wordStart | wordEnd
  /-- No word character before. -/
  | wordStartHalf
  /-- No word character after. -/
  | wordEndHalf
deriving DecidableEq, Inhabited

end Pattern

/-- A pattern. Where a choice is `greedy`, going on is tried before leaving off. -/
inductive Pattern where
  | empty
  | set (s : Pattern.CharSet)
  | look (l : Pattern.Look)
  /-- Records the position in a slot. -/
  | mark (slot : Nat)
  | cat (p q : Pattern)
  /-- The first pattern is tried before the second. -/
  | alt (p q : Pattern)
  | opt (greedy : Bool) (p : Pattern)
  /-- One or more times. -/
  | plus (greedy : Bool) (p : Pattern)
  /-- What follows an iteration of `plus` that took characters: further ones, or nothing. -/
  | again (greedy : Bool) (p : Pattern)
  | times (p : Pattern) (n : Nat)
  /-- At most `n` times, each further time inside the one before. -/
  | upTo (greedy : Bool) (p : Pattern) (n : Nat)
deriving DecidableEq, Inhabited

namespace Pattern

/-- Several patterns in a row. -/
def row : List Pattern → Pattern
  | [] => empty
  | [p] => p
  | p :: rest => cat p (row rest)

/-- One of several patterns, the first ones tried first. -/
def choice : List Pattern → Pattern
  | [] => empty
  | [p] => p
  | p :: rest => alt p (choice rest)

/-- The match group with a number. -/
def capture (number : Nat) (p : Pattern) : Pattern :=
  cat (mark (2 * number)) (cat p (mark (2 * number + 1)))

/-- Whether the pattern never takes a character. -/
def isWidthless : Pattern → Bool
  | empty | look _ | mark _ => true
  | set _ => false
  | cat p q => p.isWidthless && q.isWidthless
  | alt p q => p.isWidthless && q.isWidthless
  | opt _ p => p.isWidthless
  | plus _ p => p.isWidthless
  | again _ p => p.isWidthless
  | times p n => n = 0 || p.isWidthless
  | upTo _ p n => n = 0 || p.isWidthless

/-- From `min` to `max` times, without an upper bound if that is missing. Once is as good as many
times for a pattern that takes no character, and a pattern repeated no times is gone, groups
included. -/
def repeated (greedy : Bool) (p : Pattern) (min : Nat) (max : Option Nat) : Pattern :=
  let (min, max) :=
    if p.isWidthless then (Nat.min min 1, some (Nat.min (max.getD 1) 1)) else (min, max)
  match min, max with
  | 0, some 0 => empty
  | 1, some 1 => p
  | 0, some 1 => opt greedy p
  | 0, none => opt greedy (plus greedy p)
  | 1, none => plus greedy p
  | n, none => cat (times p (n - 1)) (plus greedy p)
  | n, some m =>
    if n = m then times p n
    else if n = 0 then upTo greedy p m
    else cat (times p n) (upTo greedy p (m - n))

/-- One more than the largest number of a match group in the pattern; one if there is none. -/
def groupCount : Pattern → Nat
  | empty | set _ | look _ => 1
  | mark slot => slot / 2 + 1
  | cat p q => max p.groupCount q.groupCount
  | alt p q => max p.groupCount q.groupCount
  | opt _ p | plus _ p | again _ p | times p _ | upTo _ p _ => p.groupCount

end Pattern

end ShellExpr
