import ShellExpr.Assoc
import ShellExpr.Pattern.Assembly

/-!
# Searching a text

A search goes through the text once and keeps a list of threads, each a row of patterns still to be
matched with the marks made so far, the preferred ones first. At every position each thread is
resolved into the characters it can take next and the point among them at which it is done. A
thread that is done ends all threads after it; of two threads with one row to match the first one
is kept. While nothing has matched, a new thread starts at every position behind all others, so the
leftmost match wins, and of several there the one preferred by the pattern.

* `Pattern.moves`: what a pattern can do at a position.
* `search`: the marks of the match found in a text.
* `captures`: the groups of that match, those missing that took no part.
* `find`: their texts.
-/

namespace ShellExpr.Pattern

/-- A position in a text: how many characters stand before it, and the two next to it. -/
structure Gap where
  index : Nat
  before : Option Char
  after : Option Char

/-- Whether the condition holds at a position. -/
def Look.holds (gap : Gap) : Look → Bool
  | .textStart => gap.before.isNone
  | .textEnd => gap.after.isNone
  | .lineStart => gap.before.all (· = '\n')
  | .lineEnd => gap.after.all (· = '\n')
  | .wordBoundary => gap.before.any CharClass.isWord != gap.after.any CharClass.isWord
  | .notWordBoundary => gap.before.any CharClass.isWord == gap.after.any CharClass.isWord
  | .wordStart => !gap.before.any CharClass.isWord && gap.after.any CharClass.isWord
  | .wordEnd => gap.before.any CharClass.isWord && !gap.after.any CharClass.isWord
  | .wordStartHalf => !gap.before.any CharClass.isWord
  | .wordEndHalf => !gap.after.any CharClass.isWord

/-- Positions by slot. -/
abbrev Marks := List (Nat × Nat)

/-- Taking one character of a set; then the row is left to match. -/
structure Move where
  chars : CharSet
  row : List Pattern
  marks : Marks

/-- What can be done at a position, the preferred moves first: moves, being done without taking a
character, further moves. -/
structure Moves where
  first : List Move := []
  done : Option Marks := none
  rest : List Move := []

namespace Moves

/-- All moves in order. -/
def all (m : Moves) : List Move := m.first ++ m.rest

/-- The moves with more to match after them. -/
def followedBy (row : List Pattern) (ms : List Move) : List Move :=
  ms.map fun m => { m with row := m.row ++ row }

/-- What `m` can do and then, once it is done, `next`, which is to match `row`. -/
def andThen (m : Moves) (row : List Pattern) (next : Marks → Moves) : Moves :=
  match m.done with
  | none => { first := followedBy row m.all }
  | some marks =>
    let n := next marks
    { first := followedBy row m.first ++ n.first
      done := n.done
      rest := n.rest ++ followedBy row m.rest }

/-- What `m` can do, and behind that what `n` can do. Being done a second time makes no difference. -/
def orElse (m n : Moves) : Moves :=
  match m.done with
  | none => { first := m.all ++ n.first, done := n.done, rest := n.rest }
  | some marks => { first := m.first, done := some marks, rest := m.rest ++ n.all }

/-- Being done, or something else before that if `greedy` and behind it if not. -/
def orDone (greedy : Bool) (m : Moves) (marks : Marks) : Moves :=
  if greedy then m.orElse { done := some marks } else orElse { done := some marks } m

end Moves

/-- What a row of `n` equal patterns can do, `one` being what a single one can. -/
def timesMoves (p : Pattern) (one : Marks → Moves) : Nat → Marks → Moves
  | 0, marks => { done := some marks }
  | n + 1, marks => (one marks).andThen (if n = 0 then [] else [times p n]) (timesMoves p one n)

/-- What at most `n` equal patterns, one inside the other, can do. -/
def upToMoves (greedy : Bool) (p : Pattern) (one : Marks → Moves) : Nat → Marks → Moves
  | 0, marks => { done := some marks }
  | n + 1, marks =>
    ((one marks).andThen (if n = 0 then [] else [upTo greedy p n])
      (upToMoves greedy p one n)).orDone greedy marks

/-- What a pattern can do at a position. An iteration that takes no character is not followed by
another one. -/
def moves (gap : Gap) : Pattern → Marks → Moves
  | empty, marks => { done := some marks }
  | set s, marks => { first := [⟨s, [], marks⟩] }
  | look l, marks => if l.holds gap then { done := some marks } else {}
  | mark slot, marks => { done := some (Assoc.insert slot gap.index marks) }
  | cat p q, marks => (p.moves gap marks).andThen [q] (q.moves gap)
  | alt p q, marks => (p.moves gap marks).orElse (q.moves gap marks)
  | opt greedy p, marks => (p.moves gap marks).orDone greedy marks
  | plus greedy p, marks =>
    (p.moves gap marks).andThen [again greedy p] fun marks => { done := some marks }
  | again greedy p, marks =>
    Moves.orDone greedy { first := Moves.followedBy [again greedy p] (p.moves gap marks).all } marks
  | times p n, marks => timesMoves p (p.moves gap) n marks
  | upTo greedy p n, marks => upToMoves greedy p (p.moves gap) n marks

/-- What a row of patterns can do. -/
def rowMoves (gap : Gap) : List Pattern → Marks → Moves
  | [], marks => { done := some marks }
  | p :: rest, marks => (p.moves gap marks).andThen rest (rowMoves gap rest)

/-- A row of patterns to be matched, and the marks made on the way to it. -/
structure Thread where
  row : List Pattern
  marks : Marks

namespace Thread

/-- The moves of all threads up to the first one that is done, and the marks of that one. -/
def resolve (gap : Gap) : List Thread → List Move × Option Marks
  | [] => ([], none)
  | t :: rest =>
    let m := rowMoves gap t.row t.marks
    match m.done with
    | some marks => (m.first, some marks)
    | none =>
      let (moves, done) := resolve gap rest
      (m.all ++ moves, done)

/-- The threads after a character, of those with one row the first. -/
def advance (c : Char) (seen : List (List Pattern)) : List Move → List Thread
  | [] => []
  | m :: rest =>
    if m.chars.mem c && !seen.contains m.row then
      ⟨m.row, m.marks⟩ :: advance c (m.row :: seen) rest
    else advance c seen rest

end Thread

/-- The search from a position on: `found` is the match to return if no thread does better. -/
def searchFrom (p : Pattern) (index : Nat) (before : Option Char) (threads : List Thread)
    (found : Option Marks) (text : List Char) : Option Marks :=
  let threads := if found.isNone then threads ++ [⟨[capture 0 p], []⟩] else threads
  let (moves, done) := Thread.resolve ⟨index, before, text.head?⟩ threads
  let found := done.or found
  match text with
  | [] => found
  | c :: rest =>
    let threads := Thread.advance c [] moves
    if threads.isEmpty && found.isSome then found
    else searchFrom p (index + 1) (some c) threads found rest

/-- The marks of the match that the pattern prefers, of those that start leftmost. -/
def search (p : Pattern) (text : List Char) : Option Marks := searchFrom p 0 none [] none text

/-- The text of a match group, if it took part. -/
def groupText? (text : List Char) (marks : Marks) (number : Nat) : Option (List Char) :=
  match Assoc.get? (2 * number) marks, Assoc.get? (2 * number + 1) marks with
  | some start, some stop => some ((text.take stop).drop start)
  | _, _ => none

/-- The whole match and its groups, if there is a match. -/
def captures (p : Pattern) (text : List Char) : Option (List (Option (List Char))) :=
  (p.search text).map fun marks => (List.range p.groupCount).map (groupText? text marks)

/-- The texts of the whole match and its groups, empty for a group that took no part. -/
def find (p : Pattern) (text : List Char) : Option (List (List Char)) :=
  (p.captures text).map fun groups => groups.map (·.getD [])

end ShellExpr.Pattern
