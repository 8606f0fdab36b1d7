/-!
# Source spans

A span marks a piece of the source text by two byte offsets, the second exclusive. Nodes made
without a source carry the empty span at offset zero, which counts as "no place known".

* `Span.merge`: the smallest span around two spans.
* `Span.isDummy`: whether the span stands for no place at all.
-/

namespace ShellExpr

/-- A piece of source text, from `start` up to but excluding `stop`. -/
structure Span where
  start : Nat
  stop : Nat
deriving DecidableEq, Inhabited

namespace Span

/-- The span of a node that was not read from source text. -/
def dummy : Span := ⟨0, 0⟩

/-- Length in bytes; zero when the ends are crossed. -/
def length (s : Span) : Nat := s.stop - s.start

def isEmpty (s : Span) : Bool := s.start = s.stop

/-- Whether the span stands for no place. -/
def isDummy (s : Span) : Bool := s = dummy

/-- The span from the smaller start to the larger end. -/
def merge (a b : Span) : Span := ⟨min a.start b.start, max a.stop b.stop⟩

/-- Written form: both offsets, two dots between. -/
def text (s : Span) : String := toString s.start ++ ".." ++ toString s.stop

end Span

end ShellExpr
