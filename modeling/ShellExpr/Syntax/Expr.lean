import ShellExpr.Syntax.Operator
import ShellExpr.Eggex.Tree

/-!
# Expression trees

* `Expr.span`: the span of a node.
* `Expr.chain`: a comparison chain from its operators and operands.
* `PlaceExpr`: what may stand on the left of an assignment.
-/

namespace ShellExpr

/-- Syntax that is set aside for later and never evaluated. -/
inductive ReservedForm where
  | listComprehension | generator | lambda
deriving DecidableEq, Inhabited

/-- The name of the form, as error texts give it. -/
def ReservedForm.label : ReservedForm → String
  | listComprehension => "List comprehension"
  | generator => "Generator expression"
  | lambda => "Lambda"

/-- Expression node. Every node ends in its own span. -/
inductive Expr where
  | const (token : Token) (span : Span)
  | var (token : Token) (span : Span)
  | commandSub (sub : CommandSub) (span : Span)
  /-- A shell array literal. -/
  | array (words : List CompoundWord) (span : Span)
  | word (w : StringWord) (span : Span)
  | unary (op : UnaryOp) (opSpan : Span) (child : Expr) (span : Span)
  | binary (op : BinaryOp) (opSpan : Span) (left right : Expr) (span : Span)
  /-- A range of integers, the end excluded. -/
  | range (lower upper : Expr) (span : Span)
  /-- An index for a piece of a sequence; either bound may be missing. -/
  | slice (lower upper : Option Expr) (span : Span)
  /-- A first operand and links, each an operator with its own span and the next operand. -/
  | compare (left : Expr) (links : List ((CompareOp × Span) × Expr)) (span : Span)
  | ifExp (test body orElse : Expr) (span : Span)
  | list (items : List Expr) (span : Span)
  | tuple (items : List Expr) (span : Span)
  | dict (keys values : List Expr) (span : Span)
  /-- A dict value left out: the variable that the key names. -/
  | implicit (span : Span)
  /-- A reserved form with the expressions written in it. -/
  | reserved (form : ReservedForm) (parts : List Expr) (span : Span)
  | call (func : Expr) (positional : List Expr) (named : List (Option Token × Expr)) (span : Span)
  | subscript (obj : Expr) (indices : List Expr) (span : Span)
  | member (obj : Expr) (op : AttrOp) (opSpan : Span) (attr : Token) (span : Span)
  | eggex (tree : Eggex) (flags : List Token) (span : Span)
  /-- The elements of a sequence in place of an argument. -/
  | spread (child : Expr) (span : Span)
deriving Inhabited

namespace Expr

def span : Expr → Span
  | const _ s | var _ s | commandSub _ s | array _ s | word _ s | unary _ _ _ s
  | binary _ _ _ _ s | range _ _ s | slice _ _ s | compare _ _ s | ifExp _ _ _ s | list _ s
  | tuple _ s | dict _ _ s | implicit s | reserved _ _ s | call _ _ _ s | subscript _ _ s
  | member _ _ _ _ s | eggex _ _ s | spread _ s => s

/-- Whether the node stands for a dict value that was left out. -/
def isImplicit : Expr → Bool
  | implicit _ => true
  | _ => false

/-- The chain whose `i`-th operator compares operand `i` with the next one. An operator without an
operand after it, or an operand without an operator before it, is dropped. -/
def chain (left : Expr) (ops : List (CompareOp × Span)) (operands : List Expr) (span : Span) :
    Expr :=
  compare left (ops.zip operands) span

end Expr

/-- Arguments of a call: positional ones, then named ones. A named argument without a name spreads
a mapping. -/
structure ArgList where
  positional : List Expr
  named : List (Option Token × Expr)
deriving Inhabited

/-- Assignment target as written. -/
inductive PlaceExpr where
  | var (token : Token)
  | subscript (obj : Expr) (indices : List Expr)
  | member (obj : Expr) (op : AttrOp) (opSpan : Span) (attr : Token)
  /-- Several targets at once; no program may use it yet. -/
  | tuple (items : List PlaceExpr)
  /-- A target for all remaining elements; no program may use it yet. -/
  | starred (child : PlaceExpr)
deriving Inhabited

end ShellExpr
