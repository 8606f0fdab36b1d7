import ShellExpr.Literal
import ShellExpr.Proofs.Syntax.Nodes

/-!
# Sugar

Some forms of expressions are short for others: an attribute behind an arrow for a string as an
index, several indices for one tuple, and a dict value that is left out for the variable that its
key names.

* `Expr.Expands`: an expression with any of its sugared forms written out, at any depth.
-/

namespace ShellExpr

namespace Expr

mutual

/-- The second expression is the first with some sugared forms written out. The new nodes may stand
anywhere in the source. -/
inductive Expands : Expr → Expr → Prop where
  | refl (e : Expr) : Expands e e
  /-- An arrow and a name are the name as an index. -/
  | arrow {obj obj' : Expr} {opSpan span span' wordSpan : Span} {attr : Token} {w : SingleQuoted}
      (hobj : Expands obj obj') (hw : Literal.singleQuoted w = .ok attr.text) :
      Expands (member obj .arrow opSpan attr span)
        (subscript obj' [word (.single w) wordSpan] span')
  /-- Several indices are one tuple. -/
  | indices {obj obj' : Expr} {is is' : List Expr} {span span' tupleSpan : Span}
      (hobj : Expands obj obj') (his : ExpandsAll is is') (hmany : is.length ≠ 1) :
      Expands (subscript obj is span) (subscript obj' [tuple is' tupleSpan] span')
  | unary (op : UnaryOp) (opSpan span : Span) {child child' : Expr}
      (h : Expands child child') :
      Expands (unary op opSpan child span) (unary op opSpan child' span)
  | binary (op : BinaryOp) (opSpan span : Span) {left left' right right' : Expr}
      (hleft : Expands left left') (hright : Expands right right') :
      Expands (binary op opSpan left right span) (binary op opSpan left' right' span)
  | range (span : Span) {lower lower' upper upper' : Expr}
      (hlower : Expands lower lower') (hupper : Expands upper upper') :
      Expands (range lower upper span) (range lower' upper' span)
  | slice (span : Span) {lower lower' upper upper' : Option Expr}
      (hlower : ExpandsBound lower lower') (hupper : ExpandsBound upper upper') :
      Expands (slice lower upper span) (slice lower' upper' span)
  | compare (span : Span) {left left' : Expr} {links links' : List ((CompareOp × Span) × Expr)}
      (hleft : Expands left left') (hlinks : ExpandsLinks links links') :
      Expands (compare left links span) (compare left' links' span)
  | ifExp (span : Span) {test test' body body' orElse orElse' : Expr}
      (htest : Expands test test') (hbody : Expands body body') (horElse : Expands orElse orElse') :
      Expands (ifExp test body orElse span) (ifExp test' body' orElse' span)
  | list (span : Span) {items items' : List Expr} (h : ExpandsAll items items') :
      Expands (list items span) (list items' span)
  | tuple (span : Span) {items items' : List Expr} (h : ExpandsAll items items') :
      Expands (tuple items span) (tuple items' span)
  | dict (span : Span) {keys keys' values values' : List Expr}
      (hkeys : ExpandsAll keys keys') (hvalues : ExpandsEntries keys values values') :
      Expands (dict keys values span) (dict keys' values' span)
  | reserved (form : ReservedForm) (span : Span) {parts parts' : List Expr}
      (h : ExpandsAll parts parts') : Expands (reserved form parts span) (reserved form parts' span)
  | call (span : Span) {func func' : Expr} {positional positional' : List Expr}
      {named named' : List (Option Token × Expr)} (hfunc : Expands func func')
      (hpositional : ExpandsArgs positional positional') (hnamed : ExpandsNamed named named') :
      Expands (call func positional named span) (call func' positional' named' span)
  | subscript (span : Span) {obj obj' : Expr} {is is' : List Expr}
      (hobj : Expands obj obj') (his : ExpandsAll is is') :
      Expands (subscript obj is span) (subscript obj' is' span)
  | member (op : AttrOp) (opSpan : Span) (attr : Token) (span : Span) {obj obj' : Expr}
      (hobj : Expands obj obj') : Expands (member obj op opSpan attr span)
        (member obj' op opSpan attr span)
  | spread (span : Span) {child child' : Expr} (h : Expands child child') :
      Expands (spread child span) (spread child' span)

/-- The same for several expressions. -/
inductive ExpandsAll : List Expr → List Expr → Prop where
  | nil : ExpandsAll [] []
  | cons {e e' : Expr} {rest rest' : List Expr} (h : Expands e e')
      (hrest : ExpandsAll rest rest') : ExpandsAll (e :: rest) (e' :: rest')

/-- The same for a bound that may be missing. -/
inductive ExpandsBound : Option Expr → Option Expr → Prop where
  | none : ExpandsBound none none
  | some {e e' : Expr} (h : Expands e e') : ExpandsBound (some e) (some e')

/-- The same for the links of a comparison chain. -/
inductive ExpandsLinks : List ((CompareOp × Span) × Expr) → List ((CompareOp × Span) × Expr) →
    Prop where
  | nil : ExpandsLinks [] []
  | cons (op : CompareOp × Span) {e e' : Expr} {rest rest' : List ((CompareOp × Span) × Expr)}
      (h : Expands e e') (hrest : ExpandsLinks rest rest') :
      ExpandsLinks ((op, e) :: rest) ((op, e') :: rest')

/-- The same for the values of a dict, from its keys as they were. -/
inductive ExpandsEntries : List Expr → List Expr → List Expr → Prop where
  | nil (keys : List Expr) : ExpandsEntries keys [] []
  | cons {keys values values' : List Expr} {e e' : Expr} (h : Expands e e')
      (hrest : ExpandsEntries keys.tail values values') :
      ExpandsEntries keys (e :: values) (e' :: values')
  /-- A value left out is the variable that its key names. -/
  | implicit {key : Expr} {keys values values' : List Expr} {tok : Token} {span span' : Span}
      (hkey : key.constName? = some tok.text) (hrest : ExpandsEntries keys values values') :
      ExpandsEntries (key :: keys) (implicit span :: values) (var tok span' :: values')

/-- The same for positional arguments, each of them one value or a spread. -/
inductive ExpandsArgs : List Expr → List Expr → Prop where
  | nil : ExpandsArgs [] []
  | item {e e' : Expr} {rest rest' : List Expr} (hitem : e.isSpread = false)
      (h : Expands e e') (hrest : ExpandsArgs rest rest') : ExpandsArgs (e :: rest) (e' :: rest')
  | spread (span : Span) {child child' : Expr} {rest rest' : List Expr} (h : Expands child child')
      (hrest : ExpandsArgs rest rest') :
      ExpandsArgs (spread child span :: rest) (spread child' span :: rest')

/-- The same for named arguments. -/
inductive ExpandsNamed : List (Option Token × Expr) → List (Option Token × Expr) → Prop where
  | nil : ExpandsNamed [] []
  | cons (name : Option Token) {e e' : Expr} {rest rest' : List (Option Token × Expr)}
      (h : Expands e e') (hrest : ExpandsNamed rest rest') :
      ExpandsNamed ((name, e) :: rest) ((name, e') :: rest')

end

variable {e e' : Expr}

/-- A value that is left out stays so where no key tells its name. -/
theorem Expands.isImplicit_eq (h : Expands e e') : e'.isImplicit = e.isImplicit := by
  cases h <;> rfl

theorem Expands.isSpread_eq (h : Expands e e') : e'.isSpread = e.isSpread := by
  cases h <;> rfl

theorem ExpandsAll.refl (es : List Expr) : ExpandsAll es es := by
  induction es with
  | nil => exact .nil
  | cons e rest ih => exact .cons (.refl e) ih

theorem ExpandsAll.length_eq {es es' : List Expr} (h : ExpandsAll es es') :
    es'.length = es.length := by
  match h with
  | .nil => rfl
  | .cons _ hrest => exact congrArg Nat.succ hrest.length_eq

end Expr

end ShellExpr
