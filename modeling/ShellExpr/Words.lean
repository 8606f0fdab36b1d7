import ShellExpr.Literal

/-!
# Word evaluation

What the words inside an expression stand for is decided outside of it; single-quoted strings are
literals and mean the same everywhere.

* `Words.string`: the text of a word that stands for one string.
-/

namespace ShellExpr

/-- A word evaluator. -/
structure Words where
  doubleQuoted : DoubleQuoted → Except EvalError String
  braced : BracedVarSub → Except EvalError String
  simple : SimpleVarSub → Except EvalError String
  /-- The fields of the words of a shell array. -/
  sequence : List CompoundWord → Except EvalError (List String)

/-- The text of a word that stands for one string. -/
def Words.string (words : Words) : StringWord → Except EvalError String
  | .single w => Literal.singleQuoted w
  | .double w => words.doubleQuoted w
  | .braced s => words.braced s
  | .simple s => words.simple s

end ShellExpr
