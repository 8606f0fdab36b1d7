/-!
# Quoted strings

* `Quoted.write`: a string between single quotes, in which a quote and a backslash follow a
  backslash and a newline is written as backslash and `n`.
-/

namespace ShellExpr.Quoted

/-- A character as it stands between the quotes. -/
def escape (c : Char) : List Char :=
  if c = '\'' ∨ c = '\\' then ['\\', c] else if c = '\n' then ['\\', 'n'] else [c]

/-- The string in literal syntax. -/
def write (s : List Char) : List Char := '\'' :: s.flatMap escape ++ ['\'']

end ShellExpr.Quoted
