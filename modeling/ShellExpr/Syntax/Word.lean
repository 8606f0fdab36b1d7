import ShellExpr.Syntax.Token

/-!
# Words inside expressions

Strings, substitutions and shell words that an expression embeds. What a double-quoted string or a
variable substitution stands for is decided by the word evaluator, what a command prints by the
process executor; the shapes here are what both are given.

* `StringWord`: the four words that stand for one string.
* `StringWord.label`: the name of the form, as error texts give it.
-/

namespace ShellExpr

/-- A variable substitution without braces; the token holds the bare name. -/
structure SimpleVarSub where
  name : Token
deriving DecidableEq, Inhabited

/-- A variable substitution in braces. -/
structure BracedVarSub where
  name : Token
  span : Span := Span.dummy
deriving DecidableEq, Inhabited

/-- A piece of a double-quoted string or of an unquoted word. -/
inductive WordPart where
  | literal (token : Token)
  | simple (sub : SimpleVarSub)
  | braced (sub : BracedVarSub)
deriving DecidableEq, Inhabited

/-- A string in double quotes. -/
structure DoubleQuoted where
  parts : List WordPart
  span : Span := Span.dummy
deriving DecidableEq, Inhabited

/-- Whether a single-quoted string is taken as written or decodes character escapes. -/
inductive QuoteKind where
  | raw | escaped
deriving DecidableEq, Inhabited

/-- A string in single quotes. -/
structure SingleQuoted where
  kind : QuoteKind
  tokens : List Token
  span : Span := Span.dummy
deriving DecidableEq, Inhabited

/-- One unquoted shell word. -/
structure CompoundWord where
  parts : List WordPart
deriving DecidableEq, Inhabited

/-- What a command substitution yields: its output, the fields of its output, or the block itself,
which is reserved. -/
inductive CommandSubKind where
  | output | fields | block
deriving DecidableEq, Inhabited

/-- A command substitution; the command is opaque here. -/
structure CommandSub where
  kind : CommandSubKind
  code : String
  span : Span := Span.dummy
deriving DecidableEq, Inhabited

/-- A word that stands for one string. -/
inductive StringWord where
  | single (word : SingleQuoted)
  | double (word : DoubleQuoted)
  | braced (sub : BracedVarSub)
  | simple (sub : SimpleVarSub)
deriving DecidableEq, Inhabited

namespace StringWord

/-- The word's own span; that of the name for a substitution without braces. -/
def span : StringWord → Span
  | single w => w.span
  | double w => w.span
  | braced s => s.span
  | simple s => s.name.span

def label : StringWord → String
  | single _ => "SingleQuoted"
  | double _ => "DoubleQuoted"
  | braced _ => "BracedVarSub"
  | simple _ => "SimpleVarSub"

end StringWord

end ShellExpr
