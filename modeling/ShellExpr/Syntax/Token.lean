import ShellExpr.Syntax.Span

/-!
# Tokens

The token kinds that evaluation looks at: numeric literals, keyword constants, bare names, literal
text and the spellings of a single character.

* `TokenKind.isChar`: whether the kind spells one character.
* `TokenKind.label`: the kind's name, as error texts give it.
-/

namespace ShellExpr

/-- What kind of source text a token holds. -/
inductive TokenKind where
  | decInt | binInt | octInt | hexInt | float
  | nullWord | trueWord | falseWord
  /-- A bare name: a dict key, an eggex class letter, the eggex word `dot`. -/
  | name
  /-- An eggex symbol such as `%start`. -/
  | symbol
  /-- Literal characters inside a quoted string. -/
  | literal
  /-- A backslash and one character. -/
  | charOne
  /-- A byte in two hexadecimal digits after `\x`. -/
  | charHex
  /-- A code point in four digits after `\u`. -/
  | charUnicode4
  /-- A code point in eight digits after `\U`. -/
  | charUnicode8
  /-- A code point in braces after `\u`. -/
  | charBraced
  /-- A quoted character after a pound sign. -/
  | charPound
deriving DecidableEq, Inhabited

namespace TokenKind

def isChar : TokenKind → Bool
  | charOne | charHex | charUnicode4 | charUnicode8 | charBraced | charPound => true
  | _ => false

def label : TokenKind → String
  | decInt => "DecInt"
  | binInt => "BinInt"
  | octInt => "OctInt"
  | hexInt => "HexInt"
  | float => "Float"
  | nullWord => "Null"
  | trueWord => "True"
  | falseWord => "False"
  | name => "Name"
  | symbol => "Symbol"
  | literal => "Lit"
  | charOne => "CharOneChar"
  | charHex => "CharHex"
  | charUnicode4 => "CharUnicode4"
  | charUnicode8 => "CharUnicode8"
  | charBraced => "CharUBraced"
  | charPound => "CharPound"

/-- Every kind, in the order of declaration. -/
def all : List TokenKind :=
  [decInt, binInt, octInt, hexInt, float, nullWord, trueWord, falseWord, name, symbol, literal,
    charOne, charHex, charUnicode4, charUnicode8, charBraced, charPound]

end TokenKind

/-- A token with its source text. -/
structure Token where
  kind : TokenKind
  text : String
  span : Span := Span.dummy
deriving DecidableEq, Inhabited

end ShellExpr
