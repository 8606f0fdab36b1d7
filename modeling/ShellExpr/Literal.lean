import ShellExpr.Fault
import ShellExpr.Number.Decimal
import ShellExpr.Text.Bytes
import ShellExpr.Value.Basic

/-!
# Literals

What numeric constants, character escapes and single-quoted strings stand for. Text that cannot be
read is an error. A text is taken to have the form of its kind, which is not checked once more.

* `integer`: the integer of a numeral, blanks between digits written as underscores.
* `charCode?`: the code point that a character token spells.
* `constant`, `stringToken`, `classTerm?`: a token as a value, in a string, in a character class.
* `singleQuoted`: a single-quoted string.
-/

namespace ShellExpr.Literal

/-- What follows a text at the start of another. -/
def after? : List Char → List Char → Option (List Char)
  | [], cs => some cs
  | _ :: _, [] => none
  | p :: ps, c :: cs => if p = c then after? ps cs else none

/-- The text before a final character. -/
def before? (last : Char) (cs : List Char) : Option (List Char) :=
  if cs.getLast? = some last then some cs.dropLast else none

def withoutUnderscores (s : String) : List Char := s.toList.filter (· ≠ '_')

/-! ### Numbers -/

/-- The radix of an integer token, and the letter that marks it after a zero. -/
def radix : TokenKind → Nat × Option Char
  | .binInt => (2, some 'b')
  | .octInt => (8, some 'o')
  | .hexInt => (16, some 'x')
  | _ => (10, none)

/-- The numeral without its radix mark, if it has one. -/
def unmarked (mark : Option Char) : List Char → List Char
  | '0' :: c :: rest => if mark = some (Decimal.lower c) then rest else '0' :: c :: rest
  | cs => cs

/-- The integer of a numeral of the given kind. -/
def integer (kind : TokenKind) (text : String) : Except Fault Int64 :=
  let (r, mark) := radix kind
  match (Numeral.signed? r (unmarked mark (withoutUnderscores text))).bind Integer.ofInt? with
  | some n => .ok n
  | none => .error (.missing (.integerLiteral text))

/-- The float of a numeral. -/
def float (text : String) : Except Fault Double :=
  match Double.read? (withoutUnderscores text) with
  | some x => .ok x
  | none => .error (.missing (.floatLiteral text))

/-! ### Characters -/

/-- The character that stands for `c` after a backslash. -/
def escape? (c : Char) : Option Char :=
  match c with
  | '0' => some '\x00'
  | 'a' => some '\x07'
  | 'b' => some '\x08'
  | 'e' | 'E' => some '\x1b'
  | 'f' => some '\x0c'
  | 'n' => some '\n'
  | 'r' => some '\r'
  | 't' => some '\t'
  | 'v' => some '\x0b'
  | '\\' | '\'' | '"' | '?' | '$' => some c
  | _ => none

/-- The value of hexadecimal digits, below `2 ^ 32`. -/
def hex? (cs : List Char) : Option Nat := (Numeral.unsigned? 16 cs).filter (· < 2 ^ 32)

/-- The code that a character token spells; it need not be that of a character. -/
def charCode? (tok : Token) : Option Nat :=
  let cs := tok.text.toList
  match tok.kind with
  | .charOne => (after? ['\\'] cs).bind fun r => (r.head?.bind escape?).map Char.toNat
  | .charHex => (after? ['\\', 'x'] cs).bind hex?
  | .charUnicode4 => (after? ['\\', 'u'] cs).bind hex?
  | .charUnicode8 => (after? ['\\', 'U'] cs).bind hex?
  | .charBraced => ((after? ['\\', 'u', '\x7b'] cs).bind (before? '\x7d')).bind hex?
  | .charPound => (after? ['#', '\''] cs).bind fun r => r.head?.map Char.toNat
  | _ => none

def badChar (tok : Token) : EvalError := (Fault.missing (.charLiteral tok.text)).placed tok.span

/-- The code of a character token. -/
def charCode (tok : Token) : Except EvalError Nat :=
  match charCode? tok with
  | some n => .ok n
  | none => .error (badChar tok)

/-- The character of a character token. -/
def char (tok : Token) : Except EvalError Char := do
  match Bytes.scalar? (← charCode tok) with
  | some c => return c
  | none => throw (badChar tok)

/-! ### Tokens -/

/-- The value of a constant token; `h` is the handle of a string. -/
def constant (h : Handle) (tok : Token) : Except EvalError Value :=
  match tok.kind with
  | .decInt | .binInt | .octInt | .hexInt =>
    ((integer tok.kind tok.text).map .int).mapError Fault.unplaced
  | .float => ((float tok.text).map .float).mapError Fault.unplaced
  | .nullWord => .ok .null
  | .trueWord => .ok (.bool true)
  | .falseWord => .ok (.bool false)
  | .name => .ok (.str h tok.text)
  | .symbol | .literal =>
    .error (Fault.unsupported ("Constant " ++ tok.kind.label ++ " token")).unplaced
  | _ => (charCode tok).map fun n => .int (Int64.ofNat n)

/-- The text of a token in an escaped string. -/
def stringToken (tok : Token) : Except EvalError String :=
  match tok.kind with
  | .literal | .name => .ok tok.text
  | kind =>
    if kind.isChar then (char tok).map fun c => String.ofList [c]
    else .error (Fault.unsupported ("String token " ++ kind.label)).unplaced

/-- The texts of the tokens of an escaped string, in a row. -/
def stringTokens : List Token → Except EvalError String
  | [] => .ok ""
  | tok :: rest => do
    let s ← stringToken tok
    return s ++ (← stringTokens rest)

/-- The text of a single-quoted string. -/
def singleQuoted (w : SingleQuoted) : Except EvalError String :=
  match w.kind with
  | .raw => .ok (String.join (w.tokens.map Token.text))
  | .escaped => stringTokens w.tokens

/-- The class term that a token spells; none if it spells no character. Escapes of bytes and single
characters give bytes, escapes of code points the code point. -/
def classTerm? (tok : Token) : Except EvalError (Option ClassTerm) :=
  match tok.kind with
  | .charOne | .charPound =>
    (stringToken tok).map fun s => some (.bytes (Bytes.encode s) tok.span)
  | .charHex => do
    let code ← charCode tok
    if code < 256 then return some (.bytes [UInt8.ofNat code] tok.span) else throw (badChar tok)
  | .charUnicode4 | .charUnicode8 | .charBraced =>
    (charCode tok).map fun n => some (.codePoint n tok.span)
  | .name | .literal => .ok (some (.bytes (Bytes.encode tok.text) tok.span))
  | _ => .ok none

end ShellExpr.Literal
