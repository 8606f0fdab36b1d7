import ShellExpr.Number.Numeral
import ShellExpr.Pattern.Tree

/-!
# Escapes of patterns

What a backslash and the text after it stand for: a character, a class of characters, or a
condition on the position. Punctuation stands for itself; a digit or an unknown letter is an error.

* `Escape.read?`: the escape after a backslash, and what follows it.
-/

namespace ShellExpr.Pattern

/-- What an escape stands for. -/
inductive Escape where
  | char (c : Char)
  | set (s : CharSet)
  | look (l : Look)
deriving DecidableEq, Inhabited

namespace Escape

/-- Whether a character other than a letter or a digit may be escaped. -/
def isPunctuation (c : Char) : Bool := c.toNat < 128 && !c.isAlphanum && c ≠ '<' && c ≠ '>'

/-- The character of hexadecimal digits. -/
def hexChar? (ds : List Char) : Option Char :=
  (Numeral.value? 16 ds).bind fun n => if n.isValidChar then some (Char.ofNat n) else none

/-- A code point in a fixed number of hexadecimal digits, or in any number of them in braces. -/
def hex? (width : Nat) : List Char → Option (Escape × List Char)
  | '\x7b' :: cs =>
    match cs.dropWhile (· ≠ '\x7d') with
    | _ :: rest => (hexChar? (cs.takeWhile (· ≠ '\x7d'))).map fun c => (char c, rest)
    | [] => none
  | cs =>
    if width ≤ cs.length then (hexChar? (cs.take width)).map fun c => (char c, cs.drop width)
    else none

/-- The condition of a name in braces. -/
def boundary? (name : List Char) : Option Look :=
  match String.ofList name with
  | "start" => some .wordStart
  | "end" => some .wordEnd
  | "start-half" => some .wordStartHalf
  | "end-half" => some .wordEndHalf
  | _ => none

def isNameChar (c : Char) : Bool := c.isAlpha || c = '-'

/-- A word boundary, of which a name in braces may tell the kind. Braces without a name belong to
what follows. -/
def wordBoundary? : List Char → Option (Escape × List Char)
  | ['\x7b'] => none
  | '\x7b' :: c :: cs =>
    if isNameChar c then
      match (c :: cs).dropWhile isNameChar with
      | '\x7d' :: rest =>
        (boundary? ((c :: cs).takeWhile isNameChar)).map fun l => (look l, rest)
      | _ => none
    else some (look .wordBoundary, '\x7b' :: c :: cs)
  | cs => some (look .wordBoundary, cs)

/-- The escape after a backslash, and what follows it. -/
def read? : List Char → Option (Escape × List Char)
  | [] => none
  | c :: rest =>
    match c with
    | 'a' => some (char '\x07', rest)
    | 'f' => some (char '\x0c', rest)
    | 'n' => some (char '\n', rest)
    | 'r' => some (char '\r', rest)
    | 't' => some (char '\t', rest)
    | 'v' => some (char '\x0b', rest)
    | 'd' => some (set .digit, rest)
    | 's' => some (set .blank, rest)
    | 'w' => some (set .word, rest)
    | 'D' => some (set (.compl .digit), rest)
    | 'S' => some (set (.compl .blank), rest)
    | 'W' => some (set (.compl .word), rest)
    | 'A' => some (look .textStart, rest)
    | 'z' => some (look .textEnd, rest)
    | 'B' => some (look .notWordBoundary, rest)
    | '<' => some (look .wordStart, rest)
    | '>' => some (look .wordEnd, rest)
    | 'b' => wordBoundary? rest
    | 'x' => hex? 2 rest
    | 'u' => hex? 4 rest
    | 'U' => hex? 8 rest
    | _ => if isPunctuation c then some (char c, rest) else none

end Escape

end ShellExpr.Pattern
