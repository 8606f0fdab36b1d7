import ShellExpr.Pattern.Brackets
import ShellExpr.Text.CharClass

/-!
# Lexemes of patterns

A pattern falls into atoms, group brackets, bars, repetitions and changes of mode. A repetition may
be followed by a question mark, which makes it lazy.

* `Lexeme.read?`: the first lexeme of a nonempty text, and what follows it.
* `lexemes?`: all lexemes of a pattern.
-/

namespace ShellExpr.Pattern

/-- A mode of reading a pattern. -/
inductive Mode where
  /-- Letters stand for all their variants. -/
  | ignoreCase
  /-- Caret and dollar stand for the ends of lines. -/
  | multiLine
  /-- The dot takes newlines too. -/
  | dotAll
  /-- Repetitions are lazy, and greedy with a question mark. -/
  | swapGreed
  /-- Classes hold characters of all scripts, as they always do. -/
  | unicode
deriving DecidableEq, Inhabited

/-- Modes turned on or off, in order. -/
abbrev ModeChanges := List (Mode × Bool)

/-- Smallest meaningful part of a pattern. -/
inductive Lexeme where
  /-- One character in a set. The set of a bracket expression comes with its nesting. -/
  | set (s : CharSet) (nesting : Nat)
  | dot
  | caret
  | dollar
  | look (l : Look)
  | openCapture (name : Option (List Char))
  | openGroup (changes : ModeChanges)
  | modes (changes : ModeChanges)
  | close
  | bar
  | rep (min : Nat) (max : Option Nat) (greedy : Bool)
deriving DecidableEq, Inhabited

namespace Lexeme

/-- A repetition, lazy if a question mark follows. -/
def repetition (min : Nat) (max : Option Nat) : List Char → Lexeme × List Char
  | '?' :: rest => (rep min max false, rest)
  | cs => (rep min max true, cs)

/-- A decimal number below `2 ^ 32` with blanks around it. -/
def bound? (cs : List Char) : Option (Nat × List Char) :=
  let cs := cs.dropWhile Blank.isBlank
  let ds := cs.takeWhile Numeral.isDecimalDigit
  let rest := (cs.dropWhile Numeral.isDecimalDigit).dropWhile Blank.isBlank
  ((Numeral.value? 10 ds).filter (· < 2 ^ 32)).map fun n => (n, rest)

/-- A counted repetition after its opening brace. -/
def counted? (cs : List Char) : Option (Lexeme × List Char) := do
  let (min, rest) ← bound? cs
  match rest with
  | '\x7d' :: rest => return repetition min (some min) rest
  | ',' :: '\x7d' :: rest => return repetition min none rest
  | ',' :: rest =>
    let (max, rest) ← bound? rest
    match rest with
    | '\x7d' :: rest => if min ≤ max then return repetition min (some max) rest else none
    | _ => none
  | _ => none

def mode? : Char → Option Mode
  | 'i' => some .ignoreCase
  | 'm' => some .multiLine
  | 's' => some .dotAll
  | 'U' => some .swapGreed
  | 'u' => some .unicode
  | _ => none

/-- Letters of modes, a dash turning those after it off. No mode is named twice, a dash is not the
last sign, and the handling of scripts cannot be turned off. -/
def changes? (on : Bool) (seen : List Mode) : List Char → Option ModeChanges
  | [] => some []
  | '-' :: rest => if on && !rest.isEmpty then changes? false seen rest else none
  | c :: rest => do
    let m ← mode? c
    if seen.contains m || (m = .unicode && !on) then none
    else return (m, on) :: (← changes? on (m :: seen) rest)

def isNameStart (c : Char) : Bool := c = '_' || (CharClass.isWord c && !CharClass.isDigit c)

def isNamePart (c : Char) : Bool :=
  CharClass.isWord c || c = '.' || c = '[' || c = ']'

/-- The name of a match group up to its closing angle bracket. -/
def name? (cs : List Char) : Option (Lexeme × List Char) :=
  let name := cs.takeWhile (· ≠ '>')
  match name, cs.dropWhile (· ≠ '>') with
  | c :: more, _ :: rest =>
    if isNameStart c && more.all isNamePart then some (openCapture (some name), rest) else none
  | _, _ => none

/-- What opens after a parenthesis: a match group, a group, or a change of mode. Conditions on the
text around are not known. -/
def group? : List Char → Option (Lexeme × List Char)
  | '?' :: '=' :: _ | '?' :: '!' :: _ | '?' :: '<' :: '=' :: _ | '?' :: '<' :: '!' :: _ => none
  | '?' :: 'P' :: '<' :: rest => name? rest
  | '?' :: '<' :: rest => name? rest
  | '?' :: cs =>
    let letters := cs.takeWhile fun c => c ≠ ':' && c ≠ ')'
    match cs.dropWhile fun c => c ≠ ':' && c ≠ ')' with
    | ':' :: rest => (changes? true [] letters).map fun ms => (openGroup ms, rest)
    | ')' :: rest =>
      if letters.isEmpty then none
      else (changes? true [] letters).map fun ms => (modes ms, rest)
    | _ => none
  | cs => some (openCapture none, cs)

/-- A character that stands for itself. -/
def literal (c : Char) : Lexeme := set (.fold (.single c)) 0

/-- The lexeme of an escape. -/
def ofEscape : Escape → Lexeme
  | .char c => literal c
  | .set s => set s 0
  | .look l => look l

/-- The first lexeme, and what follows it. -/
def read? : List Char → Option (Lexeme × List Char)
  | [] => none
  | c :: rest =>
    match c with
    | '\\' => (Escape.read? rest).map fun (e, rest) => (ofEscape e, rest)
    | '[' => (Brackets.read? rest).map fun (t, rest) => (set t.set t.nesting, rest)
    | '.' => some (dot, rest)
    | '^' => some (caret, rest)
    | '$' => some (dollar, rest)
    | '(' => group? rest
    | ')' => some (close, rest)
    | '|' => some (bar, rest)
    | '*' => some (repetition 0 none rest)
    | '+' => some (repetition 1 none rest)
    | '?' => some (repetition 0 (some 1) rest)
    | '\x7b' => counted? rest
    | _ => some (literal c, rest)

end Lexeme

/-- The lexemes of a pattern. Each of them takes characters. -/
def lexemes? (cs : List Char) : Option (List Lexeme) :=
  if cs.isEmpty then some []
  else
    match Lexeme.read? cs with
    | none => none
    | some (t, rest) =>
      if _h : rest.length < cs.length then (lexemes? rest).map (t :: ·) else none
termination_by cs.length

end ShellExpr.Pattern
