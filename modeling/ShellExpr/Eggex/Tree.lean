import ShellExpr.Syntax.Word

/-!
# Eggex trees

One tree type serves both sides of compilation. The parser makes leaves of syntax (specks, tokens,
strings, splices); compilation turns each of them into a primitive or a run of literal characters,
and each string inside a character class into a set of bytes. A tree without leaves of syntax is
*canonical* and needs no further evaluation.

* `Eggex.isCanonical`: no leaf of syntax anywhere.
* `Eggex.same`: equality of trees, spans included.
-/

namespace ShellExpr

/-- Punctuation leaf. -/
inductive Speck where
  | dot | caret | dollar
deriving DecidableEq, Inhabited

/-- Primitive of a canonical tree: any character, start of text, end of text. -/
inductive Primitive where
  | dot | start | stop
deriving DecidableEq, Inhabited

/-- How often the child of a repetition may occur. -/
inductive Count where
  | star | plus | question
  | exactly (n : Nat)
  /-- Between two bounds, each of them optional. -/
  | between (lower upper : Option Nat)
deriving DecidableEq, Inhabited

/-- Term of a character class. -/
inductive ClassTerm where
  | word (w : StringWord)
  /-- A character escape or a bare letter. -/
  | charLiteral (token : Token)
  | range (first last : Char)
  | posix (negated : Bool) (name : String)
  | perl (negated : Bool) (name : String)
  /-- Compiled form of strings and of byte escapes. -/
  | bytes (bytes : List UInt8) (span : Span)
  /-- Compiled form of code point escapes. -/
  | codePoint (code : Nat) (span : Span)
deriving DecidableEq, Inhabited

/-- Whether the term needs no further evaluation. -/
def ClassTerm.isCanonical : ClassTerm → Bool
  | word _ | charLiteral _ => false
  | range .. | posix .. | perl .. | bytes .. | codePoint .. => true

/-- Eggex node. -/
inductive Eggex where
  | speck (id : Speck) (span : Span)
  /-- The words `dot`, `%start` and `%end`, or a character escape. -/
  | token (token : Token)
  | word (w : StringWord)
  /-- The eggex that a variable holds. -/
  | splice (name : Token)
  | posix (negated : Bool) (name : String)
  | perl (negated : Bool) (name : String)
  | seq (items : List Eggex)
  | alt (items : List Eggex)
  | rep (child : Eggex) (count : Count)
  | group (child : Eggex)
  | capture (child : Eggex) (name : Option Token)
  | charClass (negated : Bool) (terms : List ClassTerm)
  | primitive (id : Primitive) (span : Span)
  | literal (text : String) (span : Span)
deriving Inhabited

namespace Eggex

/-- Whether compilation leaves the node as it is: a leaf of a canonical tree. -/
def isCanonicalLeaf : Eggex → Bool
  | primitive .. | literal .. | posix .. | perl .. => true
  | _ => false

mutual

/-- Whether the tree holds no leaf of syntax and no class term that is still to be evaluated. -/
def isCanonical : Eggex → Bool
  | speck .. | token _ | word _ | splice _ => false
  | posix .. | perl .. | primitive .. | literal .. => true
  | seq items => allCanonical items
  | alt items => allCanonical items
  | rep child _ => child.isCanonical
  | group child => child.isCanonical
  | capture child _ => child.isCanonical
  | charClass _ terms => terms.all ClassTerm.isCanonical

/-- Whether every tree of the list is canonical. -/
def allCanonical : List Eggex → Bool
  | [] => true
  | e :: rest => e.isCanonical && allCanonical rest

end

mutual

/-- Equality of trees, spans included. -/
def same : Eggex → Eggex → Bool
  | speck a s, speck b t => a = b && s = t
  | token a, token b => a = b
  | word a, word b => a = b
  | splice a, splice b => a = b
  | posix n a, posix m b => n = m && a = b
  | perl n a, perl m b => n = m && a = b
  | seq xs, seq ys => allSame xs ys
  | alt xs, alt ys => allSame xs ys
  | rep x c, rep y d => c = d && same x y
  | group x, group y => same x y
  | capture x a, capture y b => a = b && same x y
  | charClass n ts, charClass m us => n = m && ts = us
  | primitive a s, primitive b t => a = b && s = t
  | literal a s, literal b t => a = b && s = t
  | _, _ => false

/-- Equality of lists of trees, element by element. -/
def allSame : List Eggex → List Eggex → Bool
  | [], [] => true
  | x :: xs, y :: ys => same x y && allSame xs ys
  | _, _ => false

end

end Eggex

end ShellExpr
