import ShellExpr.Fault
import ShellExpr.Eggex.Tree
import ShellExpr.Text.Bytes

/-!
# Rendering eggexes

A canonical tree as an extended regular expression. Groups are plain parentheses, so each of them
counts among the match groups; a repetition of more than one atom and an alternation inside a
sequence get parentheses of their own.

* `Eggex.render`: the pattern of a tree, or the fault of a node that has none.
* `Eggex.needsGroup`: whether a repetition needs parentheses around its child.
-/

namespace ShellExpr

namespace ClassTerm

/-- The characters with a meaning inside brackets. -/
def isSpecial (c : Char) : Bool := ['\\', ']', '[', '^', '-', '&', '~'].contains c

/-- A character as it stands inside brackets. -/
def renderChar (c : Char) : List Char := if isSpecial c then ['\\', c] else [c]

/-- The POSIX classes that a shorthand class stands for, inside brackets. -/
def renderPerl (name : String) : Except Fault (List Char) :=
  if name = "d" then .ok "[:digit:]".toList
  else if name = "w" then .ok "[:alnum:]_".toList
  else if name = "s" then .ok "[:space:]".toList
  else .error (.unsupported ("Perl class '" ++ name ++ "'"))

/-- A POSIX class, inside brackets. -/
def renderPosix (name : String) : List Char := '[' :: ':' :: name.toList ++ [':', ']']

def notCompiled (node : String) : Fault := .eggex (.notCompiled node)

/-- A term inside brackets. -/
def render : ClassTerm → Except Fault (List Char)
  | range first last => .ok (renderChar first ++ '-' :: renderChar last)
  | posix negated name =>
    if negated then .error (.unsupported "Negated POSIX class inside a class literal")
    else .ok (renderPosix name)
  | perl negated name =>
    if negated then .error (.unsupported "Negated Perl class inside a class literal")
    else renderPerl name
  | bytes bs _ => .ok ((Bytes.characters bs).flatMap renderChar)
  | codePoint code _ =>
    match Bytes.scalar? code with
    | some c => .ok (renderChar c)
    | none =>
      .error (.unsupported
        ("Code point 0x" ++ String.ofList (Numeral.digits 16 code) ++ " in a class literal"))
  | word w => .error (notCompiled w.label)
  | charLiteral _ => .error (notCompiled "CharLiteral")

/-- Several terms inside brackets. -/
def renderAll : List ClassTerm → Except Fault (List Char)
  | [] => .ok []
  | t :: rest => do
    let s ← render t
    return s ++ (← renderAll rest)

end ClassTerm

/-- A repetition as it stands after its atom. -/
def Count.render : Count → List Char
  | star => ['*']
  | plus => ['+']
  | question => ['?']
  | exactly n => '\x7b' :: Numeral.digits 10 n ++ ['\x7d']
  | between lower upper =>
    '\x7b' :: Numeral.digits 10 (lower.getD 0) ++ ',' :: (upper.map (Numeral.digits 10)).getD [] ++
      ['\x7d']

def Primitive.render : Primitive → Char
  | dot => '.'
  | start => '^'
  | stop => '$'

namespace Eggex

/-- The characters with a meaning outside brackets. -/
def isSpecial (c : Char) : Bool :=
  ['.', '[', ']', '(', ')', '\x7b', '\x7d', '*', '+', '?', '^', '$', '|', '\\'].contains c

/-- A character as it stands outside brackets. -/
def renderChar (c : Char) : List Char := if isSpecial c then ['\\', c] else [c]

def isAlt : Eggex → Bool
  | alt _ => true
  | _ => false

/-- Whether a repetition needs parentheses around this child. -/
def needsGroup : Eggex → Bool
  | literal text _ => 2 ≤ text.toList.length
  | seq items => items.length ≠ 1
  | alt _ | rep .. => true
  | _ => false

/-- A body between brackets. -/
def brackets (negated : Bool) (body : List Char) : List Char :=
  '[' :: (if negated then ['^'] else []) ++ body ++ [']']

/-- A pattern, in parentheses if asked for. -/
def parens (wanted : Bool) (pattern : List Char) : List Char :=
  if wanted then '(' :: pattern ++ [')'] else pattern

mutual

/-- The pattern of a tree. -/
def render : Eggex → Except Fault (List Char)
  | primitive id _ => .ok [id.render]
  | literal text _ => .ok (text.toList.flatMap renderChar)
  | posix negated name => .ok (brackets negated (ClassTerm.renderPosix name))
  | perl negated name => (ClassTerm.renderPerl name).map (brackets negated)
  | charClass negated terms => (ClassTerm.renderAll terms).map (brackets negated)
  | seq items => renderSeq items
  | alt [] => .ok []
  | alt (e :: rest) => do
    let s ← render e
    return s ++ (← renderBranches rest)
  | rep child count => (render child).map fun s => parens child.needsGroup s ++ count.render
  | group child => (render child).map (parens true)
  | capture child _ => (render child).map (parens true)
  | speck .. => .error (ClassTerm.notCompiled "Speck")
  | token _ => .error (ClassTerm.notCompiled "Token")
  | word w => .error (ClassTerm.notCompiled w.label)
  | splice _ => .error (ClassTerm.notCompiled "Splice")

/-- The patterns of several trees in a row. -/
def renderSeq : List Eggex → Except Fault (List Char)
  | [] => .ok []
  | e :: rest => do
    let s ← render e
    return parens e.isAlt s ++ (← renderSeq rest)

/-- The patterns of further branches, each after a bar. -/
def renderBranches : List Eggex → Except Fault (List Char)
  | [] => .ok []
  | e :: rest => do
    let s ← render e
    return '|' :: s ++ (← renderBranches rest)

end

end Eggex

end ShellExpr
