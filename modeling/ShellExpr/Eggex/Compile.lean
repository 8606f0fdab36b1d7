import ShellExpr.Words

/-!
# Compiling eggexes

Compilation makes a tree canonical: specks and the words for them become primitives, character
escapes and strings become runs of literal characters, a splice becomes the tree of the eggex it
names, without its flags, and the strings of a character class become byte sets.

* `Eggex.compile`: the canonical form of a tree.
* `ClassTerm.compile`: the same for a term of a character class. A token that spells no character
  stays as it is.
* `Eggex.compileAsserting`: compilation, which panics in debug builds if it leaves a tree that is not
  canonical.
-/

namespace ShellExpr

/-- What compilation looks up: words and variables. -/
structure EggexScope where
  words : Words
  lookup : String → Option Value

/-- The value of a variable that must be bound. -/
def EggexScope.valueOf (scope : EggexScope) (name : Token) : Except EvalError Value :=
  match scope.lookup name.text with
  | some v => .ok v
  | none => .error ((Fault.undefined name.text).placed name.span)

namespace ClassTerm

/-- Whether a string of a character class could mean raw bytes as well as encoded characters. -/
def isAmbiguous (s : String) : Bool := 1 < s.utf8ByteSize && s.toList.any fun c => 128 ≤ c.toNat

/-- The bytes of a string in a character class. -/
def ofString (s : String) (span : Span) : Except EvalError ClassTerm :=
  if isAmbiguous s then .error ((Fault.eggex .ambiguousBytes).placed span)
  else .ok (bytes (Bytes.encode s) span)

/-- The canonical form of a term. -/
def compile (words : Words) : ClassTerm → Except EvalError ClassTerm
  | word w => do ofString (← words.string w) w.span
  | charLiteral tok => do return (← Literal.classTerm? tok).getD (charLiteral tok)
  | term => .ok term

/-- The canonical forms of several terms. -/
def compileAll (words : Words) : List ClassTerm → Except EvalError (List ClassTerm)
  | [] => .ok []
  | t :: rest => do
    let t ← compile words t
    return t :: (← compileAll words rest)

end ClassTerm

namespace Eggex

def unknownToken (tok : Token) : EvalError :=
  (Fault.unsupported ("Eggex token '" ++ tok.text ++ "'")).placed tok.span

/-- The canonical form of a token. -/
def compileToken (tok : Token) : Except EvalError Eggex :=
  match tok.kind with
  | .name => if tok.text = "dot" then .ok (primitive .dot tok.span) else .error (unknownToken tok)
  | .symbol =>
    if tok.text = "%start" then .ok (primitive .start tok.span)
    else if tok.text = "%end" then .ok (primitive .stop tok.span)
    else .error (unknownToken tok)
  | kind =>
    if kind.isChar then (Literal.stringToken tok).map fun s => literal s tok.span
    else .error (unknownToken tok)

/-- The tree of the eggex that a variable holds. -/
def compileSplice (scope : EggexScope) (name : Token) : Except EvalError Eggex := do
  let v ← scope.valueOf name
  match v.eggex? with
  | some e => return e.tree
  | none => throw ((Fault.eggex (.splice v.typeName)).placed name.span)

mutual

/-- The canonical form of a tree. -/
def compile (scope : EggexScope) : Eggex → Except EvalError Eggex
  | speck .dot span => .ok (primitive .dot span)
  | speck .caret span => .ok (primitive .start span)
  | speck .dollar span => .ok (primitive .stop span)
  | token tok => compileToken tok
  | word w => (scope.words.string w).map fun s => literal s w.span
  | splice name => compileSplice scope name
  | seq items => (compileAll scope items).map seq
  | alt items => (compileAll scope items).map alt
  | rep child count => (compile scope child).map fun c => rep c count
  | group child => (compile scope child).map group
  | capture child name => (compile scope child).map fun c => capture c name
  | charClass negated terms => (ClassTerm.compileAll scope.words terms).map (charClass negated)
  | posix negated name => .ok (posix negated name)
  | perl negated name => .ok (perl negated name)
  | primitive id span => .ok (primitive id span)
  | literal text span => .ok (literal text span)

/-- The canonical forms of several trees. -/
def compileAll (scope : EggexScope) : List Eggex → Except EvalError (List Eggex)
  | [] => .ok []
  | e :: rest => do
    let e ← compile scope e
    return e :: (← compileAll scope rest)

end

/-- What is reported of a tree that is not canonical. The tree itself, which is printed after it, is
left out. -/
def leftUncompiled : EvalError := (Fault.panic "eggex left uncompiled").unplaced

/-- The assertion that a tree is canonical, which debug builds check. -/
def asserted (debug : Bool) (t : Eggex) : Except EvalError Eggex :=
  if debug && !t.isCanonical then .error leftUncompiled else .ok t

/-- The compiled tree, asserted to be canonical. -/
def compileAsserting (debug : Bool) (scope : EggexScope) (t : Eggex) : Except EvalError Eggex := do
  asserted debug (← t.compile scope)

end Eggex

end ShellExpr
