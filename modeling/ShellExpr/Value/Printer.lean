import ShellExpr.Number.Shortest
import ShellExpr.Text.Quoted
import ShellExpr.Value.Basic

/-!
# Printing values

Values print in literal syntax: strings are quoted, a tuple of one element ends in a comma, and
callables, eggexes and host objects stand between angle brackets.

* `Value.write`: the text of a value, character by character.
* `Value.text`: the same as a string.
-/

namespace ShellExpr

/-- The given texts, the separator between any two. -/
def joinWith (separator : List Char) : List (List Char) → List Char
  | [] => []
  | [x] => x
  | x :: rest => x ++ separator ++ joinWith separator rest

/-- The separator of elements and entries. -/
def comma : List Char := [',', ' ']

/-- The separator of a key and its value. -/
def colon : List Char := [':', ' ']

/-- The text of a string. -/
def quoted (s : String) : List Char := Quoted.write s.toList

/-- The text of an integer. -/
def writeInt (n : Int64) : List Char := Numeral.decimal n.toInt

/-- The elements of a tuple between parentheses. -/
def writeTuple (items : List (List Char)) : List Char :=
  '(' :: joinWith comma items ++ (if items.length = 1 then [',', ')'] else [')'])

mutual

/-- The text of the value that a key stands for. -/
def Key.write : Key → List Char
  | .null => "null".toList
  | .bool b => (if b then "true" else "false").toList
  | .int n => writeInt n
  | .float x => x.text
  | .str s => quoted s
  | .tuple items => writeTuple (Key.writeAll items)

/-- The texts of several keys. -/
def Key.writeAll : List Key → List (List Char)
  | [] => []
  | k :: rest => k.write :: Key.writeAll rest

end

namespace Value

/-- The text of an array slot. -/
def writeSlot : Option String → List Char
  | some s => quoted s
  | none => "null".toList

mutual

/-- The text of a value. -/
def write : Value → List Char
  | str _ s => quoted s
  | strArray _ slots => '%' :: '(' :: joinWith [' '] (slots.map writeSlot) ++ [')']
  | assocArray _ es =>
    '%' :: '{' :: joinWith comma (es.map fun e => quoted e.1 ++ colon ++ quoted e.2) ++ ['}']
  | null => "null".toList
  | bool b => (if b then "true" else "false").toList
  | int n => writeInt n
  | float x => x.text
  | list _ items => '[' :: joinWith comma (writeAll items) ++ [']']
  | tuple _ items => writeTuple (writeAll items)
  | dict _ es => '{' :: joinWith comma (writeEntries es) ++ ['}']
  | range r => writeInt r.start ++ ':' :: writeInt r.stop
  | slice s => (s.lower.map writeInt).getD [] ++ ':' :: (s.upper.map writeInt).getD []
  | func _ name => "<Func ".toList ++ name.toList ++ ['>']
  | eggex _ _ => "<Eggex>".toList
  | object _ type _ => "<Obj ".toList ++ type.toList ++ ['>']

/-- The texts of several values. -/
def writeAll : List Value → List (List Char)
  | [] => []
  | v :: rest => v.write :: writeAll rest

/-- The texts of the entries of a dict. -/
def writeEntries : List (Key × Value) → List (List Char)
  | [] => []
  | (k, v) :: rest => (k.write ++ colon ++ v.write) :: writeEntries rest

end

/-- The text of a value. -/
def text (v : Value) : String := String.ofList v.write

end Value

end ShellExpr
