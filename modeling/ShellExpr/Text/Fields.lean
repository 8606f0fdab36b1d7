/-!
# Field splitting

A text falls into the maximal runs of characters that are no separators; there are no empty fields.

* `Fields.split`: the fields of a text.
* `Fields.defaultSeparators`: blank, tab and newline.
-/

namespace ShellExpr.Fields

def defaultSeparators : List Char := [' ', '\t', '\n']

/-- The field read so far, if it is one, in front of the others. -/
def close (field : List Char) (fields : List (List Char)) : List (List Char) :=
  if field.isEmpty then fields else field :: fields

/-- The fields of a text, `field` being what was read of the first one. -/
def splitFrom (separators field : List Char) : List Char → List (List Char)
  | [] => close field []
  | c :: rest =>
    if separators.contains c then close field (splitFrom separators [] rest)
    else splitFrom separators (field ++ [c]) rest

/-- The maximal runs of characters other than the separators. -/
def split (separators text : List Char) : List (List Char) := splitFrom separators [] text

end ShellExpr.Fields
