/-!
# Characters as bytes

* `Bytes.encode`: the UTF-8 bytes of a text.
* `Bytes.characters`: the text that bytes stand for.
-/

namespace ShellExpr.Bytes

/-- The UTF-8 bytes of a text. -/
def encode (s : String) : List UInt8 := s.toByteArray.data.toList

/-- The text of a list of UTF-8 bytes. -/
def decode? (bytes : List UInt8) : Option String := String.fromUTF8? ⟨bytes.toArray⟩

/-- The characters that bytes stand for: those they encode in UTF-8, or else, byte by byte, the
characters of those code points. -/
def characters (bytes : List UInt8) : List Char :=
  match decode? bytes with
  | some s => s.toList
  | none => bytes.map fun b => Char.ofNat b.toNat

/-- The character of a code point, unless it is a surrogate or too large. -/
def scalar? (code : Nat) : Option Char := if code.isValidChar then some (Char.ofNat code) else none

theorem decode?_encode (s : String) : decode? (encode s) = some s := by
  have h : ByteArray.IsValidUTF8 ⟨s.toByteArray.data⟩ := s.isValidUTF8
  simp [decode?, encode, String.fromUTF8?, String.fromUTF8, h]

end ShellExpr.Bytes
