import ShellExpr.Literal
import ShellExpr.Proofs.Basics
import ShellExpr.Proofs.Number.Integer
import ShellExpr.Proofs.Number.Reading

/-!
# How literals are written

Integers and characters are written in a grammar of their own for each kind of token. Reading them
takes more than the grammar: what it looks for it finds, but it lets pass what else is there. Both
are one grammar here, in a strict and in a lenient manner, with the integer or the code that a text
stands for.

* `Writes`: the texts of a kind, with what they stand for.
* `integer_eq_ok_iff`: an integer is read from the texts of the lenient grammar.
* `charCode?_eq_some_iff`: so is the code of a character.
-/

namespace ShellExpr.Literal

open Numeral

/-! ### The grammar -/

/-- How closely texts keep to the grammar of their kind. -/
inductive Manner where
  | strict
  /-- A sign may stand before digits, the mark of a radix may be missing, hexadecimal digits may be
  of any number, and anything may follow a single character. -/
  | lenient

namespace Manner

/-- The digits of an integer, in the lenient manner with a sign. -/
def Number (m : Manner) (radix : Nat) (cs : List Char) (z : Int) : Prop :=
  match m with
  | strict => ∃ n : Nat, IsNumeral radix cs n ∧ (n : Int) = z
  | lenient => IsSigned radix cs z

/-- The hexadecimal digits of a code, as many as their width says if there is one. In the lenient
manner they may be more or less, and a plus sign may stand before them. -/
def Hex (m : Manner) (width : Option Nat) (cs : List Char) (n : Nat) : Prop :=
  match m with
  | strict => IsNumeral 16 cs n ∧ ∀ w ∈ width, cs.length = w
  | lenient => IsNumeral 16 cs n ∨ ∃ ds, cs = '+' :: ds ∧ IsNumeral 16 ds n

/-- What follows a single character. -/
def Rest (m : Manner) (expected rest : List Char) : Prop :=
  match m with
  | strict => rest = expected
  | lenient => True

end Manner

/-- The kinds of integers with their radix and its marks. -/
inductive Mark : TokenKind → Nat → List Char → Prop where
  | decimal : Mark .decInt 10 []
  | binary {c : Char} (h : c = 'b' ∨ c = 'B') : Mark .binInt 2 ['0', c]
  | octal {c : Char} (h : c = 'o' ∨ c = 'O') : Mark .octInt 8 ['0', c]
  | hexadecimal {c : Char} (h : c = 'x' ∨ c = 'X') : Mark .hexInt 16 ['0', c]

/-- The texts of a kind, with the integer or the code that they stand for. -/
inductive Writes (m : Manner) : TokenKind → List Char → Int → Prop where
  | marked {kind : TokenKind} {radix : Nat} {mark cs : List Char} {z : Int}
      (hk : Mark kind radix mark) (h : m.Number radix cs z) : Writes m kind (mark ++ cs) z
  | unmarked {kind : TokenKind} {radix : Nat} {mark cs : List Char} {z : Int} (hm : m = .lenient)
      (hk : Mark kind radix mark) (h : m.Number radix cs z) : Writes m kind cs z
  | escape {c d : Char} {rest : List Char} (hd : escape? c = some d) (hr : m.Rest [] rest) :
      Writes m .charOne (['\\'] ++ c :: rest) d.toNat
  | byte {ds : List Char} {n : Nat} (h : m.Hex (some 2) ds n) :
      Writes m .charHex (['\\', 'x'] ++ ds) n
  | short {ds : List Char} {n : Nat} (h : m.Hex (some 4) ds n) :
      Writes m .charUnicode4 (['\\', 'u'] ++ ds) n
  | long {ds : List Char} {n : Nat} (h : m.Hex (some 8) ds n) :
      Writes m .charUnicode8 (['\\', 'U'] ++ ds) n
  | braced {ds : List Char} {n : Nat} (h : m.Hex none ds n) :
      Writes m .charBraced (['\\', 'u', '\x7b'] ++ (ds ++ ['\x7d'])) n
  | pound {c : Char} {rest : List Char} (hr : m.Rest ['\''] rest) :
      Writes m .charPound (['#', '\''] ++ c :: rest) c.toNat

/-- What is written by the grammar is so in the lenient manner. -/
theorem Writes.lenient {kind : TokenKind} {cs : List Char} {z : Int} (h : Writes .strict kind cs z) :
    Writes .lenient kind cs z := by
  cases h with
  | marked hk h =>
    obtain ⟨n, hn, rfl⟩ := h
    exact .marked hk (.plain hn)
  | unmarked hm => cases hm
  | escape hd _ => exact .escape hd trivial
  | byte h => exact .byte (.inl h.1)
  | short h => exact .short (.inl h.1)
  | long h => exact .long (.inl h.1)
  | braced h => exact .braced (.inl h.1)
  | pound _ => exact .pound trivial

/-! ### Integers -/

section Integers

variable {kind : TokenKind} {radix n : Nat} {mark cs : List Char} {c : Char} {z : Int}

/-- A letter made small comes of the small one or of the capital one. -/
theorem lower_eq_iff {l u : Char} (hu : 65 ≤ u.toNat ∧ u.toNat ≤ 90) (hl : l.toNat = u.toNat + 32) :
    Decimal.lower c = l ↔ c = l ∨ c = u := by
  unfold Decimal.lower
  split
  · rename_i hc
    have hr : 65 ≤ c.toNat ∧ c.toNat ≤ 90 := hc
    have hvalid : (c.toNat + 32).isValidChar := .inl (by omega)
    have hsmall : (Char.ofNat (c.toNat + 32)).toNat = c.toNat + 32 :=
      Bytes.scalar?_eq_some_iff.mp (if_pos hvalid)
    rw [← Char.toNat_inj, hsmall, ← Char.toNat_inj, ← Char.toNat_inj]
    omega
  · rename_i hc
    have hne : c ≠ u := by
      rintro rfl
      exact hc hu
    simp [hne]

theorem lower_eq_b_iff : Decimal.lower c = 'b' ↔ c = 'b' ∨ c = 'B' := lower_eq_iff (by decide) rfl

theorem lower_eq_o_iff : Decimal.lower c = 'o' ↔ c = 'o' ∨ c = 'O' := lower_eq_iff (by decide) rfl

theorem lower_eq_x_iff : Decimal.lower c = 'x' ↔ c = 'x' ∨ c = 'X' := lower_eq_iff (by decide) rfl

/-- The letter of a mark is no digit of its radix. -/
def IsLetterOf (radix : Nat) (letter : Char) : Prop :=
  ∀ c, Decimal.lower c = letter → digit? radix c = none

theorem isLetterOf_b : IsLetterOf 2 'b' := by
  intro c hc
  rcases lower_eq_b_iff.mp hc with rfl | rfl <;> rfl

theorem isLetterOf_o : IsLetterOf 8 'o' := by
  intro c hc
  rcases lower_eq_o_iff.mp hc with rfl | rfl <;> rfl

theorem isLetterOf_x : IsLetterOf 16 'x' := by
  intro c hc
  rcases lower_eq_x_iff.mp hc with rfl | rfl <;> rfl

theorem unmarked_none (cs : List Char) : unmarked none cs = cs := by
  unfold unmarked
  split <;> simp

/-- Either a mark is taken from a text or it stays as it is. -/
theorem unmarked_cases (letter : Option Char) (cs : List Char) :
    (∃ c rest, cs = '0' :: c :: rest ∧ letter = some (Decimal.lower c) ∧
      unmarked letter cs = rest) ∨ unmarked letter cs = cs := by
  unfold unmarked
  split
  · rename_i c rest
    split
    · rename_i hc
      exact .inl ⟨c, rest, rfl, hc, rfl⟩
    · exact .inr rfl
  · exact .inr rfl

/-- Digits of a radix do not start with its mark, so none is taken from them. -/
theorem unmarked_of_isSigned {letter : Char} (hl : IsLetterOf radix letter) (h36 : radix ≤ 36)
    (h : IsSigned radix cs z) : unmarked (some letter) cs = cs := by
  rcases unmarked_cases (some letter) cs with ⟨c, rest, rfl, hc, -⟩ | hself
  · cases h with
    -- behind a sign there is no mark to take
    | plain h =>
      obtain ⟨d, hd⟩ := h.isDigit (List.mem_cons_of_mem '0' List.mem_cons_self)
      have hnone := hl c (Option.some.inj hc).symm
      rw [(digit?_eq_some_iff h36).mpr hd] at hnone
      contradiction
  · exact hself

namespace Mark

theorem radix_eq (h : Mark kind radix mark) : (Literal.radix kind).1 = radix := by
  cases h <;> rfl

theorem radix_le (h : Mark kind radix mark) : radix ≤ 36 := by
  cases h <;> decide

/-- A mark is taken from the text that it starts. -/
theorem unmarked_append (h : Mark kind radix mark) (cs : List Char) :
    unmarked (Literal.radix kind).2 (mark ++ cs) = cs := by
  cases h with
  | decimal => exact unmarked_none cs
  | binary h => exact if_pos (congrArg some (lower_eq_b_iff.mpr h).symm)
  | octal h => exact if_pos (congrArg some (lower_eq_o_iff.mpr h).symm)
  | hexadecimal h => exact if_pos (congrArg some (lower_eq_x_iff.mpr h).symm)

theorem unmarked_self (h : Mark kind radix mark) (hs : IsSigned radix cs z) :
    unmarked (Literal.radix kind).2 cs = cs := by
  cases h with
  | decimal => exact unmarked_none cs
  | binary _ => exact unmarked_of_isSigned isLetterOf_b (by decide) hs
  | octal _ => exact unmarked_of_isSigned isLetterOf_o (by decide) hs
  | hexadecimal _ => exact unmarked_of_isSigned isLetterOf_x (by decide) hs

/-- What is taken from a text is a mark of its kind. -/
theorem of_letter (h : Mark kind radix mark)
    (hc : (Literal.radix kind).2 = some (Decimal.lower c)) : Mark kind radix ['0', c] := by
  cases h with
  | decimal => contradiction
  | binary _ => exact .binary (lower_eq_b_iff.mp (Option.some.inj hc).symm)
  | octal _ => exact .octal (lower_eq_o_iff.mp (Option.some.inj hc).symm)
  | hexadecimal _ => exact .hexadecimal (lower_eq_x_iff.mp (Option.some.inj hc).symm)

/-- The digits of a text without its mark are those of the lenient grammar. -/
theorem signed?_eq_some_iff (hk : Mark kind radix mark) :
    signed? radix (unmarked (Literal.radix kind).2 cs) = some z ↔ Writes .lenient kind cs z := by
  rw [Numeral.signed?_eq_some_iff hk.radix_le]
  constructor
  · intro h
    rcases unmarked_cases (Literal.radix kind).2 cs with ⟨c, rest, rfl, hc, hrest⟩ | hself
    · rw [hrest] at h
      exact .marked (hk.of_letter hc) h
    · rw [hself] at h
      exact .unmarked rfl hk h
  · intro h
    cases h with
    | marked hk' h =>
      rw [hk'.unmarked_append, ← hk.radix_eq, hk'.radix_eq]
      exact h
    | unmarked _ hk' h =>
      rw [hk'.unmarked_self h, ← hk.radix_eq, hk'.radix_eq]
      exact h
    | _ => cases hk

end Mark

/-- An integer is the value of a text without its mark, if it is in range. -/
theorem integer_eq (kind : TokenKind) (text : String) : integer kind text =
    ((signed? (Literal.radix kind).1
      (unmarked (Literal.radix kind).2 (withoutUnderscores text))).bind Integer.ofInt?).elim
      (.error (.missing (.integerLiteral text))) .ok := by
  unfold integer
  rcases Literal.radix kind with ⟨r, letter⟩
  simp only
  cases (signed? r (unmarked letter (withoutUnderscores text))).bind Integer.ofInt? <;> rfl

/-- **An integer is read from what is written for it leniently, if it is in range.** -/
theorem integer_eq_ok_iff {text : String} {i : Int64} (hk : Mark kind radix mark) :
    integer kind text = .ok i ↔ Writes .lenient kind (withoutUnderscores text) i.toInt := by
  rw [← hk.signed?_eq_some_iff, integer_eq, hk.radix_eq]
  cases hs : signed? radix (unmarked (Literal.radix kind).2 (withoutUnderscores text)) with
  | none => simp
  | some z =>
    have hz : some z = some i.toInt ↔ Integer.ofInt? z = some i := by
      rw [Integer.ofInt?_eq_some_iff, Option.some.injEq, eq_comm]
    rw [Option.bind_some, hz]
    cases Integer.ofInt? z <;> simp

theorem error_of_integer {text : String} {f : Fault} (h : integer kind text = .error f) :
    f = .missing (.integerLiteral text) := by
  rw [integer_eq] at h
  generalize Option.bind _ Integer.ofInt? = r at h
  cases r with
  | none => exact (Except.error.inj h).symm
  | some i => contradiction

end Integers

/-! ### Characters -/

section Characters

variable {cs pre rest : List Char} {n : Nat}

theorem after?_eq_some_iff : after? pre cs = some rest ↔ cs = pre ++ rest := by
  induction pre generalizing cs with
  | nil => simp [after?]
  | cons p ps ih =>
    cases cs with
    | nil => simp [after?]
    | cons c cs =>
      unfold after?
      split
      · rename_i hpc
        rw [ih, hpc, List.cons_append, List.cons_inj_right]
      · rename_i hpc
        constructor
        · intro h
          contradiction
        · intro h
          exact absurd (List.cons.inj h).1.symm hpc

theorem before?_eq_some_iff {last : Char} : before? last cs = some rest ↔ cs = rest ++ [last] := by
  unfold before?
  constructor
  · intro h
    split at h
    · rename_i hlast
      obtain rfl := Option.some.inj h
      exact (List.dropLast_append_getLast? last hlast).symm
    · contradiction
  · rintro rfl
    simp

theorem hex?_eq_some_iff (width : Option Nat) :
    hex? cs = some n ↔ Manner.lenient.Hex width cs n ∧ n < 2 ^ 32 := by
  unfold hex?
  rw [Option.filter_eq_some_iff, unsigned?_eq_some_iff (by decide), decide_eq_true_eq]
  rfl

/-- The code of an escape that is hexadecimal digits after its first characters. -/
theorem bind_hex?_eq_some_iff {width : Option Nat} : (after? pre cs).bind hex? = some n ↔
    ∃ ds, cs = pre ++ ds ∧ Manner.lenient.Hex width ds n ∧ n < 2 ^ 32 := by
  simp only [Option.bind_eq_some_iff, after?_eq_some_iff, hex?_eq_some_iff width]

theorem toNat_lt (c : Char) : c.toNat < 2 ^ 32 := c.val.toNat_lt

/-- **The code of a character is read from what is written for it leniently**, if it is a machine
word. -/
theorem charCode?_eq_some_iff {kind : TokenKind} {text : String} {span : Span}
    (hk : kind.isChar = true) :
    charCode? ⟨kind, text, span⟩ = some n ↔ Writes .lenient kind text.toList n ∧ n < 2 ^ 32 := by
  constructor
  · intro h
    cases kind with
    | charOne =>
      obtain ⟨r, hr, h⟩ := Option.bind_eq_some_iff.mp h
      obtain ⟨d, hd, rfl⟩ := Option.map_eq_some_iff.mp h
      obtain ⟨c, hc, hd⟩ := Option.bind_eq_some_iff.mp hd
      obtain ⟨rest, rfl⟩ := List.head?_eq_some_iff.mp hc
      rw [after?_eq_some_iff.mp hr]
      exact ⟨.escape hd trivial, toNat_lt d⟩
    | charHex =>
      obtain ⟨ds, hcs, hd, hn⟩ := bind_hex?_eq_some_iff.mp h
      rw [hcs]
      exact ⟨.byte hd, hn⟩
    | charUnicode4 =>
      obtain ⟨ds, hcs, hd, hn⟩ := bind_hex?_eq_some_iff.mp h
      rw [hcs]
      exact ⟨.short hd, hn⟩
    | charUnicode8 =>
      obtain ⟨ds, hcs, hd, hn⟩ := bind_hex?_eq_some_iff.mp h
      rw [hcs]
      exact ⟨.long hd, hn⟩
    | charBraced =>
      obtain ⟨ds, hds, h⟩ := Option.bind_eq_some_iff.mp h
      obtain ⟨r, hr, hds⟩ := Option.bind_eq_some_iff.mp hds
      obtain ⟨hd, hn⟩ := (hex?_eq_some_iff none).mp h
      rw [after?_eq_some_iff.mp hr, before?_eq_some_iff.mp hds]
      exact ⟨.braced hd, hn⟩
    | charPound =>
      obtain ⟨r, hr, h⟩ := Option.bind_eq_some_iff.mp h
      obtain ⟨c, hc, rfl⟩ := Option.map_eq_some_iff.mp h
      obtain ⟨rest, rfl⟩ := List.head?_eq_some_iff.mp hc
      rw [after?_eq_some_iff.mp hr]
      exact ⟨.pound trivial, toNat_lt c⟩
    | _ => contradiction
  · rintro ⟨h, hn⟩
    generalize hcs : text.toList = cs at h
    generalize hz : (n : Int) = z at h
    cases h with
    | escape hd _ =>
      obtain rfl := Int.ofNat.inj hz
      simp only [charCode?, hcs, after?_eq_some_iff.mpr rfl, Option.bind_some, List.head?_cons, hd,
        Option.map_some]
    | byte hd =>
      obtain rfl := Int.ofNat.inj hz
      exact bind_hex?_eq_some_iff.mpr ⟨_, hcs, hd, hn⟩
    | short hd =>
      obtain rfl := Int.ofNat.inj hz
      exact bind_hex?_eq_some_iff.mpr ⟨_, hcs, hd, hn⟩
    | long hd =>
      obtain rfl := Int.ofNat.inj hz
      exact bind_hex?_eq_some_iff.mpr ⟨_, hcs, hd, hn⟩
    | braced hd =>
      obtain rfl := Int.ofNat.inj hz
      simp only [charCode?, hcs, after?_eq_some_iff.mpr rfl, before?_eq_some_iff.mpr rfl,
        Option.bind_some]
      exact (hex?_eq_some_iff none).mpr ⟨hd, hn⟩
    | pound _ =>
      obtain rfl := Int.ofNat.inj hz
      simp only [charCode?, hcs, after?_eq_some_iff.mpr rfl, Option.bind_some, List.head?_cons,
        Option.map_some]
    | marked hk' _ => cases hk' <;> contradiction
    | unmarked _ hk' _ => cases hk' <;> contradiction

theorem Manner.Hex.unsigned? {width : Option Nat} (h : Manner.lenient.Hex width cs n) :
    unsigned? 16 cs = some n := (unsigned?_eq_some_iff (by decide)).mpr h

/-- Hexadecimal digits are those of one code. -/
theorem Manner.Hex.unique {width : Option Nat} {m : Nat} (h : Manner.lenient.Hex width cs n)
    (h' : Manner.lenient.Hex width cs m) : n = m :=
  Option.some.inj (h.unsigned?.symm.trans h'.unsigned?)

/-- A text stands for one integer or code. -/
theorem Writes.unique {kind : TokenKind} {z z' : Int} (h : Writes .lenient kind cs z)
    (h' : Writes .lenient kind cs z') : z = z' := by
  have hint : ∀ {radix mark}, Mark kind radix mark → z = z' := fun hk =>
    Option.some.inj ((hk.signed?_eq_some_iff.mpr h).symm.trans (hk.signed?_eq_some_iff.mpr h'))
  generalize hcs : cs = ds at h'
  cases h with
  | marked hk _ => exact hint hk
  | unmarked _ hk _ => exact hint hk
  | escape hd _ =>
    cases h' with
    | escape hd' _ =>
      obtain ⟨rfl, -⟩ := List.cons.inj (List.append_cancel_left hcs)
      rw [Option.some.inj (hd.symm.trans hd')]
    | marked hk _ => exact hint hk
    | unmarked _ hk _ => exact hint hk
  | byte h =>
    cases h' with
    | byte h' => exact congrArg Nat.cast (h.unique (List.append_cancel_left hcs ▸ h'))
    | marked hk _ => exact hint hk
    | unmarked _ hk _ => exact hint hk
  | short h =>
    cases h' with
    | short h' => exact congrArg Nat.cast (h.unique (List.append_cancel_left hcs ▸ h'))
    | marked hk _ => exact hint hk
    | unmarked _ hk _ => exact hint hk
  | long h =>
    cases h' with
    | long h' => exact congrArg Nat.cast (h.unique (List.append_cancel_left hcs ▸ h'))
    | marked hk _ => exact hint hk
    | unmarked _ hk _ => exact hint hk
  | braced h =>
    cases h' with
    | braced h' =>
      have hds := List.append_cancel_right (List.append_cancel_left hcs)
      exact congrArg Nat.cast (h.unique (hds ▸ h'))
    | marked hk _ => exact hint hk
    | unmarked _ hk _ => exact hint hk
  | pound _ =>
    cases h' with
    | pound _ =>
      obtain ⟨rfl, -⟩ := List.cons.inj (List.append_cancel_left hcs)
      rfl
    | marked hk _ => exact hint hk
    | unmarked _ hk _ => exact hint hk

end Characters

/-! ### Form -/

section Form

variable {kind : TokenKind} {radix n : Nat} {width : Option Nat} {cs : List Char} {z : Int}

/-- How long the texts of a kind are, if they are all of one length. -/
def length? : TokenKind → Option Nat
  | .charOne => some 2
  | .charHex | .charPound => some 4
  | .charUnicode4 => some 6
  | .charUnicode8 => some 10
  | _ => none

/-- The form of a text, apart from its letters and digits, which reading does not check. -/
structure KeepsForm (kind : TokenKind) (cs : List Char) : Prop where
  unsigned : kind ≠ .charPound → '+' ∉ cs ∧ '-' ∉ cs
  marked {radix : Nat} {mark : List Char} : Mark kind radix mark →
    ∃ mark', Mark kind radix mark' ∧ mark' <+: cs
  length : ∀ n ∈ length? kind, cs.length = n
  closed : kind = .charPound → cs.getLast? = some '\''

theorem not_mem_sign (h36 : radix ≤ 36) (h : IsNumeral radix cs n) : '+' ∉ cs ∧ '-' ∉ cs := by
  constructor
  · intro hc
    obtain ⟨d, hd⟩ := h.isDigit hc
    have hv := (digit?_eq_some_iff h36).mpr hd
    contradiction
  · intro hc
    obtain ⟨d, hd⟩ := h.isDigit hc
    have hv := (digit?_eq_some_iff h36).mpr hd
    contradiction

theorem strict_number (h : IsSigned radix cs z) (hs : '+' ∉ cs ∧ '-' ∉ cs) :
    Manner.strict.Number radix cs z := by
  cases h with
  | plain h => exact ⟨_, h, rfl⟩
  | plus => exact absurd List.mem_cons_self hs.1
  | minus => exact absurd List.mem_cons_self hs.2

theorem strict_hex (h : Manner.lenient.Hex width cs n) (hs : '+' ∉ cs)
    (hl : ∀ w ∈ width, cs.length = w) : Manner.strict.Hex width cs n := by
  rcases h with h | ⟨ds, rfl, -⟩
  · exact ⟨h, hl⟩
  · exact absurd List.mem_cons_self hs

theorem Mark.ne_charPound {mark : List Char} (h : Mark kind radix mark) : kind ≠ .charPound := by
  cases h <;> decide

theorem Mark.not_mem_sign {mark : List Char} (h : Mark kind radix mark) :
    '+' ∉ mark ∧ '-' ∉ mark := by
  cases h with
  | decimal => decide
  | binary h | octal h | hexadecimal h => rcases h with rfl | rfl <;> decide

/-- No sign stands in an escape whose first characters are none. -/
theorem not_mem_sign_escape {pre : List Char} (hpre : '+' ∉ pre ∧ '-' ∉ pre)
    (hcs : '+' ∉ cs ∧ '-' ∉ cs) : '+' ∉ pre ++ cs ∧ '-' ∉ pre ++ cs := by
  simp only [List.mem_append, not_or]
  exact ⟨⟨hpre.1, hcs.1⟩, hpre.2, hcs.2⟩

/-- Characters have no mark. -/
theorem KeepsForm.of_isChar (hk : kind.isChar = true)
    (hs : kind ≠ .charPound → '+' ∉ cs ∧ '-' ∉ cs) (hl : ∀ n ∈ length? kind, cs.length = n)
    (hc : kind = .charPound → cs.getLast? = some '\'') : KeepsForm kind cs where
  unsigned := hs
  marked hm := by cases hm <;> contradiction
  length := hl
  closed := hc

/-- The form of an escape of hexadecimal digits. -/
theorem KeepsForm.of_hex {pre : List Char} (hk : kind.isChar = true) (hp : kind ≠ .charPound)
    (hpre : '+' ∉ pre ∧ '-' ∉ pre) (h : Manner.strict.Hex width cs n)
    (hl : ∀ l ∈ length? kind, ∃ w ∈ width, pre.length + w = l) : KeepsForm kind (pre ++ cs) := by
  refine .of_isChar hk (fun _ => not_mem_sign_escape hpre (not_mem_sign (by decide) h.1)) ?_
    (fun hc => absurd hc hp)
  intro l hlen
  obtain ⟨w, hw, rfl⟩ := hl l hlen
  rw [List.length_append, h.2 w hw]

theorem KeepsForm.of_strict (h : Writes .strict kind cs z) : KeepsForm kind cs := by
  cases h with
  | marked hk h =>
    obtain ⟨n, hn, rfl⟩ := h
    have hs := not_mem_sign_escape hk.not_mem_sign (Literal.not_mem_sign hk.radix_le hn)
    refine ⟨fun _ => hs, fun hk' => ⟨_, ?_, List.prefix_append _ _⟩, ?_, fun hp => ?_⟩
    · rw [← hk'.radix_eq, hk.radix_eq]
      exact hk
    · cases hk <;> simp [length?]
    · exact absurd hp hk.ne_charPound
  | unmarked hm => cases hm
  | @escape c d rest hd hr =>
    obtain rfl : rest = [] := hr
    have hc : c ≠ '+' ∧ c ≠ '-' := by
      constructor <;> rintro rfl <;> contradiction
    refine .of_isChar rfl (fun _ => not_mem_sign_escape (by decide) ?_) ?_ (by simp)
    · simp [hc.1.symm, hc.2.symm]
    · simp [length?]
  | byte h => exact .of_hex rfl (by decide) (by decide) h (by simp [length?])
  | short h => exact .of_hex rfl (by decide) (by decide) h (by simp [length?])
  | long h => exact .of_hex rfl (by decide) (by decide) h (by simp [length?])
  | braced h =>
    have hbrace : '+' ∉ ['\x7d'] ∧ '-' ∉ ['\x7d'] := by decide
    have hs := not_mem_sign_escape (not_mem_sign (by decide) h.1) hbrace
    exact .of_isChar rfl (fun _ => not_mem_sign_escape (by decide) hs) (by simp [length?]) (by simp)
  | @pound c rest hr =>
    obtain rfl : rest = ['\''] := hr
    exact .of_isChar rfl (fun h => absurd rfl h) (by simp [length?]) (by simp)

/-- **A text of the lenient grammar is one of the strict grammar if it keeps the form.** -/
theorem Writes.strict_iff :
    Writes .strict kind cs z ↔ Writes .lenient kind cs z ∧ KeepsForm kind cs := by
  refine ⟨fun h => ⟨h.lenient, .of_strict h⟩, ?_⟩
  rintro ⟨h, hf⟩
  have hplus : kind ≠ .charPound → '+' ∉ cs := fun hp => (hf.unsigned hp).1
  cases h with
  | marked hk h =>
    have hs := hf.unsigned hk.ne_charPound
    simp only [List.mem_append, not_or] at hs
    exact .marked hk (strict_number h ⟨hs.1.2, hs.2.2⟩)
  | unmarked _ hk h =>
    -- no mark is taken from digits, so the one that the form asks for is empty
    obtain ⟨mark, hk, rest, rfl⟩ := hf.marked hk
    have hself := hk.unmarked_self h
    rw [hk.unmarked_append] at hself
    obtain rfl : mark = [] := List.append_left_eq_self.mp hself.symm
    exact .marked hk (strict_number h (hf.unsigned hk.ne_charPound))
  | escape hd _ =>
    have hl := hf.length 2 rfl
    exact .escape hd (List.eq_nil_of_length_eq_zero (by simpa using hl))
  | byte h =>
    have hl := hf.length 4 rfl
    exact .byte (strict_hex h (by simpa using hplus (by decide)) (by simpa using hl))
  | short h =>
    have hl := hf.length 6 rfl
    exact .short (strict_hex h (by simpa using hplus (by decide)) (by simpa using hl))
  | long h =>
    have hl := hf.length 10 rfl
    exact .long (strict_hex h (by simpa using hplus (by decide)) (by simpa using hl))
  | braced h => exact .braced (strict_hex h (by simpa using hplus (by decide)) (by simp))
  | @pound c rest _ =>
    have hl : rest.length = 1 := by simpa using hf.length 4 rfl
    obtain ⟨d, rfl⟩ := List.length_eq_one_iff.mp hl
    have hd : d = '\'' := by simpa using hf.closed rfl
    exact .pound (hd ▸ rfl)

end Form

end ShellExpr.Literal
