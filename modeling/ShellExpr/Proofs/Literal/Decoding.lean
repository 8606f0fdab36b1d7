import Mathlib.Data.List.Forall2
import ShellExpr.Proofs.Literal.Grammar

/-!
# What literals decode to

* `integer_of_numeral`: a numeral of any radix decodes to its value, wherever underscores stand in
  it, or is out of range.
* `singleQuoted_of_spells`: a string decodes from any spelling of its characters, one by one, and no
  string from the code of no character.
* `read_iff_writes`: exactly the texts of the lenient grammar are read, which are those of the
  strict one as far as they keep its form.
-/

namespace ShellExpr.Literal

open Numeral

variable {kind : TokenKind} {radix n : Nat} {mark digits cs : List Char} {text : String}
  {span : Span} {h : Handle} {c : Char} {z : Int}

/-! ### Integers -/

theorem constant_of_mark (hk : Mark kind radix mark) : constant h ⟨kind, text, span⟩ =
    ((integer kind text).map .int).mapError Fault.unplaced := by
  cases hk <;> rfl

/-- **A numeral decodes to its value**, whatever its radix, its leading zeros, the case of its
letters and the underscores between them; a value out of range makes it invalid. -/
theorem integer_of_numeral (hk : Mark kind radix mark) (hn : IsNumeral radix digits n)
    (ht : withoutUnderscores text = mark ++ digits) (h : Handle) (span : Span) :
    (n < 2 ^ 63 → ∃ i : Int64, i.toInt = n ∧ integer kind text = .ok i ∧
      constant h ⟨kind, text, span⟩ = .ok (.int i)) ∧
    (2 ^ 63 ≤ n → integer kind text = .error (.missing (.integerLiteral text)) ∧
      constant h ⟨kind, text, span⟩ = .error (Fault.missing (.integerLiteral text)).unplaced) := by
  have hread : signed? radix (unmarked (Literal.radix kind).2 (withoutUnderscores text)) =
      some (n : Int) := by
    rw [ht, hk.unmarked_append, signed?_eq_some_iff hk.radix_le]
    exact .plain hn
  have hw : Writes .lenient kind (withoutUnderscores text) n := hk.signed?_eq_some_iff.mp hread
  rw [constant_of_mark hk]
  constructor
  · intro hlt
    obtain ⟨i, -, hi⟩ := Integer.exists_ofInt? (r := n) ⟨by omega, by omega⟩
    have hok : integer kind text = .ok i := (integer_eq_ok_iff hk).mpr (hi ▸ hw)
    exact ⟨i, hi, hok, by rw [hok]; rfl⟩
  · intro hle
    cases hres : integer kind text with
    | error f =>
      rw [error_of_integer hres]
      exact ⟨rfl, rfl⟩
    | ok i =>
      have hi := hk.signed?_eq_some_iff.mpr ((integer_eq_ok_iff hk).mp hres)
      rw [hread] at hi
      have hin : (n : Int) = i.toInt := Option.some.inj hi
      have := i.toInt_lt
      omega

/-- The largest integer, with capital and small letters and underscores anywhere. -/
theorem integer_of_numeral_largest :
    ∃ i : Int64, i.toInt = 2 ^ 63 - 1 ∧ integer .hexInt "_0_X0_7fFF_FFff__ffFFFfff_" = .ok i :=
  have hn : IsNumeral 16 "07fFFFFffffFFFfff".toList (2 ^ 63 - 1) :=
    (value?_eq_some_iff (by decide)).mp (by decide +kernel)
  have ht : withoutUnderscores "_0_X0_7fFF_FFff__ffFFFfff_" =
      ['0', 'X'] ++ "07fFFFFffffFFFfff".toList := by decide +kernel
  have ⟨i, hi, hok, _⟩ :=
    (integer_of_numeral (.hexadecimal (.inr rfl)) hn ht ⟨[]⟩ .dummy).1 (by decide)
  ⟨i, hi, hok⟩

/-! ### Failures -/

section Failures

variable {tok : Token} {e : EvalError}

theorem eq_badChar_of_charCode (h : charCode tok = .error e) : e = badChar tok := by
  unfold charCode at h
  split at h
  · contradiction
  · exact (Except.error.inj h).symm

theorem eq_badChar_of_char (h : char tok = .error e) : e = badChar tok := by
  rcases error_of_bind h with h | ⟨code, -, h⟩
  · exact eq_badChar_of_charCode h
  · split at h
    · contradiction
    · exact (Except.error.inj h).symm

theorem error_of_stringToken (h : stringToken tok = .error e) :
    e = badChar tok ∨ ∃ feature, e = (Fault.unsupported feature).unplaced := by
  unfold stringToken at h
  split at h
  · contradiction
  · contradiction
  · split at h
    · exact .inl (eq_badChar_of_char (error_of_map h))
    · exact .inr ⟨_, (Except.error.inj h).symm⟩

theorem eq_badChar_of_stringToken (hc : tok.kind.isChar = true) (h : stringToken tok = .error e) :
    e = badChar tok := by
  unfold stringToken at h
  split at h
  · contradiction
  · contradiction
  · rw [if_pos hc] at h
    exact eq_badChar_of_char (error_of_map h)

theorem error_of_stringTokens {toks : List Token} (h : stringTokens toks = .error e) :
    ∃ tok ∈ toks, stringToken tok = .error e := by
  induction toks with
  | nil => contradiction
  | cons tok rest ih =>
    rcases error_of_bind h with h | ⟨s, -, h⟩
    · exact ⟨tok, List.mem_cons_self, h⟩
    rcases error_of_bind h with h | ⟨s', -, h⟩
    · obtain ⟨tok', hmem, h⟩ := ih h
      exact ⟨tok', List.mem_cons_of_mem _ hmem, h⟩
    · contradiction

theorem error_of_singleQuoted {w : SingleQuoted} (h : singleQuoted w = .error e) :
    ∃ tok ∈ w.tokens, stringToken tok = .error e := by
  unfold singleQuoted at h
  split at h
  · contradiction
  · exact error_of_stringTokens h

theorem eq_badChar_of_classTerm? (h : classTerm? tok = .error e) : e = badChar tok := by
  unfold classTerm? at h
  split at h
  · exact eq_badChar_of_stringToken (by simp [TokenKind.isChar, *]) (error_of_map h)
  · exact eq_badChar_of_stringToken (by simp [TokenKind.isChar, *]) (error_of_map h)
  · rcases error_of_bind h with h | ⟨code, -, h⟩
    · exact eq_badChar_of_charCode h
    · split at h
      · contradiction
      · exact (Except.error.inj h).symm
  · exact eq_badChar_of_charCode (error_of_map h)
  · exact eq_badChar_of_charCode (error_of_map h)
  · exact eq_badChar_of_charCode (error_of_map h)
  · contradiction
  · contradiction
  · contradiction

end Failures

/-! ### Characters -/

theorem constant_of_isChar (hk : kind.isChar = true) : constant h ⟨kind, text, span⟩ =
    (charCode ⟨kind, text, span⟩).map fun n => .int (Int64.ofNat n) := by
  cases kind with
  | charOne | charHex | charUnicode4 | charUnicode8 | charBraced | charPound => rfl
  | _ => contradiction

theorem stringToken_of_isChar (hk : kind.isChar = true) : stringToken ⟨kind, text, span⟩ =
    (char ⟨kind, text, span⟩).map fun c => String.ofList [c] := by
  cases kind with
  | charOne | charHex | charUnicode4 | charUnicode8 | charBraced | charPound => rfl
  | _ => contradiction

theorem charCode_eq_ok_iff (hk : kind.isChar = true) : charCode ⟨kind, text, span⟩ = .ok n ↔
    Writes .lenient kind text.toList n ∧ n < 2 ^ 32 := by
  rw [← charCode?_eq_some_iff hk]
  unfold charCode
  cases charCode? ⟨kind, text, span⟩ with
  | none => simp
  | some m => simp

/-- A token is that of a character if it has the code of one. -/
theorem char_eq_ok_iff_charCode {tok : Token} : char tok = .ok c ↔ charCode tok = .ok c.toNat := by
  constructor
  · intro hc
    obtain ⟨m, hm, hc⟩ := ok_of_bind hc
    split at hc
    · rename_i d hd
      obtain rfl := Except.ok.inj hc
      rwa [Bytes.scalar?_eq_some_iff.mp hd]
    · contradiction
  · intro hcode
    have hc : Bytes.scalar? c.toNat = some c := Bytes.scalar?_eq_some_iff.mpr rfl
    simp only [char, hcode, bind, Except.bind, hc]
    rfl

/-- A character is read from what is written for its code. -/
theorem char_eq_ok_iff (hk : kind.isChar = true) : char ⟨kind, text, span⟩ = .ok c ↔
    Writes .lenient kind text.toList c.toNat := by
  rw [char_eq_ok_iff_charCode, charCode_eq_ok_iff hk, and_iff_left (toNat_lt c)]

/-- The spellings of a character in an escaped string: the character itself, and an escape of its
code. -/
inductive Spells : Token → Char → Prop where
  | itself (c : Char) (span : Span) : Spells ⟨.literal, String.ofList [c], span⟩ c
  | escape {kind : TokenKind} {text : String} {c : Char} (hk : kind.isChar = true)
      (h : Writes .strict kind text.toList c.toNat) (span : Span) : Spells ⟨kind, text, span⟩ c

theorem stringToken_of_spells {tok : Token} (hs : Spells tok c) :
    stringToken tok = .ok (String.ofList [c]) := by
  cases hs with
  | itself => rfl
  | escape hk hw span =>
    rw [stringToken_of_isChar hk, (char_eq_ok_iff hk).mpr hw.lenient]
    rfl

theorem stringTokens_of_spells {toks : List Token} (hs : List.Forall₂ Spells toks cs) :
    stringTokens toks = .ok (String.ofList cs) := by
  induction hs with
  | nil => rfl
  | @cons tok c toks cs hc _ ih =>
    rw [stringTokens, stringToken_of_spells hc, ih]
    exact congrArg Except.ok String.ofList_append.symm

/-- The first token of a string that spells nothing makes it fail. -/
theorem stringTokens_of_error {bad : Token} {e : EvalError} (hb : stringToken bad = .error e)
    (pre post : List Token) :
    stringTokens (pre ++ bad :: post) = (stringTokens pre).bind fun _ => .error e := by
  induction pre with
  | nil =>
    simp only [List.nil_append, stringTokens, hb]
    rfl
  | cons tok rest ih =>
    rw [List.cons_append, stringTokens, stringTokens, ih]
    cases stringToken tok with
    | error _ => rfl
    | ok _ => cases stringTokens rest <;> rfl

/-- A code that is that of no character spells nothing. -/
theorem stringToken_of_not_valid (hk : kind.isChar = true) (hw : Writes .strict kind text.toList n)
    (hn : ¬ n.isValidChar) : stringToken ⟨kind, text, span⟩ = .error (badChar ⟨kind, text, span⟩) := by
  rw [stringToken_of_isChar hk]
  cases hc : char ⟨kind, text, span⟩ with
  | error e => exact congrArg Except.error (eq_badChar_of_char hc)
  | ok c =>
    -- a text has one code, and that of a character would be valid
    have hcode : (n : Int) = c.toNat := hw.lenient.unique ((char_eq_ok_iff hk).mp hc)
    have hvalid : c.toNat.isValidChar := c.valid
    exact absurd (Int.ofNat.inj hcode ▸ hvalid) hn

/-- **A string decodes from any spelling**, with one chosen for each of its characters, and each
escape alone decodes to a code. The code of a surrogate, or one beyond all characters, makes a string
fail. -/
theorem singleQuoted_of_spells {toks : List Token} {s : String}
    (hs : List.Forall₂ Spells toks s.toList) (span : Span) (h : Handle) :
    singleQuoted ⟨.escaped, toks, span⟩ = .ok s ∧
    List.Forall₂ (fun tok c => tok.kind.isChar = true →
      ∃ i : Int64, i.toInt = c.toNat ∧ constant h tok = .ok (.int i)) toks s.toList ∧
    ∀ pre bad post n, bad.kind.isChar = true → Writes .strict bad.kind bad.text.toList (n : Nat) →
      (0xD800 ≤ n ∧ n ≤ 0xDFFF ∨ 0x10FFFF < n) →
      ∃ e, singleQuoted ⟨.escaped, pre ++ bad :: post, span⟩ = .error e ∧
        ((∃ r, singleQuoted ⟨.escaped, pre, span⟩ = .ok r) → e = badChar bad) := by
  refine ⟨?_, ?_, ?_⟩
  · rw [← String.ofList_toList (s := s)]
    exact stringTokens_of_spells hs
  · refine hs.imp fun tok c hc hk => ?_
    cases hc with
    | itself => contradiction
    | escape _ hw span =>
      have hlt := toNat_lt c
      refine ⟨Int64.ofNat c.toNat, Int64.toInt_ofNat_of_lt (by omega), ?_⟩
      rw [constant_of_isChar hk, (charCode_eq_ok_iff hk).mpr ⟨hw.lenient, hlt⟩]
      rfl
  · intro pre bad post n hk hw hn
    have hbad : stringToken bad = .error (badChar bad) :=
      stringToken_of_not_valid hk hw (by unfold Nat.isValidChar; omega)
    -- what stands before may fail first, with an error of its own
    have hsplit := stringTokens_of_error hbad pre post
    cases hpre : stringTokens pre with
    | error e =>
      rw [hpre] at hsplit
      refine ⟨e, hsplit, ?_⟩
      rintro ⟨r, hr⟩
      rw [singleQuoted, hpre] at hr
      contradiction
    | ok r =>
      rw [hpre] at hsplit
      exact ⟨_, hsplit, fun _ => rfl⟩

/-- A string in which each kind of token spells a character, and one that a surrogate ends. -/
theorem singleQuoted_of_spells_each :
    singleQuoted ⟨.escaped, [⟨.literal, "a", .dummy⟩, ⟨.charOne, "\\n", .dummy⟩,
      ⟨.charHex, "\\xE9", .dummy⟩, ⟨.charUnicode4, "\\u03bC", .dummy⟩,
      ⟨.charUnicode8, "\\U0001f600", .dummy⟩, ⟨.charBraced, "\\u\x7b0001F600\x7d", .dummy⟩,
      ⟨.charPound, "#'''", .dummy⟩], .dummy⟩ = .ok "a\néμ😀😀'" ∧
    singleQuoted ⟨.escaped, [⟨.literal, "a", .dummy⟩, ⟨.charUnicode4, "\\uD800", .dummy⟩], .dummy⟩ =
      .error (badChar ⟨.charUnicode4, "\\uD800", .dummy⟩) := by
  have hnumeral : ∀ {ds : List Char} {n : Nat}, value? 16 ds = some n → IsNumeral 16 ds n :=
    (value?_eq_some_iff (by decide)).mp
  have hone : Writes .strict .charOne ['\\', 'n'] 10 :=
    @Writes.escape .strict 'n' '\n' [] rfl rfl
  have hbyte : Writes .strict .charHex (['\\', 'x'] ++ ['E', '9']) 0xE9 :=
    .byte ⟨hnumeral rfl, by decide⟩
  have hshort : Writes .strict .charUnicode4 (['\\', 'u'] ++ "03bC".toList) 0x3BC :=
    .short ⟨hnumeral rfl, by decide⟩
  have hlong : Writes .strict .charUnicode8 (['\\', 'U'] ++ "0001f600".toList) 0x1F600 :=
    .long ⟨hnumeral rfl, by decide⟩
  have hbraced : Writes .strict .charBraced
      (['\\', 'u', '\x7b'] ++ ("0001F600".toList ++ ['\x7d'])) 0x1F600 :=
    .braced ⟨hnumeral rfl, by decide⟩
  have hpound : Writes .strict .charPound (['#', '\''] ++ ['\'', '\'']) 0x27 :=
    @Writes.pound .strict '\'' ['\''] rfl
  have hlow : Writes .strict .charUnicode4 (['\\', 'u'] ++ "D800".toList) 0xD800 :=
    .short ⟨hnumeral rfl, by decide⟩
  refine ⟨(singleQuoted_of_spells ?_ .dummy ⟨[]⟩).1, ?_⟩
  · exact .cons (.itself 'a' .dummy) <| .cons (.escape rfl hone .dummy) <|
      .cons (.escape rfl hbyte .dummy) <| .cons (.escape rfl hshort .dummy) <|
      .cons (.escape rfl hlong .dummy) <| .cons (.escape rfl hbraced .dummy) <|
      .cons (.escape rfl hpound .dummy) .nil
  · have hs : List.Forall₂ Spells [] "".toList := .nil
    obtain ⟨e, he, hbad⟩ := (singleQuoted_of_spells hs .dummy ⟨[]⟩).2.2 [⟨.literal, "a", .dummy⟩]
      ⟨.charUnicode4, "\\uD800", .dummy⟩ [] 0xD800 rfl hlow (by decide)
    exact hbad ⟨"a", rfl⟩ ▸ he

/-! ### Malformed text -/

/-- The characters of a text that count: underscores do not in numbers. -/
def significant (kind : TokenKind) (text : String) : List Char :=
  if kind.isChar then text.toList else withoutUnderscores text

theorem significant_of_mark (hk : Mark kind radix mark) :
    significant kind text = withoutUnderscores text := by
  cases hk <;> rfl

theorem significant_of_isChar (hk : kind.isChar = true) : significant kind text = text.toList :=
  if_pos hk

/-- In the strict manner stands what keeps the form. -/
theorem writes_iff {m : Manner} (hf : m = .strict → KeepsForm kind cs) :
    Writes m kind cs z ↔ Writes .lenient kind cs z := by
  cases m with
  | lenient => rfl
  | strict =>
    rw [Writes.strict_iff]
    exact ⟨And.left, fun h => ⟨h, hf rfl⟩⟩

/-- The code of a character is no negative number. -/
theorem Writes.exists_nat {m : Manner} (hk : kind.isChar = true) (h : Writes m kind cs z) :
    ∃ n : Nat, (n : Int) = z := by
  cases h with
  | marked hm _ => cases hm <;> contradiction
  | unmarked _ hm _ => cases hm <;> contradiction
  | _ => exact ⟨_, rfl⟩

theorem constant_eq_ok_iff_of_mark (hk : Mark kind radix mark) {v : Value} :
    constant h ⟨kind, text, span⟩ = .ok v ↔
      ∃ i : Int64, v = .int i ∧ Writes .lenient kind (withoutUnderscores text) i.toInt := by
  rw [constant_of_mark hk]
  constructor
  · intro hv
    obtain ⟨i, hi, rfl⟩ := ok_of_map (ok_of_mapError hv)
    exact ⟨i, rfl, (integer_eq_ok_iff hk).mp hi⟩
  · rintro ⟨i, rfl, hw⟩
    rw [(integer_eq_ok_iff hk).mpr hw]
    rfl

theorem constant_eq_ok_iff_of_isChar (hk : kind.isChar = true) {v : Value} :
    constant h ⟨kind, text, span⟩ = .ok v ↔
      ∃ i : Int64, v = .int i ∧ Writes .lenient kind text.toList i.toInt ∧ i.toInt < 2 ^ 32 := by
  rw [constant_of_isChar hk]
  constructor
  · intro hv
    obtain ⟨n, hn, rfl⟩ := ok_of_map hv
    obtain ⟨hw, hlt⟩ := (charCode_eq_ok_iff hk).mp hn
    have hi : (Int64.ofNat n).toInt = n := Int64.toInt_ofNat_of_lt (by omega)
    exact ⟨_, rfl, hi ▸ hw, by omega⟩
  · rintro ⟨i, rfl, hw, hlt⟩
    obtain ⟨n, hn⟩ := hw.exists_nat hk
    have hi : Int64.ofNat n = i := by
      rw [← Int64.toInt_inj, Int64.toInt_ofNat_of_lt (by omega), hn]
    rw [(charCode_eq_ok_iff hk).mpr ⟨hn ▸ hw, by omega⟩, ← hi]
    rfl

theorem stringToken_eq_ok_iff (hk : kind.isChar = true) {s : String} :
    stringToken ⟨kind, text, span⟩ = .ok s ↔
      ∃ c : Char, s = String.ofList [c] ∧ Writes .lenient kind text.toList c.toNat := by
  rw [stringToken_of_isChar hk]
  constructor
  · intro hs
    obtain ⟨c, hc, rfl⟩ := ok_of_map hs
    exact ⟨c, rfl, (char_eq_ok_iff hk).mp hc⟩
  · rintro ⟨c, rfl, hw⟩
    rw [(char_eq_ok_iff hk).mpr hw]
    rfl

/-- **A text is read exactly if it is written in the lenient grammar**, which is the strict one for
texts that keep its form: integers from 64 bits, codes of characters from 32, and characters in
strings. -/
theorem read_iff_writes {m : Manner} (hf : m = .strict → KeepsForm kind (significant kind text))
    (span : Span) (h : Handle) :
    (∀ {radix mark}, Mark kind radix mark →
      (∀ i, integer kind text = .ok i ↔ Writes m kind (withoutUnderscores text) i.toInt) ∧
      (∀ v, constant h ⟨kind, text, span⟩ = .ok v ↔
        ∃ i : Int64, v = .int i ∧ Writes m kind (withoutUnderscores text) i.toInt) ∧
      ∀ s, stringToken ⟨kind, text, span⟩ ≠ .ok s) ∧
    (kind.isChar = true →
      (∀ v, constant h ⟨kind, text, span⟩ = .ok v ↔
        ∃ i : Int64, v = .int i ∧ Writes m kind text.toList i.toInt ∧ i.toInt < 2 ^ 32) ∧
      ∀ s, stringToken ⟨kind, text, span⟩ = .ok s ↔
        ∃ c : Char, s = String.ofList [c] ∧ Writes m kind text.toList c.toNat) := by
  constructor
  · intro radix mark hk
    rw [significant_of_mark hk] at hf
    simp only [writes_iff hf]
    refine ⟨fun _ => integer_eq_ok_iff hk, fun _ => constant_eq_ok_iff_of_mark hk, fun s hs => ?_⟩
    cases hk <;> contradiction
  · intro hk
    rw [significant_of_isChar hk] at hf
    simp only [writes_iff hf]
    exact ⟨fun _ => constant_eq_ok_iff_of_isChar hk, fun _ => stringToken_eq_ok_iff hk⟩

/-- A code of four digits keeps the form of its kind and is read by its grammar. -/
theorem read_iff_writes_four :
    KeepsForm .charUnicode4 (significant .charUnicode4 "\\u00e9") ∧
    (∃ i : Int64, i.toInt = 0xE9 ∧
      constant ⟨[]⟩ ⟨.charUnicode4, "\\u00e9", .dummy⟩ = .ok (.int i)) ∧
    stringToken ⟨.charUnicode4, "\\u00e9", .dummy⟩ = .ok "é" := by
  have hw : Writes .strict .charUnicode4 (['\\', 'u'] ++ "00e9".toList) 0xE9 :=
    .short ⟨(value?_eq_some_iff (by decide)).mp rfl, by decide⟩
  have hf : KeepsForm .charUnicode4 (significant .charUnicode4 "\\u00e9") := .of_strict hw
  obtain ⟨hconstant, hstring⟩ :=
    (read_iff_writes (fun _ : Manner.strict = .strict => hf) .dummy ⟨[]⟩).2 rfl
  exact ⟨hf, ⟨0xE9, rfl, (hconstant _).mpr ⟨0xE9, rfl, hw, by decide⟩⟩,
    (hstring _).mpr ⟨'é', rfl, hw⟩⟩

/-- What follows an escape of one character is not looked at, so a text is read that is none of its
kind. -/
theorem reads_trailing_text :
    constant ⟨[]⟩ ⟨.charOne, "\\nxyz", ⟨1, 6⟩⟩ = .ok (.int 10) ∧
    stringToken ⟨.charOne, "\\nxyz", ⟨1, 6⟩⟩ = .ok "\n" ∧
    ¬ ∃ z, Writes .strict .charOne "\\nxyz".toList z := by
  have hw : Writes .lenient .charOne (['\\'] ++ 'n' :: "xyz".toList) 10 :=
    @Writes.escape .lenient 'n' '\n' _ rfl trivial
  refine ⟨(constant_eq_ok_iff_of_isChar rfl).mpr ⟨10, rfl, hw, by decide⟩,
    (stringToken_eq_ok_iff rfl).mpr ⟨'\n', rfl, hw⟩, ?_⟩
  rintro ⟨z, hz⟩
  have hlength : "\\nxyz".toList.length = 2 := (KeepsForm.of_strict hz).length 2 rfl
  contradiction

end ShellExpr.Literal
