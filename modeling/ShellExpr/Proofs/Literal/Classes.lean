import ShellExpr.Proofs.Eggex.Canonical
import ShellExpr.Proofs.Eggex.Characters
import ShellExpr.Proofs.Literal.Decoding

/-!
# Characters of class literals

A token is decoded in two ways: to the text that it adds to a string, and to a term of a class
literal, which may be bytes or a code point and becomes characters once it is rendered.

* `ClassTerm.StandsFor`: a term is rendered to certain characters, each in its place.
* `classTerm?_agrees`: **a token stands for the same characters inside brackets and outside**, and
  one that has no text has no term that can be rendered.
-/

namespace ShellExpr

open Pattern

/-! ### Characters between brackets -/

namespace Pattern

/-- The union of single characters is that of no other characters, nor of the same in another
order. -/
theorem CharSet.unions_singles_inj {c d : Char} {cs ds : List Char}
    (h : unions ((c :: cs).map single) = unions ((d :: ds).map single)) : c :: cs = d :: ds := by
  induction cs generalizing c d ds with
  | nil =>
    cases ds with
    | nil => rw [single.inj h]
    | cons e ds => cases h
  | cons b cs ih =>
    cases ds with
    | nil => cases h
    | cons e ds =>
      obtain ⟨hc, hrest⟩ := union.inj h
      rw [single.inj hc, ih hrest]

namespace Brackets

/-- A text lists one sequence of characters only. -/
theorem Lists.literals_unique {body cs ds : List Char} (h : Lists body (cs.map literal))
    (h' : Lists body (ds.map literal)) : cs = ds := by
  -- after some character, so that neither list is empty
  have hread := (h.read [] ⟨false, [literal ' '], none⟩ [']'] (by simp) (by simp)).symm.trans
    (h'.read [] ⟨false, [literal ' '], none⟩ [']'] (by simp) (by simp))
  rw [readFrom?_of_done rfl, readFrom?_of_done rfl, foldl_add, foldl_add] at hread
  have hset := congrArg Term.set (Prod.mk.inj (Option.some.inj hread)).1
  have hlist := CharSet.fold.inj hset
  simp only [Open.content, list_set, List.reverse_append, List.reverse_reverse, List.map_append,
    List.map_map] at hlist
  exact (List.cons.inj (CharSet.unions_singles_inj (c := ' ') (d := ' ') hlist)).2

end Brackets

end Pattern

/-! ### Characters of bytes -/

namespace Bytes

theorem characters_encode (s : String) : characters (encode s) = s.toList := by
  rw [characters, decode?_encode]

theorem encode_eq_flatMap (s : String) : encode s = s.toList.flatMap String.utf8EncodeChar := by
  rw [encode, ← String.utf8Encode_toList, List.utf8Encode]
  simp

/-- A text of one byte is the character with that code. -/
theorem toList_of_encode {s : String} {b : UInt8} (h : encode s = [b]) :
    s.toList = [Char.ofNat b.toNat] := by
  rw [encode_eq_flatMap] at h
  cases hs : s.toList with
  | nil => simp [hs] at h
  | cons c cs =>
    rw [hs, List.flatMap_cons] at h
    have hlen := congrArg List.length h
    simp only [List.length_append, String.length_utf8EncodeChar, List.length_singleton] at hlen
    have hpos := c.utf8Size_pos
    have hsize : c.utf8Size = 1 := by omega
    have hle : c.toNat ≤ 127 := UInt32.le_iff_toNat_le.mp (Char.utf8Size_eq_one_iff.mp hsize)
    rw [String.utf8EncodeChar_eq_singleton hsize] at h
    obtain ⟨hb, hrest⟩ := List.cons.inj h
    have hc : b.toNat = c.toNat := by
      rw [← hb, UInt32.toNat_toUInt8]
      exact Nat.mod_eq_of_lt (by change c.toNat < _; omega)
    -- a second character would have bytes of its own
    cases cs with
    | nil => rw [hc, Char.ofNat_toNat]
    | cons d cs =>
      have := d.utf8Size_pos
      simp only [List.flatMap_cons, List.length_append, String.length_utf8EncodeChar] at hlen
      omega

/-- **A byte stands for the character with that code**, whether it is UTF-8 or not. -/
theorem characters_byte (b : UInt8) : characters [b] = [Char.ofNat b.toNat] := by
  rw [characters]
  cases hd : decode? [b] with
  | some s => exact toList_of_encode (ClassTerm.encode_of_decode? hd)
  | none => rfl

end Bytes

namespace ClassTerm

/-- The term is rendered to a text that stands for the characters, in this order, wherever it stands
between brackets. -/
def StandsFor (t : ClassTerm) (cs : List Char) : Prop :=
  ∃ body, t.render = .ok body ∧ Brackets.Lists body (cs.map Brackets.literal)

variable {t : ClassTerm} {cs ds : List Char}

theorem StandsFor.unique (h : t.StandsFor cs) (h' : t.StandsFor ds) : cs = ds := by
  obtain ⟨body, hr, hl⟩ := h
  obtain ⟨body', hr', hl'⟩ := h'
  obtain rfl := Except.ok.inj (hr.symm.trans hr')
  exact hl.literals_unique hl'

theorem standsFor_bytes (bs : List UInt8) (span : Span) :
    (bytes bs span).StandsFor (Bytes.characters bs) :=
  ⟨_, rfl, lists_chars _⟩

theorem standsFor_codePoint (c : Char) (span : Span) : (codePoint c.toNat span).StandsFor [c] :=
  ⟨_, by rw [render, Bytes.scalar?_eq_some_iff.mpr rfl], lists_renderChar c⟩

theorem render_of_scalar?_none {n : Nat} (h : Bytes.scalar? n = none) (span : Span) :
    ∃ f, (codePoint n span).render = .error f :=
  ⟨_, by rw [render, h]⟩

theorem standsFor_byte {c : Char} (h : c.toNat < 256) (span : Span) :
    (bytes [UInt8.ofNat c.toNat] span).StandsFor [c] := by
  have hstands := standsFor_bytes [UInt8.ofNat c.toNat] span
  rwa [Bytes.characters_byte, UInt8.toNat_ofNat_of_lt' h, Char.ofNat_toNat] at hstands

end ClassTerm

/-! ### Tokens -/

/-- The tokens that spell characters, by what their terms are made of: a text, a byte or a code. -/
theorem Token.Spells.cases {tok : Token} (hs : tok.Spells) :
    (tok.kind = .charOne ∨ tok.kind = .charPound ∨ tok.kind = .name ∨ tok.kind = .literal) ∨
    tok.kind = .charHex ∨
    (tok.kind = .charUnicode4 ∨ tok.kind = .charUnicode8 ∨ tok.kind = .charBraced) := by
  rcases hs with hk | hk | hk
  · cases h : tok.kind <;> simp_all [TokenKind.isChar]
  · simp [hk]
  · simp [hk]

namespace Literal

variable {tok : Token} {s : String} {e : EvalError} {n : Nat}

theorem classTerm?_of_text (hk : tok.kind = .charOne ∨ tok.kind = .charPound ∨
    tok.kind = .name ∨ tok.kind = .literal) :
    classTerm? tok = (stringToken tok).map fun s => some (.bytes (Bytes.encode s) tok.span) := by
  obtain ⟨kind, text, span⟩ := tok
  rcases hk with rfl | rfl | rfl | rfl <;> rfl

theorem classTerm?_of_byte (hk : tok.kind = .charHex) :
    classTerm? tok = (charCode tok).bind fun n =>
      if n < 256 then .ok (some (.bytes [UInt8.ofNat n] tok.span)) else .error (badChar tok) := by
  obtain ⟨kind, text, span⟩ := tok
  obtain rfl : kind = .charHex := hk
  rfl

theorem classTerm?_of_code (hk : tok.kind = .charUnicode4 ∨ tok.kind = .charUnicode8 ∨
    tok.kind = .charBraced) :
    classTerm? tok = (charCode tok).map fun n => some (.codePoint n tok.span) := by
  obtain ⟨kind, text, span⟩ := tok
  rcases hk with rfl | rfl | rfl <;> rfl

theorem isChar_of_code (hk : tok.kind = .charUnicode4 ∨ tok.kind = .charUnicode8 ∨
    tok.kind = .charBraced) : tok.kind.isChar = true := by
  rcases hk with hk | hk | hk <;> rw [hk] <;> rfl

/-- An escape has the text of one character, that of its code. -/
theorem exists_code (hk : tok.kind.isChar = true) (h : stringToken tok = .ok s) :
    ∃ c, s.toList = [c] ∧ charCode tok = .ok c.toNat := by
  obtain ⟨kind, text, span⟩ := tok
  rw [stringToken_of_isChar hk] at h
  obtain ⟨c, hc, rfl⟩ := ok_of_map h
  exact ⟨c, String.toList_ofList, char_eq_ok_iff_charCode.mp hc⟩

/-- An escape without a text has no code, or that of no character. -/
theorem charCode_of_error (hk : tok.kind.isChar = true) (h : stringToken tok = .error e) :
    e = badChar tok ∧
      (charCode tok = .error e ∨ ∃ n, charCode tok = .ok n ∧ Bytes.scalar? n = none) := by
  refine ⟨eq_badChar_of_stringToken hk h, ?_⟩
  obtain ⟨kind, text, span⟩ := tok
  rw [stringToken_of_isChar hk] at h
  rcases error_of_bind (error_of_map h) with h | ⟨n, hn, h⟩
  · exact .inl h
  · refine .inr ⟨n, hn, ?_⟩
    split at h
    · contradiction
    · assumption

/-- The term of a token with a text stands for that text. -/
theorem exists_classTerm? (hs : tok.Spells)
    (hx : tok.kind = .charHex → ∀ n, charCode tok = .ok n → n ≤ 0xFF)
    (h : stringToken tok = .ok s) :
    ∃ t, classTerm? tok = .ok (some t) ∧ t.StandsFor s.toList := by
  rcases hs.cases with hk | hk | hk
  · -- the bytes of the text are read as that text
    rw [classTerm?_of_text hk, h, ← Bytes.characters_encode]
    exact ⟨_, rfl, ClassTerm.standsFor_bytes _ _⟩
  · -- a byte is read as the character of its code, also where it is no UTF-8
    obtain ⟨c, hc, hcode⟩ := exists_code (by rw [hk]; rfl) h
    have hlt : c.toNat < 256 := Nat.lt_succ_of_le (hx hk _ hcode)
    rw [classTerm?_of_byte hk, hcode, hc]
    exact ⟨_, if_pos hlt, ClassTerm.standsFor_byte hlt _⟩
  · obtain ⟨c, hc, hcode⟩ := exists_code (isChar_of_code hk) h
    rw [classTerm?_of_code hk, hcode, hc]
    exact ⟨_, rfl, ClassTerm.standsFor_codePoint c _⟩

/-- A token without a text has no term, or one that cannot be rendered. -/
theorem classTerm?_of_error (hs : tok.Spells) (h : stringToken tok = .error e) :
    classTerm? tok = .error e ∨
      ∃ t f, classTerm? tok = .ok (some t) ∧ t.render = .error f := by
  rcases hs.cases with hk | hk | hk
  · rw [classTerm?_of_text hk, h]
    exact .inl rfl
  · rw [classTerm?_of_byte hk]
    obtain ⟨rfl, herr | ⟨n, hn, hnone⟩⟩ := charCode_of_error (by rw [hk]; rfl) h
    · rw [herr]
      exact .inl rfl
    · rw [hn]
      refine .inl (if_neg fun hlt => ?_)
      -- all bytes are code points, so the code is too large to be a byte
      have : Bytes.scalar? n = some (Char.ofNat n) := if_pos (.inl (by omega))
      simp [this] at hnone
  · rw [classTerm?_of_code hk]
    obtain ⟨rfl, herr | ⟨n, hn, hnone⟩⟩ := charCode_of_error (isChar_of_code hk) h
    · rw [herr]
      exact .inl rfl
    · -- the term keeps the code, and only its rendering fails
      obtain ⟨f, hf⟩ := ClassTerm.render_of_scalar?_none hnone tok.span
      rw [hn]
      exact .inr ⟨_, f, rfl, hf⟩

/-- **A token stands for the same characters inside brackets and outside.** If it has a text, then it
has a term, which stands for the characters of the text and no others, in the same order. If it has
none, then it has no term for the same reason, or the term has no rendering. An escape of a byte is
one of a code up to 255. -/
theorem classTerm?_agrees (hs : tok.Spells)
    (hx : tok.kind = .charHex → ∀ n, charCode tok = .ok n → n ≤ 0xFF) :
    (∀ s, stringToken tok = .ok s →
      ∃ t, classTerm? tok = .ok (some t) ∧ ∀ cs, t.StandsFor cs ↔ cs = s.toList) ∧
    (∀ e, stringToken tok = .error e → classTerm? tok = .error e ∨
      ∃ t f, classTerm? tok = .ok (some t) ∧ t.render = .error f) := by
  refine ⟨fun s h => ?_, fun e h => classTerm?_of_error hs h⟩
  obtain ⟨t, ht, hstands⟩ := exists_classTerm? hs hx h
  refine ⟨t, ht, fun cs => ⟨fun h' => h'.unique hstands, ?_⟩⟩
  rintro rfl
  exact hstands

/-- A byte that is no text of its own, and a surrogate. -/
theorem classTerm?_agrees_byte_surrogate :
    stringToken ⟨.charHex, "\\xe9", .dummy⟩ = .ok "é" ∧
      (∃ t, classTerm? ⟨.charHex, "\\xe9", .dummy⟩ = .ok (some t) ∧
        ∀ cs, t.StandsFor cs ↔ cs = ['é']) ∧
      ∃ t f, classTerm? ⟨.charUnicode4, "\\ud800", .dummy⟩ = .ok (some t) ∧ t.render = .error f := by
  have hbyte : Token.Spells ⟨.charHex, "\\xe9", .dummy⟩ := .inl rfl
  have hsurrogate : Token.Spells ⟨.charUnicode4, "\\ud800", .dummy⟩ := .inl rfl
  have hcode : charCode ⟨.charHex, "\\xe9", .dummy⟩ = .ok 0xE9 := rfl
  have htext : stringToken ⟨.charHex, "\\xe9", .dummy⟩ = .ok "é" := rfl
  have herr : stringToken ⟨.charUnicode4, "\\ud800", .dummy⟩ =
    .error (badChar ⟨.charUnicode4, "\\ud800", .dummy⟩) := rfl
  have hagree := classTerm?_agrees hbyte fun _ n hn => by
    obtain rfl : 0xE9 = n := Except.ok.inj (hcode.symm.trans hn)
    decide
  have hfail := (classTerm?_agrees hsurrogate nofun).2 _ herr
  exact ⟨htext, hagree.1 "é" htext, hfail.resolve_left nofun⟩

end Literal

end ShellExpr
