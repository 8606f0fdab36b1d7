import ShellExpr.Eggex.Compile
import ShellExpr.Proofs.Basics

/-!
# Compiled trees

Compilation leaves nothing to evaluate. What it gives is canonical, if the trees it splices are and
the tokens in character classes spell characters; a token that spells none stays as it is.

* `Eggex.Spelled`: all tokens in the character classes of a tree spell characters.
* `Eggex.isCanonical_of_compile`: **a compiled tree is canonical**.
* `Eggex.compileAsserting_eq_ok_iff`, `Eggex.compileAsserting_eq_error_iff`: what becomes of it under
  the assertion that it is.
-/

namespace ShellExpr

/-- Whether a token in a character class spells a character. -/
def Token.Spells (tok : Token) : Prop :=
  tok.kind.isChar ∨ tok.kind = .name ∨ tok.kind = .literal

instance (tok : Token) : Decidable tok.Spells := inferInstanceAs (Decidable (_ ∨ _))

/-- Whether the variables that hold eggexes hold canonical ones. -/
def EggexScope.Canonical (scope : EggexScope) : Prop :=
  ∀ name v e, scope.lookup name = some v → v.eggex? = some e → e.tree.isCanonical

/-! ### Character classes -/

namespace ClassTerm

/-- The token that a term is, if it is one. -/
def token? : ClassTerm → Option Token
  | charLiteral tok => some tok
  | _ => none

/-- A token that spells a character is compiled. -/
theorem isCanonical_of_classTerm? {tok : Token} {r : Option ClassTerm}
    (h : Literal.classTerm? tok = .ok r) (hs : tok.Spells) : ∃ t, r = some t ∧ t.isCanonical := by
  unfold Literal.classTerm? at h
  split at h
  · obtain ⟨s, -, rfl⟩ := ok_of_map h
    exact ⟨_, rfl, rfl⟩
  · obtain ⟨s, -, rfl⟩ := ok_of_map h
    exact ⟨_, rfl, rfl⟩
  · obtain ⟨code, -, h⟩ := ok_of_bind h
    split at h
    · obtain rfl := Except.ok.inj h
      exact ⟨_, rfl, rfl⟩
    · contradiction
  · obtain ⟨n, -, rfl⟩ := ok_of_map h
    exact ⟨_, rfl, rfl⟩
  · obtain ⟨n, -, rfl⟩ := ok_of_map h
    exact ⟨_, rfl, rfl⟩
  · obtain ⟨n, -, rfl⟩ := ok_of_map h
    exact ⟨_, rfl, rfl⟩
  · obtain rfl := Except.ok.inj h
    exact ⟨_, rfl, rfl⟩
  · obtain rfl := Except.ok.inj h
    exact ⟨_, rfl, rfl⟩
  · -- no other kind spells a character
    exfalso
    rcases hs with hk | hk | hk
    · unfold TokenKind.isChar at hk
      split at hk <;> simp_all
    · simp_all
    · simp_all

theorem isCanonical_of_compile {words : Words} {t u : ClassTerm} (h : t.compile words = .ok u)
    (hs : ∀ tok, t.token? = some tok → tok.Spells) : u.isCanonical := by
  cases t with
  | word w =>
    obtain ⟨s, -, h⟩ := ok_of_bind h
    unfold ofString at h
    split at h
    · contradiction
    · exact Except.ok.inj h ▸ rfl
  | charLiteral tok =>
    obtain ⟨r, hr, h⟩ := ok_of_bind h
    obtain ⟨t, rfl, ht⟩ := isCanonical_of_classTerm? hr (hs tok rfl)
    exact Except.ok.inj h ▸ ht
  | _ => exact Except.ok.inj h ▸ rfl

theorem isCanonical_of_compileAll {words : Words} {ts us : List ClassTerm}
    (h : compileAll words ts = .ok us) (hs : ∀ tok ∈ ts.filterMap token?, tok.Spells) :
    us.all isCanonical := by
  induction ts generalizing us with
  | nil => exact Except.ok.inj h ▸ rfl
  | cons t rest ih =>
    obtain ⟨u, hu, h⟩ := ok_of_bind h
    obtain ⟨us, hus, h⟩ := ok_of_bind h
    obtain rfl := Except.ok.inj h
    have ht : u.isCanonical := by
      refine isCanonical_of_compile hu fun tok htok => hs tok ?_
      rw [List.filterMap_cons_some htok]
      exact List.mem_cons_self
    have hrest : us.all isCanonical := by
      refine ih hus fun tok htok => hs tok ?_
      rw [List.filterMap_cons]
      split
      · exact htok
      · exact List.mem_cons_of_mem _ htok
    rw [List.all_cons, ht, hrest]
    rfl

end ClassTerm

/-! ### Trees -/

namespace Eggex

mutual

/-- The tokens that are terms of the character classes of a tree. -/
def classTokens : Eggex → List Token
  | seq items => classTokensAll items
  | alt items => classTokensAll items
  | rep child _ => child.classTokens
  | group child => child.classTokens
  | capture child _ => child.classTokens
  | charClass _ terms => terms.filterMap ClassTerm.token?
  | _ => []

/-- The same for several trees. -/
def classTokensAll : List Eggex → List Token
  | [] => []
  | e :: rest => e.classTokens ++ classTokensAll rest

end

/-- Whether all tokens in the character classes of the tree spell characters. -/
def Spelled (t : Eggex) : Prop := ∀ tok ∈ t.classTokens, tok.Spells

instance (t : Eggex) : Decidable t.Spelled :=
  inferInstanceAs (Decidable (∀ tok ∈ t.classTokens, tok.Spells))

theorem isCanonical_of_compileToken {tok : Token} {u : Eggex} (h : compileToken tok = .ok u) :
    u.isCanonical := by
  unfold compileToken at h
  split at h
  · split at h
    · exact Except.ok.inj h ▸ rfl
    · contradiction
  · split at h
    · exact Except.ok.inj h ▸ rfl
    split at h
    · exact Except.ok.inj h ▸ rfl
    · contradiction
  · split at h
    · obtain ⟨s, -, rfl⟩ := ok_of_map h
      rfl
    · contradiction

/-- A splice is copied as it is, so it relies on what the variable holds. -/
theorem isCanonical_of_compileSplice {scope : EggexScope} (hc : scope.Canonical) {name : Token}
    {u : Eggex} (h : compileSplice scope name = .ok u) : u.isCanonical := by
  obtain ⟨v, hv, h⟩ := ok_of_bind h
  unfold EggexScope.valueOf at hv
  split at hv
  · rename_i v' hl
    obtain rfl := Except.ok.inj hv
    split at h
    · rename_i e he
      exact Except.ok.inj h ▸ hc _ _ e hl he
    · contradiction
  · contradiction

mutual

/-- **A compiled tree is canonical.** -/
theorem isCanonical_of_compile {scope : EggexScope} (hc : scope.Canonical) : (t : Eggex) →
    (u : Eggex) → t.compile scope = .ok u → t.Spelled → u.isCanonical
  | speck .dot span, u, h, _ => Except.ok.inj h ▸ rfl
  | speck .caret span, u, h, _ => Except.ok.inj h ▸ rfl
  | speck .dollar span, u, h, _ => Except.ok.inj h ▸ rfl
  | token tok, u, h, _ => isCanonical_of_compileToken h
  | word w, u, h, _ => by
    obtain ⟨s, -, rfl⟩ := ok_of_map h
    rfl
  | splice name, u, h, _ => isCanonical_of_compileSplice hc h
  | seq items, u, h, hs => by
    obtain ⟨us, hus, rfl⟩ := ok_of_map h
    exact allCanonical_of_compileAll hc items us hus hs
  | alt items, u, h, hs => by
    obtain ⟨us, hus, rfl⟩ := ok_of_map h
    exact allCanonical_of_compileAll hc items us hus hs
  | rep child count, u, h, hs => by
    obtain ⟨c, hchild, rfl⟩ := ok_of_map h
    exact isCanonical_of_compile hc child c hchild hs
  | group child, u, h, hs => by
    obtain ⟨c, hchild, rfl⟩ := ok_of_map h
    exact isCanonical_of_compile hc child c hchild hs
  | capture child name, u, h, hs => by
    obtain ⟨c, hchild, rfl⟩ := ok_of_map h
    exact isCanonical_of_compile hc child c hchild hs
  | charClass negated terms, u, h, hs => by
    obtain ⟨ts, hts, rfl⟩ := ok_of_map h
    exact ClassTerm.isCanonical_of_compileAll hts hs
  | posix negated name, u, h, _ => Except.ok.inj h ▸ rfl
  | perl negated name, u, h, _ => Except.ok.inj h ▸ rfl
  | primitive id span, u, h, _ => Except.ok.inj h ▸ rfl
  | literal text span, u, h, _ => Except.ok.inj h ▸ rfl

/-- The same for several trees. -/
theorem allCanonical_of_compileAll {scope : EggexScope} (hc : scope.Canonical) :
    (ts : List Eggex) → (us : List Eggex) → compileAll scope ts = .ok us →
    (∀ tok ∈ classTokensAll ts, tok.Spells) → allCanonical us
  | [], us, h, _ => Except.ok.inj h ▸ rfl
  | t :: rest, us, h, hs => by
    obtain ⟨u, hu, h⟩ := ok_of_bind h
    obtain ⟨us', hus, h⟩ := ok_of_bind h
    obtain rfl := Except.ok.inj h
    have ht : u.isCanonical := isCanonical_of_compile hc t u hu fun tok htok =>
      hs tok (List.mem_append_left _ htok)
    have hrest : allCanonical us' := allCanonical_of_compileAll hc rest us' hus fun tok htok =>
      hs tok (List.mem_append_right _ htok)
    rw [allCanonical, ht, hrest]
    rfl

end

/-! ### The assertion -/

section Assertion

variable {debug : Bool} {scope : EggexScope} {t c : Eggex} {e : EvalError}

theorem asserted_eq_error_iff : asserted debug t = .error e ↔
    debug = true ∧ t.isCanonical = false ∧ e = leftUncompiled := by
  unfold asserted
  split_ifs with h
  · rw [Bool.and_eq_true, Bool.not_eq_true'] at h
    rw [Except.error.injEq, eq_comm]
    exact ⟨fun he => ⟨h.1, h.2, he⟩, fun he => he.2.2⟩
  · constructor
    · intro he
      contradiction
    · rintro ⟨hdebug, hc, -⟩
      exact absurd (by rw [hdebug, hc]; rfl) h

theorem asserted_eq_ok_iff :
    asserted debug t = .ok c ↔ t = c ∧ (debug = true → c.isCanonical = true) := by
  unfold asserted
  split_ifs with h
  · rw [Bool.and_eq_true, Bool.not_eq_true'] at h
    constructor
    · intro hok
      contradiction
    · rintro ⟨rfl, hc⟩
      exact absurd (hc h.1) (Bool.eq_false_iff.mp h.2)
  · constructor
    · intro hok
      obtain rfl := Except.ok.inj hok
      refine ⟨rfl, fun hdebug => ?_⟩
      by_contra hc
      exact h (by rw [hdebug, Bool.eq_false_iff.mpr hc]; rfl)
    · rintro ⟨rfl, -⟩
      rfl

theorem compileAsserting_eq_ok_iff : t.compileAsserting debug scope = .ok c ↔
    t.compile scope = .ok c ∧ (debug = true → c.isCanonical = true) := by
  unfold compileAsserting
  cases t.compile scope with
  | error e => simp [Bind.bind, Except.bind]
  | ok d =>
    show asserted debug d = .ok c ↔ _
    rw [asserted_eq_ok_iff, Except.ok.injEq]

/-- A compilation fails, or it panics over the tree that it gives. -/
theorem compileAsserting_eq_error_iff : t.compileAsserting debug scope = .error e ↔
    t.compile scope = .error e ∨
      debug = true ∧ e = leftUncompiled ∧ ∃ c, t.compile scope = .ok c ∧ c.isCanonical = false := by
  unfold compileAsserting
  cases t.compile scope with
  | error e => simp [Bind.bind, Except.bind]
  | ok d =>
    show asserted debug d = .error e ↔ _
    rw [asserted_eq_error_iff]
    simp [and_comm]

end Assertion

end Eggex

end ShellExpr
