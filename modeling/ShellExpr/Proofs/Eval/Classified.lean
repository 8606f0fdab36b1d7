import ShellExpr.Proofs.Eggex.Leaves
import ShellExpr.Proofs.Eval.Errors
import ShellExpr.Proofs.Eval.Sessions
import ShellExpr.Proofs.Literal.Decoding
import ShellExpr.Proofs.Syntax.Spans

/-!
# Raw faults and the calls of the evaluator

Operators, access, literals and the host report raw faults; the calls of the evaluator turn them
into errors of the expression. All do but the one that compiles an eggex, which lets the raw faults
of character tokens and of words through. The text of an error is always that of its fault, unless
the host has reported another one.

* `EvalError.Coherent`, `EvalError.IsAt`: errors with the text of their fault, and with its place.
* `Eval.failsIn_link` and its like: the errors of single steps.
* `Expr.Raises.origin`: where the errors of a node come from.
* `Eggex.failsEggex_of_compile`: the errors of compilation.
* `Host.Fails`: the errors that the host reports itself.
* `Call.error_run`: **the errors of the calls**.
-/

namespace ShellExpr

theorem Fault.isRaw_classify (f : Fault) : f.classify.isRaw = false := by
  cases f <;> rfl

namespace EvalError

variable {e : EvalError} {span : Span}

/-- Whether the text of an error is that of its fault. -/
def Coherent (e : EvalError) : Prop := e.message = e.fault.text

/-- The errors of a fault at a place or at none. -/
inductive IsAt (span : Span) : EvalError → Prop
  | placed (f : Fault) : IsAt span (f.placed span)
  | unplaced (f : Fault) : IsAt span f.unplaced

theorem isAt_near (f : Fault) (span : Span) : (f.near span).IsAt span := by
  unfold Fault.near orSpan
  split
  · exact .placed f
  · exact .unplaced f

theorem IsAt.coherent (h : e.IsAt span) : e.Coherent := by
  cases h <;> rfl

theorem Coherent.classify (h : e.Coherent) : e.classify.Coherent := by
  unfold EvalError.classify
  split
  · rfl
  · exact h

theorem isRaw_classify (e : EvalError) : e.classify.fault.isRaw = false := by
  by_cases hr : e.fault.isRaw = true
  · rw [EvalError.classify, if_pos hr]
    exact e.fault.isRaw_classify
  · rw [EvalError.classify, if_neg hr]
    exact Bool.eq_false_iff.mpr hr

/-- Reclassification changes raw faults and nothing else. -/
theorem classify_eq_self_iff (e : EvalError) : e.classify = e ↔ e.fault.isRaw = false := by
  constructor
  · intro h
    rw [← h]
    exact e.isRaw_classify
  · intro h
    rw [EvalError.classify, if_neg (Bool.eq_false_iff.mp h)]

theorem span_classify (e : EvalError) : e.classify.span = e.span := by
  unfold EvalError.classify
  split <;> rfl

/-- The error without its place in the source. -/
def withoutSpan (e : EvalError) : EvalError := { e with span := none }

theorem withoutSpan_classify (e : EvalError) :
    e.classify.withoutSpan = e.withoutSpan.classify := by
  unfold classify withoutSpan
  split <;> rfl

end EvalError

open EvalError Eval

/-! ### Literals -/

namespace Literal

variable {tok : Token} {e : EvalError}

theorem isAt_of_stringToken (h : stringToken tok = .error e) : e.IsAt tok.span := by
  rcases error_of_stringToken h with rfl | ⟨feature, rfl⟩
  · exact .placed _
  · exact .unplaced _

theorem isAt_of_constant {h : Handle} (hv : constant h tok = .error e) : e.IsAt tok.span := by
  have hnumber : ∀ {α : Type} {r : Except Fault α} {f : α → Value},
      (r.map f).mapError Fault.unplaced = .error e → e.IsAt tok.span := by
    intro α r f hr
    cases r with
    | error g => exact Except.error.inj hr ▸ .unplaced g
    | ok a => contradiction
  unfold constant at hv
  split at hv
  · exact hnumber hv
  · exact hnumber hv
  · exact hnumber hv
  · exact hnumber hv
  · exact hnumber hv
  · contradiction
  · contradiction
  · contradiction
  · contradiction
  · exact Except.error.inj hv ▸ .unplaced _
  · exact Except.error.inj hv ▸ .unplaced _
  · exact eq_badChar_of_charCode (error_of_map hv) ▸ .placed _

end Literal

/-! ### Hosts -/

/-- The errors that the evaluation of words reports. -/
inductive Words.Fails (words : Words) : EvalError → Prop
  | doubleQuoted {w : DoubleQuoted} {e : EvalError} (h : words.doubleQuoted w = .error e) :
      Fails words e
  | braced {s : BracedVarSub} {e : EvalError} (h : words.braced s = .error e) : Fails words e
  | simple {s : SimpleVarSub} {e : EvalError} (h : words.simple s = .error e) : Fails words e
  | sequence {ws : List CompoundWord} {e : EvalError} (h : words.sequence ws = .error e) :
      Fails words e

/-- The errors that a host reports. -/
inductive Host.Fails (host : Host) : EvalError → Prop
  | words {e : EvalError} (h : host.words.Fails e) : Fails host e
  | run {sub : CommandSub} {flags : Flags} {e : EvalError} (h : host.run sub flags = .error e) :
      Fails host e
  | call {h : Handle} {name : String} {args : Arguments} {e : EvalError}
      (hv : host.call h name args = .error e) : Fails host e

/-- The errors that the executor of commands and the callables report. -/
inductive Host.Reports (host : Host) : EvalError → Prop
  | run {sub : CommandSub} {flags : Flags} {e : EvalError} (h : host.run sub flags = .error e) :
      Reports host e
  | call {h : Handle} {name : String} {args : Arguments} {e : EvalError}
      (hv : host.call h name args = .error e) : Reports host e

theorem Host.Reports.fails {host : Host} {e : EvalError} (h : host.Reports e) : host.Fails e := by
  cases h with
  | run h => exact .run h
  | call hv => exact .call hv

theorem Words.error_of_string {words : Words} {w : StringWord} {e : EvalError}
    (h : words.string w = .error e) :
    (∃ tok, Literal.stringToken tok = .error e) ∨ words.Fails e := by
  cases w with
  | single w =>
    obtain ⟨tok, -, h⟩ := Literal.error_of_singleQuoted h
    exact .inl ⟨tok, h⟩
  | double w => exact .inr (.doubleQuoted h)
  | braced s => exact .inr (.braced h)
  | simple s => exact .inr (.simple h)

/-! ### Single steps -/

namespace Eval

theorem failsIn_globMatch (op : CompareOp) (opSpan : Span) (left right : Value) :
    FailsIn (IsAt opSpan) (globMatch op opSpan left right) := by
  unfold globMatch
  split
  · exact failsIn_pure _
  · exact failsIn_fail (isAt_near _ _)

theorem failsIn_patternOf (opSpan : Span) (right : Value) :
    FailsIn (IsAt opSpan) (patternOf opSpan right) := by
  unfold patternOf
  split
  · exact failsIn_pure _
  · split
    · exact failsIn_pure _
    · exact failsIn_fail (.unplaced _)
  · exact failsIn_fail (.placed _)

theorem failsIn_regexMatch (keepGroups : Bool) (opSpan : Span) (left right : Value) :
    FailsIn (IsAt opSpan) (regexMatch keepGroups opSpan left right) := by
  unfold regexMatch
  refine (failsIn_patternOf opSpan right).bind fun pattern => ?_
  split
  · split
    · exact failsIn_fail (.placed _)
    · split
      · exact (failsIn_setGroups _).bind fun _ => failsIn_pure _
      · exact failsIn_pure _
    · split
      · exact (failsIn_setGroups _).bind fun _ => failsIn_pure _
      · exact failsIn_pure _
  · exact failsIn_fail (isAt_near _ _)

theorem failsIn_near {α : Type} (span : Span) (r : Except Fault α) :
    FailsIn (IsAt span) (ofFault span r) := failsIn_ofFault fun f _ => isAt_near f span

theorem failsIn_link (op : CompareOp) (opSpan : Span) (left right : Value) :
    FailsIn (IsAt opSpan) (link op opSpan left right) := by
  unfold link
  split
  · exact (failsIn_globMatch _ _ _ _).bind fun _ => failsIn_pure _
  · exact (failsIn_globMatch _ _ _ _).bind fun _ => failsIn_pure _
  · exact (failsIn_near _ _).bind fun _ => failsIn_pure _
  · exact (failsIn_regexMatch _ _ _ _).bind fun _ => failsIn_pure _
  · exact (failsIn_regexMatch _ _ _ _).bind fun _ => failsIn_pure _
  · exact (failsIn_near _ _).bind fun _ => failsIn_pure _

theorem failsIn_rangeOf (lower upper : Value) (span : Span) :
    FailsIn (IsAt span) (rangeOf lower upper span) := by
  unfold rangeOf
  split
  · exact failsIn_pure _
  · exact failsIn_fail (isAt_near _ _)

theorem failsIn_sliceBound (span : Span) (v : Value) : FailsIn (IsAt span) (sliceBound span v) := by
  unfold sliceBound
  split
  · exact failsIn_pure _
  · exact failsIn_pure _
  · exact failsIn_fail (isAt_near _ _)

theorem failsIn_keyOf (key : Value) (span : Span) : FailsIn (IsAt span) (keyOf key span) := by
  unfold keyOf
  split
  · exact failsIn_pure _
  · exact failsIn_fail (isAt_near _ _)

theorem failsIn_implicitValue (key : Value) (span : Span) :
    FailsIn (IsAt span) (implicitValue key span) := by
  unfold implicitValue
  split
  · exact failsIn_lookup (.placed _)
  · exact failsIn_fail (isAt_near _ _)

/-- A member by name fails at the name, an entry and the reserved form at the operator. -/
theorem failsIn_memberOf (op : AttrOp) (opSpan : Span) (attr : Token) (obj : Value) :
    FailsIn (fun e => e.IsAt attr.span ∨ e.IsAt opSpan) (memberOf op opSpan attr obj) := by
  cases op with
  | dot => exact failsIn_ofFault fun f _ => .inl (isAt_near f _)
  | arrow => exact failsIn_fresh.bind fun h => failsIn_ofFault fun f _ => .inr (isAt_near f _)
  | doubleColon => exact failsIn_fail (.inr (.placed _))

theorem failsIn_sumOf (name : Token) (v : Value) : FailsIn (IsAt name.span) (sumOf name v) := by
  unfold sumOf
  refine (failsIn_lookup (.placed _)).bind fun current => ?_
  split
  · exact failsIn_fresh.bind fun h => failsIn_near _ _
  · exact failsIn_fresh.bind fun h => failsIn_near _ _
  · exact failsIn_fail (.placed _)

end Eval

/-! ### Nodes -/

namespace Expr

variable {host : Host} {n : Expr} {e : EvalError}

/-- Where an error of a node comes from: a place of its own or that of what it calls, the executor
of commands or a callable, and otherwise the words or the eggex written in it. -/
inductive Origin (host : Host) : Expr → EvalError → Prop
  | here {n : Expr} {span : Span} {e : EvalError} (h : e.IsAt span) (hs : span ∈ n.spansHere) :
      Origin host n e
  | called {func : Expr} {positional : List Expr} {named : List (Option Token × Expr)} {span : Span}
      {e : EvalError} (h : e.IsAt func.span) : Origin host (call func positional named span) e
  | reported {n : Expr} {e : EvalError} (h : host.Reports e) : Origin host n e
  | array {words : List CompoundWord} {span : Span} {e : EvalError}
      (h : host.words.sequence words = .error e) : Origin host (array words span) e
  | word {w : StringWord} {span : Span} {e : EvalError} (h : host.words.string w = .error e) :
      Origin host (word w span) e
  | eggex {tree : Eggex} {flags : List Token} {span : Span} {e : EvalError}
      (h : (compileEggex host tree).Raises e) : Origin host (eggex tree flags span) e

/-- An error at the place of the node itself. -/
theorem Origin.own (h : e.IsAt n.span) : n.Origin host e := .here h List.mem_cons_self

/-- **Every error of a node has an origin.** -/
theorem Raises.origin (h : n.Raises host e) : n.Origin host e := by
  cases h with
  | tooDeep _ => exact .own (.placed _)
  | const hv => exact .here (Literal.isAt_of_constant hv) (by simp [spansHere])
  | var => exact .here (.placed _) (by simp [spansHere])
  | commandSub h => exact .reported (.run h)
  | array h => exact .array h
  | word h => exact .word h
  | unary _ => exact .here (isAt_near _ _) (by simp [spansHere])
  | binary _ => exact .here (isAt_near _ _) (by simp [spansHere])
  | range h => exact .own (failsIn_rangeOf _ _ _ _ h)
  | link hmem h =>
    refine .here (failsIn_link _ _ _ _ _ h) (List.mem_cons_of_mem _ ?_)
    exact List.mem_map.mpr ⟨_, hmem, rfl⟩
  | implicit => exact .own (.placed _)
  | reserved => exact .own (.placed _)
  | notCallable => exact .called (.placed _)
  | callee hv => exact .reported (.call hv)
  -- a subscript has no place of its own to name
  | subscript _ => exact .own (.unplaced _)
  | member h =>
    rcases failsIn_memberOf _ _ _ _ _ h with h | h
    · exact .here h (by simp [spansHere])
    · exact .here h (by simp [spansHere])
  | eggex h => exact .eggex h
  | spread => exact .own (.placed _)
  | bound h => exact .own (failsIn_sliceBound _ _ _ h)
  | key h => exact .own (failsIn_keyOf _ _ _ h)
  | leftOut h => exact .own (failsIn_implicitValue _ _ _ h)
  | items _ => exact .own (isAt_near _ _)
  | entries _ => exact .own (isAt_near _ _)

end Expr

/-! ### Compilation of eggexes -/

/-- Whether an error is not raw, is no panic and has the text of its fault. -/
structure EvalError.IsSettled (e : EvalError) : Prop where
  coherent : e.Coherent
  notRaw : e.fault.isRaw = false
  notPanic : e.fault.isPanic = false

/-- The errors that compiling an eggex may end with. -/
inductive Words.FailsEggex (words : Words) : EvalError → Prop
  | badChar (tok : Token) : FailsEggex words (Literal.badChar tok)
  | settled {e : EvalError} (h : e.IsSettled) : FailsEggex words e
  | words {e : EvalError} (h : words.Fails e) : FailsEggex words e

namespace Words.FailsEggex

variable {words : Words} {e : EvalError}

theorem of_string {w : StringWord} (h : words.string w = .error e) : words.FailsEggex e := by
  rcases Words.error_of_string h with ⟨tok, h⟩ | h
  · rcases Literal.error_of_stringToken h with rfl | ⟨feature, rfl⟩
    · exact .badChar tok
    · exact .settled ⟨rfl, rfl, rfl⟩
  · exact .words h

theorem of_compileTerm {t : ClassTerm} (h : t.compile words = .error e) : words.FailsEggex e := by
  cases t with
  | word w =>
    rcases error_of_bind h with h | ⟨s, -, h⟩
    · exact of_string h
    · unfold ClassTerm.ofString at h
      split at h
      · exact Except.error.inj h ▸ .settled ⟨rfl, rfl, rfl⟩
      · contradiction
  | charLiteral tok =>
    rcases error_of_bind h with h | ⟨r, -, h⟩
    · exact Literal.eq_badChar_of_classTerm? h ▸ .badChar tok
    · contradiction
  | _ => contradiction

theorem of_compileToken {tok : Token} (h : Eggex.compileToken tok = .error e) :
    words.FailsEggex e := by
  have hunknown : words.FailsEggex (Eggex.unknownToken tok) := .settled ⟨rfl, rfl, rfl⟩
  unfold Eggex.compileToken at h
  split at h
  · split at h
    · contradiction
    · exact Except.error.inj h ▸ hunknown
  · split at h
    · contradiction
    split at h
    · contradiction
    · exact Except.error.inj h ▸ hunknown
  · split at h
    · rename_i hc
      exact Literal.eq_badChar_of_stringToken hc (error_of_map h) ▸ .badChar tok
    · exact Except.error.inj h ▸ hunknown

theorem of_compileSplice {scope : EggexScope} {name : Token}
    (h : Eggex.compileSplice scope name = .error e) : words.FailsEggex e := by
  rcases error_of_bind h with h | ⟨v, -, h⟩
  · unfold EggexScope.valueOf at h
    split at h
    · contradiction
    · exact Except.error.inj h ▸ .settled ⟨rfl, rfl, rfl⟩
  · split at h
    · contradiction
    · exact Except.error.inj h ▸ .settled ⟨rfl, rfl, rfl⟩

end Words.FailsEggex

/-- **The errors of compilation** are those of its leaves: raw ones come of character tokens and
words alone. -/
theorem Eggex.failsEggex_of_compile {scope : EggexScope} {t : Eggex} {e : EvalError}
    (h : t.compile scope = .error e) : scope.words.FailsEggex e := by
  obtain ⟨l, hl, h⟩ := Eggex.error_of_compile h
  rcases Eggex.isLeaf_or_charClass_of_mem hl with hleaf | ⟨negated, term, rfl⟩
  · cases l with
    | speck id span => cases id <;> contradiction
    | token tok => exact .of_compileToken h
    | word w => exact .of_string (error_of_map h)
    | splice name => exact .of_compileSplice h
    | _ => contradiction
  · have hterms : ClassTerm.compileAll scope.words [term] = .error e := error_of_map h
    rw [ClassTerm.compileAll_eq] at hterms
    obtain ⟨t, ht, h⟩ := error_of_mapM hterms
    exact .of_compileTerm h

/-- An error of compilation is no panic, unless the words report one. -/
theorem Words.FailsEggex.fails_of_isPanic {words : Words} {e : EvalError} (h : words.FailsEggex e)
    (hp : e.fault.isPanic = true) : words.Fails e := by
  cases h with
  | badChar tok => contradiction
  | settled h => exact absurd hp (Bool.eq_false_iff.mp h.notPanic)
  | words h => exact h

theorem Eval.failsIn_compileEggex (host : Host) (tree : Eggex) :
    FailsIn (fun e => host.words.FailsEggex e ∨ e = Eggex.leftUncompiled)
      (compileEggex host tree) := by
  rintro e ⟨w, hw⟩
  rw [outcome_compileEggex] at hw
  rcases Eggex.compileAsserting_eq_error_iff.mp hw with h | ⟨-, h, -⟩
  · exact .inl (Eggex.failsEggex_of_compile h)
  · exact .inr h

/-! ### Whole calls -/

/-- Whether the text of an error is that of its fault, unless the host has reported the error. -/
def Host.Accounts (host : Host) (e : EvalError) : Prop := e.Coherent ∨ host.Fails e

section Accounts

variable {host : Host} {e : EvalError} {span : Span}

theorem EvalError.IsAt.accounts (h : e.IsAt span) : host.Accounts e := .inl h.coherent

theorem Words.FailsEggex.accounts (h : host.words.FailsEggex e) : host.Accounts e := by
  cases h with
  | badChar tok => exact .inl rfl
  | settled h => exact .inl h.coherent
  | words h => exact .inr (.words h)

theorem Host.accounts_compileEggex (host : Host) (tree : Eggex) :
    FailsIn host.Accounts (compileEggex host tree) := by
  intro e h
  rcases failsIn_compileEggex host tree e h with h | rfl
  · exact h.accounts
  · exact .inl rfl

/-- A reclassified error has the text of its new fault, and any other is as it was. -/
theorem Host.Accounts.classify (h : host.Accounts e) : host.Accounts e.classify := by
  rcases h with h | h
  · exact .inl h.classify
  · by_cases hr : e.fault.isRaw = true
    · refine .inl ?_
      rw [EvalError.classify, if_pos hr]
      rfl
    · rw [(classify_eq_self_iff e).mpr (Bool.eq_false_iff.mpr hr)]
      exact .inr h

theorem Expr.Raises.accounts {n : Expr} (h : n.Raises host e) : host.Accounts e := by
  cases h.origin with
  | here h _ => exact h.accounts
  | called h => exact h.accounts
  | reported h => exact .inr h.fails
  | array h => exact .inr (.words (.sequence h))
  | word h =>
    rcases Words.error_of_string h with ⟨tok, h⟩ | h
    · exact (Literal.isAt_of_stringToken h).accounts
    · exact .inr (.words h)
  | eggex h => exact host.accounts_compileEggex _ _ h

/-- The errors of all nodes are accounted for. -/
theorem accounts_nodes (nodes : List Expr) : ∀ n ∈ nodes, n.FailsIn host host.Accounts :=
  fun _ _ _ h => h.accounts

end Accounts

namespace Target

variable {host : Host} {P : EvalError → Prop}

theorem failsIn_place (target : Target) (hn : ∀ n ∈ target.nodes, n.FailsIn host P)
    (hinvalid : ∀ e, target = .invalid e → P e) : Eval.FailsIn P (target.place host) := by
  cases target with
  | named tok => exact failsIn_pure _
  | item obj indices =>
    rw [nodes, List.forall_mem_append] at hn
    refine (Expr.failsIn_eval obj hn.1).bind fun o => FailsIn.bind ?_ fun i => failsIn_pure _
    exact (Expr.failsIn_evalAll indices hn.2).bind fun vs => failsIn_joinIndices vs
  | attr obj op name =>
    refine (Expr.failsIn_eval obj hn).bind fun o => ?_
    cases op with
    | arrow => exact failsIn_alloc _
    | dot => exact failsIn_pure _
    | doubleColon => exact failsIn_pure _
  | invalid e => exact failsIn_fail (hinvalid e rfl)

end Target

theorem PlaceExpr.coherent_of_invalid {target : PlaceExpr} {e : EvalError}
    (h : target.target = .invalid e) : e.Coherent := by
  cases target with
  | tuple items => exact Target.invalid.inj h ▸ rfl
  | starred child => exact Target.invalid.inj h ▸ rfl
  | _ => contradiction

theorem Expr.coherent_of_invalid {target : Expr} {e : EvalError}
    (h : target.target = .invalid e) : e.Coherent := by
  cases target with
  | var tok span => contradiction
  | subscript obj indices span => contradiction
  | member obj op opSpan attr span => contradiction
  | _ => exact Target.invalid.inj h ▸ rfl

namespace Call

variable {host : Host}

/-- The errors of the work of a call. -/
theorem failsIn_body (c : Call) : Eval.FailsIn host.Accounts (c.body host) := by
  cases c with
  | expr e => exact (Expr.failsIn_eval e (accounts_nodes _)).bind fun v => failsIn_pure _
  | arguments args =>
    refine FailsIn.bind ?_ fun as => failsIn_pure _
    refine (Expr.failsIn_evalPositional args.positional (accounts_nodes _)).bind fun ps => ?_
    exact (Expr.failsIn_evalNamed [] args.named (accounts_nodes _)).bind fun ns => failsIn_pure _
  | place target =>
    refine FailsIn.bind (target.target.failsIn_place (accounts_nodes _) ?_) fun p => failsIn_pure _
    exact fun e h => .inl (PlaceExpr.coherent_of_invalid h)
  | lhs e =>
    refine FailsIn.bind (e.target.failsIn_place (accounts_nodes _) ?_) fun p => failsIn_pure _
    exact fun e h => .inl (Expr.coherent_of_invalid h)
  | plusEquals name v =>
    have hsum : Eval.FailsIn host.Accounts (sumOf name v) :=
      fun e h => (failsIn_sumOf name v e h).accounts
    exact hsum.bind fun s => failsIn_pure _
  | eggex tree => exact (host.accounts_compileEggex tree).bind fun t => failsIn_pure _

/-- A call fails with the fault of its work, reclassified unless it compiles an eggex. -/
theorem error_of_run {c : Call} {w : World} {e : EvalError}
    (he : ((c.run host).outcome w).1 = .error e) :
    ∃ e', (c.body host : Eval Reply).Raises e' ∧ c.fault e' = e := by
  rw [outcome_run, outcome_within] at he
  obtain ⟨e', he', hfault⟩ := error_of_mapError he
  exact ⟨e', ⟨c.entered w, he'⟩, hfault⟩

/-- **The errors of the calls of the evaluator.** The text of an error is that of its fault, unless
the host has reported the error. A call that is not for an eggex never fails with a raw fault, so
its errors stay as they are when they are reclassified. Compiling an eggex may fail with one: that
of a malformed character token or one that the words report. -/
theorem error_run (host : Host) (c : Call) (w : World) (e : EvalError)
    (he : ((c.run host).outcome w).1 = .error e) :
    (e.Coherent ∨ host.Fails e) ∧
    ((∀ tree, c ≠ .eggex tree) → e.fault.isRaw = false ∧ e.classify = e) ∧
    (∀ tree, c = .eggex tree → e.fault.isRaw = true →
      (∃ tok, e = Literal.badChar tok) ∨ host.words.Fails e) := by
  obtain ⟨e', hraises, hfault⟩ := error_of_run he
  have hbody : host.Accounts e' := c.failsIn_body e' hraises
  refine ⟨?_, ?_, ?_⟩
  · cases c with
    | eggex tree => exact hfault ▸ hbody
    | _ => exact hfault ▸ hbody.classify
  · intro hc
    have hclassify : e'.classify = e := by
      cases c with
      | eggex tree => exact absurd rfl (hc tree)
      | _ => exact hfault
    have hraw : e.fault.isRaw = false := hclassify ▸ e'.isRaw_classify
    exact ⟨hraw, (classify_eq_self_iff e).mpr hraw⟩
  · rintro tree rfl hraw
    obtain rfl : e' = e := hfault
    obtain ⟨w', hw'⟩ := hraises
    have hcompile : (compileEggex host tree).Raises e' := by
      refine ⟨w', ?_⟩
      rw [show (Call.eggex tree).body host = (do return .eggex (← compileEggex host tree) :
        Eval Reply) from rfl, outcome_map] at hw'
      exact error_of_map hw'
    rcases failsIn_compileEggex host tree e' hcompile with h | rfl
    · cases h with
      | badChar tok => exact .inl ⟨tok, rfl⟩
      | settled h => exact absurd hraw (Bool.eq_false_iff.mp h.notRaw)
      | words h => exact .inr h
    · contradiction

/-- A variable that holds a callable which reports a mismatch of types. -/
def failingWorld : World where
  store := { globals := [("f", .func ⟨[0]⟩ "fail_type")] }

/-- It called on a string. -/
def failingCall : Call :=
  .expr (.call (.var ⟨.name, "f", ⟨1, 2⟩⟩ ⟨1, 2⟩) [.const ⟨.name, "boom", ⟨3, 7⟩⟩ ⟨3, 7⟩] []
    ⟨1, 8⟩)

theorem error_run_callable :
    let host := ({} : Tables).host
    let e := (Fault.exprType (.reported "boom")).unplaced
    ((failingCall.run host).outcome failingWorld).1 = .error e ∧
      (e.Coherent ∨ host.Fails e) ∧ e.fault.isRaw = false ∧ e.classify = e := by
  intro host e
  have he : ((failingCall.run host).outcome failingWorld).1 = .error e := rfl
  have h := error_run host failingCall failingWorld e he
  exact ⟨he, h.1, h.2.1 fun tree => nofun⟩

/-- An eggex of a byte whose digits are none. -/
theorem raw_error_of_eggex :
    let host := ({} : Tables).host
    let tok : Token := ⟨.charHex, "\\xZZ", ⟨1, 5⟩⟩
    ∃ e, (((Call.eggex (.token tok)).run host).outcome {}).1 = .error e ∧
      e.fault.isRaw = true ∧ e.classify ≠ e := by
  refine ⟨Literal.badChar ⟨.charHex, "\\xZZ", ⟨1, 5⟩⟩, rfl, rfl, ?_⟩
  intro h
  exact Bool.noConfusion ((classify_eq_self_iff _).mp h)

end Call

end ShellExpr
