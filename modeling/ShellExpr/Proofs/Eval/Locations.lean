import ShellExpr.Proofs.Eval.Classified
import ShellExpr.Proofs.Eval.Failures
import ShellExpr.Proofs.Syntax.Spans

/-!
# Where errors point

An error points at a place of the expression that is evaluated, never into an eggex that a variable
holds. Only callables and the executor of commands may name other places. Which they do is seen by
evaluating with the same host but for these places: the evaluation ends in the same way, with the
place of such an error left out.

* `Words.Local`: words whose errors point into the words they are given.
* `Host.withoutSpans`: a host whose callables and commands name no places.
* `span_of_error`: **the place of an error**, and that it is the one of all that fails on the way
  out.
-/

namespace ShellExpr

open Eval

/-! ### Errors within a text -/

namespace EvalError

variable {e : EvalError} {span : Span} {spans spans' : List Span}

/-- Whether the place of an error is among some places, if it has one. -/
def Within (spans : List Span) (e : EvalError) : Prop := ∀ s, e.span = some s → s ∈ spans

theorem within_of_unplaced (h : e.span = none) : e.Within spans := by
  intro s hs
  rw [h] at hs
  contradiction

theorem IsAt.within (h : e.IsAt span) (hs : span ∈ spans) : e.Within spans := by
  cases h with
  | placed f =>
    intro s h
    exact Option.some.inj h ▸ hs
  | unplaced f => exact within_of_unplaced rfl

theorem Within.mono (h : e.Within spans) (hsub : ∀ s ∈ spans, s ∈ spans') : e.Within spans' :=
  fun s hs => hsub s (h s hs)

end EvalError

open EvalError

/-! ### Words and eggexes -/

/-- Whether the errors of words point into the words given. -/
structure Words.Local (words : Words) : Prop where
  doubleQuoted {w : DoubleQuoted} {e : EvalError} (h : words.doubleQuoted w = .error e) :
    e.Within w.spans
  braced {sub : BracedVarSub} {e : EvalError} (h : words.braced sub = .error e) : e.Within sub.spans
  simple {sub : SimpleVarSub} {e : EvalError} (h : words.simple sub = .error e) :
    e.Within [sub.name.span]
  sequence {ws : List CompoundWord} {e : EvalError} (h : words.sequence ws = .error e) :
    e.Within (ws.flatMap CompoundWord.spans)

theorem Words.Local.string {words : Words} (hw : words.Local) {w : StringWord} {e : EvalError}
    (h : words.string w = .error e) : e.Within w.spans := by
  cases w with
  | single w =>
    obtain ⟨tok, htok, h⟩ := Literal.error_of_singleQuoted h
    exact (Literal.isAt_of_stringToken h).within (SingleQuoted.mem_spans htok)
  | double w => exact hw.doubleQuoted h
  | braced sub => exact hw.braced h
  | simple sub => exact hw.simple h

theorem ClassTerm.within_of_compile {words : Words} (hw : words.Local) {t : ClassTerm}
    {e : EvalError} (h : t.compile words = .error e) : e.Within t.spans := by
  cases t with
  | word w =>
    rcases error_of_bind h with h | ⟨s, -, h⟩
    · exact hw.string h
    · unfold ClassTerm.ofString at h
      split at h
      · exact Except.error.inj h ▸ (IsAt.placed _).within w.span_mem_spans
      · contradiction
  | charLiteral tok =>
    rcases error_of_bind h with h | ⟨t, -, h⟩
    · rw [Literal.eq_badChar_of_classTerm? h]
      exact (IsAt.placed _).within List.mem_cons_self
    · contradiction
  | _ => contradiction

namespace Eggex

variable {scope : EggexScope} {e : EvalError}

theorem isAt_of_compileToken {tok : Token} (h : compileToken tok = .error e) : e.IsAt tok.span := by
  unfold compileToken at h
  split at h
  · split at h
    · contradiction
    · exact Except.error.inj h ▸ .placed _
  · split at h
    · contradiction
    split at h
    · contradiction
    · exact Except.error.inj h ▸ .placed _
  · split at h
    · exact Literal.isAt_of_stringToken (error_of_map h)
    · exact Except.error.inj h ▸ .placed _

/-- A splice fails at its name, whatever the variable holds. -/
theorem isAt_of_compileSplice {name : Token} (h : compileSplice scope name = .error e) :
    e.IsAt name.span := by
  rcases error_of_bind h with h | ⟨v, -, h⟩
  · unfold EggexScope.valueOf at h
    split at h
    · contradiction
    · exact Except.error.inj h ▸ .placed _
  · split at h
    · contradiction
    · exact Except.error.inj h ▸ .placed _

/-- **An eggex fails to compile at a place written in it.** -/
theorem within_of_compile (hw : scope.words.Local) {t : Eggex} (h : t.compile scope = .error e) :
    e.Within t.spans := by
  obtain ⟨l, hl, h⟩ := error_of_compile h
  refine Within.mono ?_ fun s hs => mem_spans_of_leaf hl hs
  rcases isLeaf_or_charClass_of_mem hl with hleaf | ⟨negated, term, rfl⟩
  · cases l with
    | speck id span => cases id <;> contradiction
    | token tok => exact (isAt_of_compileToken h).within List.mem_cons_self
    | word w => exact hw.string (error_of_map h)
    | splice name => exact (isAt_of_compileSplice h).within List.mem_cons_self
    | _ => contradiction
  · have hterm := error_of_map h
    rw [ClassTerm.compileAll_eq] at hterm
    obtain ⟨t, ht, hfail⟩ := error_of_mapM hterm
    obtain rfl := List.mem_singleton.mp ht
    exact (ClassTerm.within_of_compile hw hfail).mono fun s hs => List.mem_append_left _ hs

end Eggex

/-! ### Nodes -/

namespace Expr

variable {host : Host} {e n : Expr} {err : EvalError}

/-- What is called is a node below the call. -/
theorem func_mem_nodes {func : Expr} {positional : List Expr} {named : List (Option Token × Expr)}
    {span : Span} (hn : call func positional named span ∈ e.nodes) : func ∈ e.nodes := by
  refine mem_nodes_trans ?_ e hn
  rw [nodes]
  exact List.mem_cons_of_mem _ (List.mem_append_left _ (self_mem_nodes func))

/-- **A node fails at a place of its own**, or at that of what it calls, unless the host names one. -/
theorem Raises.within (hw : host.words.Local) (hu : ∀ e, host.Reports e → e.span = none)
    (hn : n ∈ e.nodes) (h : n.Raises host err) : err.Within e.spans := by
  cases h.origin with
  | here h hs => exact h.within (mem_spans_of_node hn hs)
  | called h => exact h.within (mem_spans_of_node (func_mem_nodes hn) List.mem_cons_self)
  | reported h => exact within_of_unplaced (hu _ h)
  | array h =>
    exact (hw.sequence h).mono fun s hs => mem_spans_of_node hn (List.mem_cons_of_mem _ hs)
  | word h => exact (hw.string h).mono fun s hs => mem_spans_of_node hn (List.mem_cons_of_mem _ hs)
  | eggex h =>
    obtain ⟨w, h⟩ := h
    rw [outcome_compileEggex] at h
    have hwords : (scopeOf host w.store).words.Local := hw
    rcases Eggex.compileAsserting_eq_error_iff.mp h with h | ⟨-, rfl, -⟩
    · refine (Eggex.within_of_compile hwords h).mono fun s hs => ?_
      exact mem_spans_of_node hn (List.mem_cons_of_mem _ (List.mem_append_left _ hs))
    · exact within_of_unplaced rfl

/-- **An expression fails at a place of its own**, if the host names none. -/
theorem within_of_eval (hw : host.words.Local) (hu : ∀ e, host.Reports e → e.span = none)
    (h : (e.eval host : Eval Value).Raises err) : err.Within e.spans := by
  obtain ⟨n, hn, h⟩ := raises_of_eval h
  exact h.within hw hu hn

end Expr

/-! ### Hosts that name no places -/

/-- The host with the places left out of the errors of its callables and of its executor. -/
def Host.withoutSpans (host : Host) : Host :=
  { host with
    run := fun sub flags => (host.run sub flags).mapError withoutSpan
    call := fun h name args => (host.call h name args).mapError withoutSpan }

theorem Host.span_of_reports {host : Host} {e : EvalError} (h : host.withoutSpans.Reports e) :
    e.span = none := by
  cases h with
  | run h =>
    obtain ⟨e, -, rfl⟩ := error_of_mapError h
    rfl
  | call h =>
    obtain ⟨e, -, rfl⟩ := error_of_mapError h
    rfl

/-- How a computation ends, beside that of one with a host that names no places: in the same way, or
both with an error that the host reports, once with its place and once without. -/
inductive SameEnd (host : Host) {α : Type} (G : α → Prop) :
    Except EvalError α × World → Except EvalError α × World → Prop
  | same {o : Except EvalError α × World} (h : ∀ a, o.1 = .ok a → G a) : SameEnd host G o o
  | reported {e : EvalError} {w : World} (h : host.Reports e) :
      SameEnd host G (.error e, w) (.error e.withoutSpan, w)

def EndsAlike (host : Host) {α : Type} (G : α → Prop) (x y : Eval α) : Prop :=
  ∀ w, SameEnd host G (x.outcome w) (y.outcome w)

theorem endsAlike_act {host : Host} {α : Type} {G : α → Prop} {x : Eval α}
    (h : ∀ w a, (x.outcome w).1 = .ok a → G a) : EndsAlike host G x x := fun w => .same (h w)

theorem endsAlike_respects (host : Host) (limit : Option Nat) :
    Respects (m := Eval) (n := Eval) (fun _ => True) limit limit (EndsAlike host) where
  pure {α G a} h := by
    refine endsAlike_act fun w b hb => ?_
    obtain rfl := Except.ok.inj hb
    exact h
  bind {α β G H x y f g} hx hf := by
    intro w
    rw [outcome_bind, outcome_bind]
    have hw := hx w
    generalize x.outcome w = o at hw ⊢
    generalize y.outcome w = o' at hw ⊢
    cases hw with
    -- only the same result is gone on from; an error that the host reports ends both
    | same h =>
      rcases o with ⟨r, w'⟩
      cases r with
      | ok a => exact hf a (h a rfl) w'
      | error e => exact .same fun a ha => by contradiction
    | reported h => exact .reported h
  act {α G x} _ hy := endsAlike_act fun w a ha => hy w a (Store.holds_true _) ha
  link := endsAlike_act fun _ _ _ => trivial
  enter {e x y} hx := by
    intro w
    show SameEnd host _ ((Eval.nested limit e.span x).outcome w)
      ((Eval.nested limit e.span y).outcome w)
    rw [outcome_nested, outcome_nested]
    split
    · exact .same fun v _ t _ => trivial
    · have hw := hx { w with depth := w.depth + 1 }
      generalize x.outcome { w with depth := w.depth + 1 } = o at hw ⊢
      generalize y.outcome { w with depth := w.depth + 1 } = o' at hw ⊢
      cases hw with
      | same h => exact .same h
      | reported h => exact .reported h

theorem endsAlike_command (host : Host) (sub : CommandSub) :
    EndsAlike host (fun _ => True) (command host sub) (command host.withoutSpans sub) := by
  intro w
  show SameEnd host _ (host.run sub w.options.current, _)
    ((host.run sub w.options.current).mapError withoutSpan, _)
  cases hr : host.run sub w.options.current with
  | ok out => exact .same fun _ _ => trivial
  | error e => exact .reported (.run hr)

theorem endsAlike_relates (host : Host) :
    Relates (m := Eval) (n := Eval) (fun _ => True) (fun _ => True) host host.withoutSpans
      (EndsAlike host) where
  toRespects := endsAlike_respects host host.limit
  words := rfl
  debug := rfl
  compile _ _ := yields_true _
  commandSub sub := by
    have hR := endsAlike_respects host host.limit
    show EndsAlike host _ (Eval.commandSub host sub) (Eval.commandSub host.withoutSpans sub)
    have hvalue : ∀ x : Eval Value, EndsAlike host (Value.Holds fun _ => True) x x :=
      fun x => endsAlike_act fun _ v _ t _ => trivial
    unfold Eval.commandSub
    split
    · exact hR.bind (endsAlike_command host sub) fun out _ => hvalue _
    · exact hR.bind (endsAlike_command host sub) fun out _ => hvalue _
    · exact hvalue _
  call h name args _ _ := by
    intro w
    show SameEnd host _ ((of (host.call h name args)).outcome w)
      ((of ((host.call h name args).mapError withoutSpan)).outcome w)
    cases hr : host.call h name args with
    | ok v => exact .same fun v _ t _ => trivial
    | error e => exact .reported (.call hr)

/-! ### Tables -/

namespace Tables

variable {t : Tables} {err : EvalError}

theorem isAt_of_textOf {name : Token} (h : t.textOf name = .error err) : err.IsAt name.span := by
  unfold textOf at h
  split at h
  · contradiction
  · exact Except.error.inj h ▸ .placed _

theorem within_of_parts {ps : List WordPart} (h : t.parts ps = .error err) :
    err.Within (ps.flatMap WordPart.spans) := by
  induction ps with
  | nil => contradiction
  | cons p rest ih =>
    rw [List.flatMap_cons]
    rcases error_of_bind h with h | ⟨s, -, h⟩
    · have hp : err.Within p.spans := by
        cases p with
        | literal tok => contradiction
        | simple sub => exact (isAt_of_textOf h).within List.mem_cons_self
        | braced sub =>
          exact (isAt_of_textOf h).within (List.mem_cons_of_mem _ List.mem_cons_self)
      exact hp.mono fun s hs => List.mem_append_left _ hs
    rcases error_of_bind h with h | ⟨s', -, h⟩
    · exact (ih h).mono fun s hs => List.mem_append_right _ hs
    · contradiction

theorem within_of_wordTexts {ws : List CompoundWord} (h : t.wordTexts ws = .error err) :
    err.Within (ws.flatMap CompoundWord.spans) := by
  induction ws with
  | nil => contradiction
  | cons word rest ih =>
    rw [List.flatMap_cons]
    rcases error_of_bind h with h | ⟨s, -, h⟩
    · exact (within_of_parts h).mono fun s hs => List.mem_append_left _ hs
    rcases error_of_bind h with h | ⟨ss, -, h⟩
    · exact (ih h).mono fun s hs => List.mem_append_right _ hs
    · contradiction

/-- Words from tables fail at the names of variables. -/
theorem isLocal (t : Tables) : t.wordEvaluator.Local where
  doubleQuoted h := (within_of_parts h).mono fun _ hs => List.mem_cons_of_mem _ hs
  braced h := (isAt_of_textOf h).within (List.mem_cons_of_mem _ List.mem_cons_self)
  simple h := (isAt_of_textOf h).within List.mem_cons_self
  sequence h := within_of_wordTexts h

end Tables

/-! ### Whole evaluations -/

/-- **The place of an error is one of the expression**, unless a callable or the executor of commands
has named it: then the error is one that they report, and but for their places the evaluation ends in
the same way without one. All that fails on the way out fails with the place that the error has. -/
theorem span_of_error {host : Host} (hw : host.words.Local) {e : Expr} {w : World}
    {err : EvalError} (h : ((evalExpr host e).outcome w).1 = .error err) :
    (∀ s, err.span = some s → s ∈ e.spans ∨
      (∃ err', host.Reports err' ∧ err'.classify = err) ∧
      (evalExpr host.withoutSpans e).outcome w =
        (.error err.withoutSpan, ((evalExpr host e).outcome w).2)) ∧
    ∃ err', err'.classify = err ∧ err'.span = err.span ∧
      (failures host e w).getLast? = some (e, err') ∧ ∀ f ∈ failures host e w, f.2 = err' := by
  constructor
  · intro s hs
    have hend := (endsAlike_relates host).eval e (fun _ _ => trivial)
      { w with options := w.options.push Flags.errexit }
    rw [outcome_evalExpr] at h
    rw [outcome_evalExpr, outcome_evalExpr]
    generalize (e.eval host : Eval Value).outcome _ = o at h hend ⊢
    generalize ho : (e.eval host.withoutSpans : Eval Value).outcome _ = o' at hend ⊢
    cases hend with
    | same _ =>
      -- the host that names no places has come to the error too, so a node of the expression has
      obtain ⟨err', herr, rfl⟩ := error_of_mapError h
      rw [span_classify] at hs
      have hwords : host.withoutSpans.words.Local := hw
      exact .inl (Expr.within_of_eval hwords (fun _ => Host.span_of_reports) ⟨_, ho ▸ herr⟩ s hs)
    | @reported err' w' hr =>
      have hclass : err'.classify = err := Except.error.inj h
      refine .inr ⟨⟨err', hr, hclass⟩, ?_⟩
      rw [← hclass, withoutSpan_classify]
      rfl
  · obtain ⟨err', hclass, hlast, hall⟩ := failures_of_error h
    exact ⟨err', hclass, hclass ▸ err'.span_classify.symm, hlast, hall⟩

/-- `not (true ~ / $x /)`, where `x` has no text. -/
def wordInEggex : Expr :=
  .unary .not ⟨0, 3⟩ (.compare (.const ⟨.trueWord, "true", ⟨5, 9⟩⟩ ⟨5, 9⟩)
    [((.regex, ⟨10, 11⟩), .eggex (.word (.simple ⟨⟨.name, "x", ⟨14, 16⟩⟩⟩)) [] ⟨12, 18⟩)] ⟨5, 18⟩)
    ⟨0, 19⟩

theorem span_of_error_word :
    ((evalExpr ({} : Tables).host wordInEggex).outcome {}).1 =
      .error ((Fault.undefined "x").placed ⟨14, 16⟩) ∧
    ⟨14, 16⟩ ∈ wordInEggex.spans ∧
    (failures ({} : Tables).host wordInEggex {}).length = 3 ∧
    ∀ f ∈ failures ({} : Tables).host wordInEggex {}, f.2.span = some ⟨14, 16⟩ := by
  have herr : ((evalExpr ({} : Tables).host wordInEggex).outcome {}).1 =
      .error ((Fault.undefined "x").placed ⟨14, 16⟩) := rfl
  obtain ⟨hspan, err', -, hsame, -, hall⟩ := span_of_error (Tables.isLocal {}) herr
  refine ⟨herr, ?_, rfl, fun f hf => hall f hf ▸ hsame⟩
  rcases hspan _ rfl with hin | ⟨-, hmuted⟩
  · exact hin
  · have hplaced : ((evalExpr ({} : Tables).host.withoutSpans wordInEggex).outcome {}).1 =
        .error ((Fault.undefined "x").placed ⟨14, 16⟩) := rfl
    rw [hmuted] at hplaced
    have hnone := congrArg EvalError.span (Except.error.inj hplaced)
    contradiction

end ShellExpr
