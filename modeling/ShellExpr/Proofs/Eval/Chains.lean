import ShellExpr.Proofs.Eval.Calls

/-!
# Comparison chains

A chain goes from link to link. Each evaluates its operand and compares it with the value before it;
the chain goes on with the new value only if the link is true and its operator is not one that ends
every chain. So a chain of two parts either stops in the first, and never comes to the second, or
goes on in the second as a chain whose first operand has its value already.

* `Answers`, `Stops`: what may come of one link.
* `Passes`, `Ends`: a chain gets past some links or ends in one of them.
* `ends_or_passes`, `Passes.not_ends`: it does one of the two, and not both.
* `chainFrom`: the rest of a chain, from the value it has come to.
* `Chain.EndsInside`, `Chain.GetsPast`: the same, of a chain from its first operand on.
* `compare_append`: **a chain decomposes** at each place.
* `compare_negated`: **of the negated pattern operators only one ends every chain**.
-/

namespace ShellExpr

open Eval

/-- A link as written: an operator with its place, and the operand after it. -/
abbrev ChainLink := (CompareOp × Span) × Expr

/-- Whether a link by the operator ends its chain, whatever it decides. -/
def CompareOp.isFinal : CompareOp → Bool
  | glob | notGlob | approx => true
  | _ => false

/-! ### Depth -/

/-- The world inside an expression. -/
def World.deeper (w : World) : World := { w with depth := w.depth + 1 }

/-- The world outside an expression, from the one inside. -/
def World.shallower (w : World) : World := { w with depth := w.depth - 1 }

theorem World.deeper_shallower {w : World} (h : 0 < w.depth) : w.shallower.deeper = w := by
  have : w.depth - 1 + 1 = w.depth := by omega
  simp only [deeper, shallower, this]

namespace Eval

variable {α β : Type} {host : Host}

/-- An expression leaves the depth as it was. -/
theorem depth_eval {e : Expr} {w w' : World} {r : Except EvalError Value}
    (h : (e.eval host : Eval Value).outcome w = (r, w')) : w'.depth = w.depth := by
  have := ((tidy_respects host.limit).eval host.sound_true e (fun _ _ => trivial) w).depth
  rwa [h] at this

theorem depth_link {op : CompareOp} {opSpan : Span} {left right : Value} {w w' : World}
    {r : Except EvalError Link} (h : (link op opSpan left right).outcome w = (r, w')) :
    w'.depth = w.depth := by
  have := congrArg World.depth (world_link op opSpan left right w)
  rwa [h] at this

theorem eval_eq_nested (host : Host) (e : Expr) :
    ∃ body, (e.eval host : Eval Value) = nested host.limit e.span body := by
  show ∃ body, (e.eval host : Eval Value) = Machine.enter host.limit e body
  cases e <;> exact ⟨_, rfl⟩

/-- What fails in every world does so one level deeper too. -/
theorem exists_error_nested (limit : Option Nat) (span : Span) {body : Eval α}
    (h : ∀ w, ∃ e w', body.outcome w = (.error e, w')) (w : World) :
    ∃ e w', (nested limit span body).outcome w = (.error e, w') := by
  rw [outcome_nested]
  split
  · exact ⟨_, _, rfl⟩
  · obtain ⟨e, w', h⟩ := h { w with depth := w.depth + 1 }
    rw [h]
    exact ⟨e, _, rfl⟩

/-- What has a value is not too deep. -/
theorem not_tooDeep_of_eval {e : Expr} {w w' : World} {v : Value}
    (h : (e.eval host : Eval Value).outcome w = (.ok v, w')) :
    ¬ host.limit.any (· ≤ w.depth) = true := by
  obtain ⟨body, hbody⟩ := eval_eq_nested host e
  intro hdeep
  rw [hbody, outcome_nested, if_pos hdeep] at h
  cases h

theorem not_tooDeep_of_deeper {limit : Option Nat} {w : World}
    (h : ¬ limit.any (· ≤ w.deeper.depth) = true) : ¬ limit.any (· ≤ w.depth) = true := by
  cases limit with
  | none => exact h
  | some n =>
    intro hle
    exact h (decide_eq_true (Nat.le_succ_of_le (of_decide_eq_true hle)))

/-! ### One link -/

/-- Whether a link is true. -/
def Link.truth : Link → Bool
  | .holds b | .ends b => b

theorem of_outcome_map {x : Eval α} {f : α → β} {w w' : World} {b : β}
    (h : (do return f (← x) : Eval β).outcome w = (.ok b, w')) : ∃ a, f a = b := by
  rw [Call.outcome_map] at h
  obtain ⟨a, -, hb⟩ := ok_of_map (congrArg Prod.fst h)
  exact ⟨a, hb⟩

/-- Final operators end the chain, and no others do. -/
theorem link_eq {op : CompareOp} {opSpan : Span} {left right : Value} {w w' : World} {l : Link}
    (h : (link op opSpan left right).outcome w = (.ok l, w')) :
    l = if op.isFinal then .ends l.truth else .holds l.truth := by
  cases op <;> obtain ⟨b, rfl⟩ := of_outcome_map h <;> rfl

end Eval

/-- A link gets an answer: its operand has the value `right`, and the link is true or not. -/
def Answers (host : Host) (left : Value) (k : ChainLink) (w : World) (right : Value) (b : Bool)
    (w' : World) : Prop :=
  ∃ w₁ l, (k.2.eval host : Eval Value).outcome w = (.ok right, w₁) ∧
    (link k.1.1 k.1.2 left right).outcome w₁ = (.ok l, w') ∧ l.truth = b

/-- A link ends its chain. -/
inductive Stops (host : Host) (left : Value) (k : ChainLink) (w : World) :
    Except EvalError Bool → World → Prop where
  | operand {e : EvalError} {w' : World}
      (h : (k.2.eval host : Eval Value).outcome w = (.error e, w')) :
      Stops host left k w (.error e) w'
  | fails {right : Value} {w₁ w' : World} {e : EvalError}
      (h : (k.2.eval host : Eval Value).outcome w = (.ok right, w₁))
      (hlink : (link k.1.1 k.1.2 left right).outcome w₁ = (.error e, w')) :
      Stops host left k w (.error e) w'
  | isFalse {right : Value} {w' : World} (h : Answers host left k w right false w') :
      Stops host left k w (.ok false) w'
  | isFinal {right : Value} {b : Bool} {w' : World} (hop : k.1.1.isFinal = true)
      (h : Answers host left k w right b w') : Stops host left k w (.ok b) w'

/-- A chain gets past links: each is true and by an operator that lets the chain go on. Its operand
is what the next one compares. -/
inductive Passes (host : Host) : Value → List ChainLink → World → Value → World → Prop where
  | nil (v : Value) (w : World) : Passes host v [] w v w
  | cons {left right v : Value} {k : ChainLink} {rest : List ChainLink} {w w₁ w' : World}
      (hop : k.1.1.isFinal = false) (h : Answers host left k w right true w₁)
      (hrest : Passes host right rest w₁ v w') : Passes host left (k :: rest) w v w'

/-- A chain ends in one of its links. -/
inductive Ends (host : Host) :
    Value → List ChainLink → World → Except EvalError Bool → World → Prop where
  | here {left : Value} {k : ChainLink} {rest : List ChainLink} {w w' : World}
      {r : Except EvalError Bool} (h : Stops host left k w r w') : Ends host left (k :: rest) w r w'
  | later {left right : Value} {k : ChainLink} {rest : List ChainLink} {w w₁ w' : World}
      {r : Except EvalError Bool} (hop : k.1.1.isFinal = false)
      (h : Answers host left k w right true w₁) (hrest : Ends host right rest w₁ r w') :
      Ends host left (k :: rest) w r w'

section Links

variable {host : Host} {left right v : Value} {k : ChainLink} {links : List ChainLink}
  {w w₁ w' : World} {b : Bool} {r : Except EvalError Bool}

theorem evalLinks_cons (k : ChainLink) (rest : List ChainLink) (left : Value) :
    (Expr.evalLinks host left (k :: rest) : Eval Bool) = (do
      let right ← k.2.eval host
      match ← link k.1.1 k.1.2 left right with
      | .ends b => return b
      | .holds false => return false
      | .holds true => Expr.evalLinks host right rest) := rfl

theorem Answers.depth (h : Answers host left k w right b w') : w'.depth = w.depth := by
  obtain ⟨w₁, l, hright, hl, -⟩ := h
  exact (depth_link hl).trans (depth_eval hright)

/-- A link that is answered either ends the chain with its answer, or leaves it to the next one. -/
theorem Answers.outcome (h : Answers host left k w right b w') (rest : List ChainLink) :
    (Expr.evalLinks host left (k :: rest) : Eval Bool).outcome w =
      if k.1.1.isFinal || !b then (.ok b, w')
      else (Expr.evalLinks host right rest : Eval Bool).outcome w' := by
  obtain ⟨w₁, l, hright, hl, rfl⟩ := h
  -- whether the link ends the chain is known from its operator and its truth
  have hl' := link_eq hl
  rw [evalLinks_cons, outcome_bind, hright]
  simp only
  rw [outcome_bind, hl]
  generalize l.truth = b at hl'
  subst hl'
  cases k.1.1.isFinal <;> cases b <;> rfl

theorem Stops.outcome (h : Stops host left k w r w') (rest : List ChainLink) :
    (Expr.evalLinks host left (k :: rest) : Eval Bool).outcome w = (r, w') := by
  cases h with
  | operand h => rw [evalLinks_cons, outcome_bind, h]
  | fails h hlink =>
    rw [evalLinks_cons, outcome_bind, h]
    simp only
    rw [outcome_bind, hlink]
  | isFalse h => simp [h.outcome rest]
  | isFinal hop h => simp [h.outcome rest, hop]

/-- A link either ends its chain or is true. -/
theorem stops_or_answers (host : Host) (left : Value) (k : ChainLink) (w : World) :
    (∃ r w', Stops host left k w r w') ∨
      (k.1.1.isFinal = false ∧ ∃ right w', Answers host left k w right true w') := by
  rcases hright : (k.2.eval host : Eval Value).outcome w with ⟨e | right, w₁⟩
  · exact .inl ⟨_, _, .operand hright⟩
  rcases hl : (link k.1.1 k.1.2 left right).outcome w₁ with ⟨e | l, w₂⟩
  · exact .inl ⟨_, _, .fails hright hl⟩
  have h : Answers host left k w right l.truth w₂ := ⟨w₁, l, hright, hl, rfl⟩
  cases hop : k.1.1.isFinal with
  | true => exact .inl ⟨_, _, .isFinal hop h⟩
  | false =>
    cases htruth : l.truth with
    | false => exact .inl ⟨_, _, .isFalse (htruth ▸ h)⟩
    | true => exact .inr ⟨rfl, right, w₂, htruth ▸ h⟩

/-! ### Several links -/

/-- The links after the one in which a chain ends do not matter. -/
theorem Ends.outcome_append (h : Ends host left links w r w') (rest : List ChainLink) :
    (Expr.evalLinks host left (links ++ rest) : Eval Bool).outcome w = (r, w') := by
  induction h with
  | here h => exact h.outcome _
  | later hop h _ ih => rw [List.cons_append, h.outcome]; simpa [hop] using ih

/-- What a chain does after some links is what it does from the value and the world it has then. -/
theorem Passes.outcome_append (h : Passes host left links w v w') (rest : List ChainLink) :
    (Expr.evalLinks host left (links ++ rest) : Eval Bool).outcome w =
      (Expr.evalLinks host v rest : Eval Bool).outcome w' := by
  induction h with
  | nil => rfl
  | cons hop h _ ih => rw [List.cons_append, h.outcome]; simpa [hop] using ih

theorem Passes.depth (h : Passes host left links w v w') : w'.depth = w.depth := by
  induction h with
  | nil => rfl
  | cons _ h _ ih => exact ih.trans h.depth

/-- A chain ends in one of its links or gets past them all. -/
theorem ends_or_passes (host : Host) (links : List ChainLink) (left : Value) (w : World) :
    (∃ r w', Ends host left links w r w') ∨ ∃ v w', Passes host left links w v w' := by
  induction links generalizing left w with
  | nil => exact .inr ⟨left, w, .nil left w⟩
  | cons k rest ih =>
    obtain ⟨r, w', h⟩ | ⟨hop, right, w₁, h⟩ := stops_or_answers host left k w
    · exact .inl ⟨r, w', .here h⟩
    obtain ⟨r, w', hrest⟩ | ⟨v, w', hrest⟩ := ih right w₁
    · exact .inl ⟨r, w', .later hop h hrest⟩
    · exact .inr ⟨v, w', .cons hop h hrest⟩

/-- There is a link at which every chain fails that comes to it. -/
theorem exists_failing_link (host : Host) : ∃ k : ChainLink, ∀ v w, ∃ e w',
    (Expr.evalLinks host v [k] : Eval Bool).outcome w = (.error e, w') := by
  refine ⟨((.eq, Span.dummy), .implicit Span.dummy), fun v w => ?_⟩
  obtain ⟨e, w', h⟩ : ∃ e w',
      ((Expr.implicit Span.dummy).eval host : Eval Value).outcome w = (.error e, w') :=
    exists_error_nested _ _ (fun w => ⟨_, w, rfl⟩) w
  exact ⟨e, w', (Stops.operand h).outcome []⟩

/-- A chain does not do both: what comes after the links matters only if it gets past them. -/
theorem Passes.not_ends (h : Passes host left links w v w') : ¬ Ends host left links w r w₁ := by
  intro hends
  -- a failing link behind the chain would show in the one case and not in the other
  obtain ⟨k, hk⟩ := exists_failing_link host
  obtain ⟨e, w₂, hfails⟩ := hk v w'
  have hnil := (hends.outcome_append []).symm.trans (h.outcome_append [])
  have hk := (hends.outcome_append [k]).symm.trans (h.outcome_append [k])
  rw [hfails, hnil] at hk
  cases hk

end Links

/-! ### Whole chains -/

/-- The chain over some links whose first operand has its value already. -/
def chainFrom (host : Host) (left : Value) (links : List ChainLink) (span : Span) : Eval Value :=
  nested host.limit span (do return .bool (← Expr.evalLinks host left links))

namespace Chain

/-- A chain ends before it is past its links: the first operand fails or a link ends it. -/
def EndsInside (host : Host) (first : Expr) (links : List ChainLink) (w : World) : Prop :=
  (∃ e w', (first.eval host : Eval Value).outcome w.deeper = (.error e, w')) ∨
    ∃ left w₁ r w', (first.eval host : Eval Value).outcome w.deeper = (.ok left, w₁) ∧
      Ends host left links w₁ r w'

/-- A chain gets past its links, and the last operand then has the value `v`. -/
def GetsPast (host : Host) (first : Expr) (links : List ChainLink) (w : World) (v : Value)
    (w' : World) : Prop :=
  ∃ left w₁ w₂, (first.eval host : Eval Value).outcome w.deeper = (.ok left, w₁) ∧
    Passes host left links w₁ v w₂ ∧ w' = w₂.shallower

variable {host : Host} {first : Expr} {links links₁ : List ChainLink} {left v : Value}
  {span : Span} {w w₁ w' : World}

theorem exists_failing_chain (host : Host) (span : Span) : ∃ k : ChainLink, ∀ v w, ∃ e w',
    (chainFrom host v [k] span).outcome w = (.error e, w') := by
  obtain ⟨k, hk⟩ := exists_failing_link host
  refine ⟨k, fun v w => ?_⟩
  refine exists_error_nested _ _ (fun w => ?_) w
  obtain ⟨e, w', h⟩ := hk v w
  rw [Call.outcome_map, h]
  exact ⟨e, w', rfl⟩

/-- A chain is left one level above the end of its links. -/
theorem outcome_chainFrom (hdeep : ¬ host.limit.any (· ≤ w.depth) = true)
    (hdepth : w₁.depth = w.depth + 1) :
    (chainFrom host left links span).outcome w₁.shallower =
      (((Expr.evalLinks host left links : Eval Bool).outcome w₁).1.map Value.bool,
        ((Expr.evalLinks host left links : Eval Bool).outcome w₁).2.shallower) := by
  have hdepth' : w₁.shallower.depth = w.depth := by simp [World.shallower, hdepth]
  have hback : { w₁.shallower with depth := w₁.shallower.depth + 1 } = w₁ :=
    World.deeper_shallower (by omega)
  rw [chainFrom, outcome_nested, hdepth', if_neg hdeep, ← hdepth', hback, Call.outcome_map]
  rfl

theorem outcome_compare (hdeep : ¬ host.limit.any (· ≤ w.depth) = true) :
    ((Expr.compare first links span).eval host : Eval Value).outcome w =
      match (first.eval host : Eval Value).outcome w.deeper with
      | (.ok left, w₁) =>
        (((Expr.evalLinks host left links : Eval Bool).outcome w₁).1.map Value.bool,
          ((Expr.evalLinks host left links : Eval Bool).outcome w₁).2.shallower)
      | (.error e, w₁) => (.error e, w₁.shallower) := by
  have heval : ((Expr.compare first links span).eval host : Eval Value) =
      nested host.limit span (do
        let left ← first.eval host
        return .bool (← Expr.evalLinks host left links)) := rfl
  rw [heval, outcome_nested, if_neg hdeep]
  show ((Eval.outcome _ w.deeper).1, World.shallower (Eval.outcome _ w.deeper).2) = _
  rw [outcome_bind]
  rcases (first.eval host : Eval Value).outcome w.deeper with ⟨e | left, w₁⟩
  · rfl
  · simp only
    rw [Call.outcome_map]

/-- A chain that ends inside links does so whatever links come after them. -/
theorem EndsInside.outcome (hlimit : host.limit = none) (h : EndsInside host first links₁ w) :
    ∃ r w', ∀ links₂ span, ((Expr.compare first (links₁ ++ links₂) span).eval host :
      Eval Value).outcome w = (r, w') := by
  have hdeep : ¬ host.limit.any (· ≤ w.depth) = true := by simp [hlimit]
  obtain ⟨e, w', h⟩ | ⟨left, w₁, r, w', h, hends⟩ := h
  · exact ⟨.error e, w'.shallower, fun links₂ span => by rw [outcome_compare hdeep, h]⟩
  · refine ⟨r.map Value.bool, w'.shallower, fun links₂ span => ?_⟩
    rw [outcome_compare hdeep, h]
    simp only
    rw [hends.outcome_append]

/-- A chain that gets past links goes on from the value and in the world that it has then. -/
theorem GetsPast.outcome (h : GetsPast host first links₁ w v w') (links₂ : List ChainLink)
    (span : Span) :
    ((Expr.compare first (links₁ ++ links₂) span).eval host : Eval Value).outcome w =
      (chainFrom host v links₂ span).outcome w' := by
  obtain ⟨left, w₁, w₂, h, hpasses, rfl⟩ := h
  -- the first operand has its value, so the limit lets the chain in, again at the same depth
  have hdeep := not_tooDeep_of_deeper (not_tooDeep_of_eval h)
  have hdepth : w₂.depth = w.depth + 1 := hpasses.depth.trans (depth_eval h)
  rw [outcome_chainFrom hdeep hdepth, outcome_compare hdeep, h]
  simp only
  rw [hpasses.outcome_append]

theorem endsInside_or_getsPast (host : Host) (first : Expr) (links : List ChainLink) (w : World) :
    EndsInside host first links w ∨ ∃ v w', GetsPast host first links w v w' := by
  rcases h : (first.eval host : Eval Value).outcome w.deeper with ⟨e | left, w₁⟩
  · exact .inl (.inl ⟨e, w₁, h⟩)
  obtain ⟨r, w', hends⟩ | ⟨v, w₂, hpasses⟩ := ends_or_passes host links left w₁
  · exact .inl (.inr ⟨left, w₁, r, w', h, hends⟩)
  · exact .inr ⟨v, _, left, w₁, w₂, h, hpasses, rfl⟩

theorem GetsPast.not_endsInside (h : GetsPast host first links w v w') :
    ¬ EndsInside host first links w := by
  obtain ⟨left, w₁, w₂, h, hpasses, rfl⟩ := h
  rintro (⟨e, w', he⟩ | ⟨left', w₁', r, w', h', hends⟩)
  · rw [h] at he
    cases he
  · obtain ⟨rfl, rfl⟩ : left = left' ∧ w₁ = w₁' := by simpa using h.symm.trans h'
    exact hpasses.not_ends hends

/-- Past some links, a link with an answer ends the chain with it if the operator is final or the
answer is no, and leaves the chain to the links after it otherwise. -/
theorem GetsPast.outcome_link {before : List ChainLink} {k : ChainLink} {right : Value} {b : Bool}
    {w₂ : World} (hpast : GetsPast host first before w left w₁)
    (h : Answers host left k w₁.deeper right b w₂) (after : List ChainLink) (span : Span) :
    ((Expr.compare first (before ++ k :: after) span).eval host : Eval Value).outcome w =
      if k.1.1.isFinal || !b then (.ok (.bool b), w₂.shallower)
      else (chainFrom host right after span).outcome w₂.shallower := by
  have houtcome := hpast.outcome (k :: after) span
  obtain ⟨l, w₁', w₁, hfirst, hpasses, rfl⟩ := hpast
  have hdeep := not_tooDeep_of_deeper (not_tooDeep_of_eval hfirst)
  have hdepth : w₁.depth = w.depth + 1 := hpasses.depth.trans (depth_eval hfirst)
  rw [World.deeper_shallower (by omega)] at h
  rw [houtcome, outcome_chainFrom hdeep hdepth, h.outcome,
    outcome_chainFrom hdeep (h.depth.trans hdepth)]
  split <;> rfl

end Chain

open Chain

/-- **Comparison chains decompose.** A chain that ends inside its first links does what these links
alone do, whatever comes after them. Any other chain gets past them, and goes on, in the world they
leave, as the chain over the rest whose first operand is the last value. -/
theorem compare_append (host : Host) (hlimit : host.limit = none) (first : Expr)
    (links₁ : List ChainLink) (span span' : Span) (w : World) :
    (EndsInside host first links₁ w → ∀ links₂,
      ((Expr.compare first (links₁ ++ links₂) span).eval host : Eval Value).outcome w =
        ((Expr.compare first links₁ span').eval host : Eval Value).outcome w) ∧
    (¬ EndsInside host first links₁ w → ∃ v w', GetsPast host first links₁ w v w' ∧
      ((Expr.compare first links₁ span').eval host : Eval Value).outcome w =
        (.ok (.bool true), w') ∧
      ∀ links₂, ((Expr.compare first (links₁ ++ links₂) span).eval host : Eval Value).outcome w =
        (chainFrom host v links₂ span').outcome w') := by
  constructor
  · intro h links₂
    obtain ⟨r, w', h⟩ := h.outcome hlimit
    have halone := h [] span'
    rw [List.append_nil] at halone
    rw [h links₂ span, halone]
  · intro h
    obtain ⟨v, w', hpast⟩ := (endsInside_or_getsPast host first links₁ w).resolve_left h
    -- the span of a chain only says where the nesting is too deep
    have hnested : ∀ links, chainFrom host v links span = chainFrom host v links span' := by
      intro links
      unfold chainFrom
      rw [hlimit]
      rfl
    refine ⟨v, w', hpast, ?_, fun links₂ => (hpast.outcome links₂ span).trans (by rw [hnested])⟩
    have halone := hpast.outcome [] span'
    rw [List.append_nil] at halone
    rw [halone, chainFrom, hlimit]
    rfl

/-- A string in single quotes. -/
def Expr.quoted (s : String) : Expr :=
  .word (.single { kind := .raw, tokens := [{ kind := .literal, text := s }] }) Span.dummy

theorem getsPast_quoted : GetsPast ({} : Tables).host (.quoted "a") [] {} (.str ⟨[0]⟩ "a")
    { supply := 1 } :=
  ⟨_, _, { depth := 1, supply := 1 }, rfl, .nil _ _, rfl⟩

/-- `'a' === 'b'` ends a chain. `'' === $(x)` does not, and the command has run once then. -/
theorem compare_append_command :
    let host := ({} : Tables).host
    let isB : ChainLink := ((.eq, Span.dummy), .quoted "b")
    let isOutput : ChainLink :=
      ((.eq, Span.dummy), .commandSub { kind := .output, code := "x" } Span.dummy)
    host.limit = none ∧
      (∀ links, ((Expr.compare (.quoted "a") (isB :: links) Span.dummy).eval host :
        Eval Value).outcome {} = (.ok (.bool false), { supply := 2 })) ∧
      ∃ v w', GetsPast host (.quoted "") [isOutput] {} v w' ∧ w'.runs.length = 1 ∧
        ∀ links, ((Expr.compare (.quoted "") (isOutput :: links) Span.dummy).eval host :
          Eval Value).outcome {} = (chainFrom host v links Span.dummy).outcome w' := by
  intro host isB isOutput
  let ran : Run := ⟨{ kind := .output, code := "x" }, {}, 0⟩
  have hisB : Answers host (.str ⟨[0]⟩ "a") isB { depth := 1, supply := 1 } (.str ⟨[1]⟩ "b") false
      { depth := 1, supply := 2 } :=
    ⟨{ depth := 1, supply := 2 }, .holds false, rfl, rfl, rfl⟩
  have hends : EndsInside host (.quoted "a") [isB] {} :=
    .inr ⟨.str ⟨[0]⟩ "a", { depth := 1, supply := 1 }, .ok false, { depth := 1, supply := 2 },
      rfl, .here (.isFalse hisB)⟩
  have hpast : GetsPast host (.quoted "") [isOutput] {} (.str ⟨[1]⟩ "")
      { supply := 2, runs := [ran] } :=
    ⟨.str ⟨[0]⟩ "", { depth := 1, supply := 1 }, { depth := 1, supply := 2, runs := [ran] },
      rfl, .cons rfl ⟨{ depth := 1, supply := 2, runs := [ran] }, .holds true,
        rfl, rfl, rfl⟩ (.nil _ _), rfl⟩
  obtain ⟨hsame, -⟩ := compare_append host rfl (.quoted "a") [isB] Span.dummy Span.dummy {}
  obtain ⟨-, hgoes⟩ := compare_append host rfl (.quoted "") [isOutput] Span.dummy Span.dummy {}
  obtain ⟨v, w', hpast', halone, hgoes⟩ := hgoes hpast.not_endsInside
  have hfalse : ((Expr.compare (.quoted "a") [isB] Span.dummy).eval host : Eval Value).outcome {} =
      (.ok (.bool false), { supply := 2 }) :=
    getsPast_quoted.outcome_link hisB [] Span.dummy
  have htrue : ((Expr.compare (.quoted "") [isOutput] Span.dummy).eval host :
      Eval Value).outcome {} = (.ok (.bool true), { supply := 2, runs := [ran] }) :=
    hpast.outcome [] Span.dummy
  have hw : w' = { supply := 2, runs := [ran] } := congrArg Prod.snd (halone.symm.trans htrue)
  exact ⟨rfl, fun links => (hsame hends links).trans hfalse, v, w', hpast', by rw [hw]; rfl, hgoes⟩

/-- **Of the two negated pattern operators only that of globs ends every chain.** Past some links, a
link by one of them that is answered gives the result of the chain, whatever comes after it, just if
it is by `!~~` or not true. A true link by `!~` leaves the chain to the links after it. -/
theorem compare_negated {host : Host} {first : Expr} {before : List ChainLink} {k : ChainLink}
    {left right : Value} {b : Bool} {w w₁ w₂ : World} (span : Span)
    (hop : k.1.1 = .notGlob ∨ k.1.1 = .notRegex) (hpast : GetsPast host first before w left w₁)
    (h : Answers host left k w₁.deeper right b w₂) :
    ((∀ after, ((Expr.compare first (before ++ k :: after) span).eval host : Eval Value).outcome w =
        (.ok (.bool b), w₂.shallower)) ↔ k.1.1 = .notGlob ∨ b = false) ∧
      (k.1.1 = .notRegex → b = true → ∀ after,
        ((Expr.compare first (before ++ k :: after) span).eval host : Eval Value).outcome w =
          (chainFrom host right after span).outcome w₂.shallower) := by
  have hlink := fun after => hpast.outcome_link h after span
  have hfinal : (k.1.1.isFinal || !b) = true ↔ k.1.1 = .notGlob ∨ b = false := by
    obtain hop | hop := hop <;> rw [hop] <;> simp [CompareOp.isFinal]
  refine ⟨⟨fun hends => ?_, fun hor after => ?_⟩, fun hop hb after => ?_⟩
  · -- a link that fails would show if the chain came to it
    rw [← hfinal]
    by_contra hgoes
    obtain ⟨stray, hstray⟩ := exists_failing_chain host span
    obtain ⟨e, w', hfails⟩ := hstray right w₂.shallower
    have hout := (hends [stray]).symm.trans (hlink [stray])
    rw [if_neg hgoes, hfails] at hout
    cases hout
  · rw [hlink, if_pos (hfinal.2 hor)]
  · rw [hlink, if_neg (by simp [hop, hb, CompareOp.isFinal])]

/-- `'a' !~ 'b'` is true. -/
theorem answers_quoted : Answers ({} : Tables).host (.str ⟨[0]⟩ "a")
    ((.notRegex, Span.dummy), .quoted "b") ({ supply := 1 } : World).deeper (.str ⟨[1]⟩ "b") true
    { depth := 1, supply := 2 } := by
  have hmiss : Verdict.of "b" "a" = .miss := by decide +kernel
  have hmatch : (regexMatch false Span.dummy (.str ⟨[0]⟩ "a") (.str ⟨[1]⟩ "b")).outcome
      { depth := 1, supply := 2 } = (.ok false, { depth := 1, supply := 2 }) := by
    rw [regexMatch, patternOf, pure_bind]
    simp only [hmiss]
    rfl
  refine ⟨{ depth := 1, supply := 2 }, .holds true, rfl, ?_, rfl⟩
  rw [link, Call.outcome_map, hmatch]
  rfl

/-- `'a' !~~ 'b'` is the result of its chain; `'a' !~ 'b'` leaves the chain to what comes after. -/
theorem compare_negated_quoted :
    let host := ({} : Tables).host
    let glob : ChainLink := ((.notGlob, Span.dummy), .quoted "b")
    let regex : ChainLink := ((.notRegex, Span.dummy), .quoted "b")
    (∀ after, ((Expr.compare (.quoted "a") (glob :: after) Span.dummy).eval host :
        Eval Value).outcome {} = (.ok (.bool true), { supply := 2 })) ∧
      ∀ after, ((Expr.compare (.quoted "a") (regex :: after) Span.dummy).eval host :
        Eval Value).outcome {} =
          (chainFrom host (.str ⟨[1]⟩ "b") after Span.dummy).outcome { supply := 2 } := by
  intro host glob regex
  have hglob : Answers host (.str ⟨[0]⟩ "a") glob ({ supply := 1 } : World).deeper (.str ⟨[1]⟩ "b")
      true { depth := 1, supply := 2 } := by
    have helements : Glob.elements ['b'] = [.literal 'b'] := by simp [Glob.elements]
    have hmiss : Glob.isMatch "b".toList "a".toList = false := by
      simp [Glob.isMatch, helements, Glob.run, Glob.Element.accepts]
    refine ⟨{ depth := 1, supply := 2 }, .ends true, rfl, ?_, rfl⟩
    rw [link, Call.outcome_map, globMatch]
    simp only [hmiss]
    rfl
  exact ⟨(compare_negated Span.dummy (.inl rfl) getsPast_quoted hglob).1.2 (.inl rfl),
    (compare_negated Span.dummy (.inr rfl) getsPast_quoted answers_quoted).2 rfl rfl⟩

/-- `'a' !~ 'b' === 'c'` comes to its negated match and goes past it. The match is true, but the
chain is false. -/
theorem negated_match_goes_on :
    let host := ({} : Tables).host
    let regex : ChainLink := ((.notRegex, Span.dummy), .quoted "b")
    let isC : ChainLink := ((.eq, Span.dummy), .quoted "c")
    (∃ left right w₁ w₂, GetsPast host (.quoted "a") [] {} left w₁ ∧
      Answers host left regex w₁.deeper right true w₂) ∧
    ((Expr.compare (.quoted "a") [regex, isC] Span.dummy).eval host : Eval Value).outcome {} =
      (.ok (.bool false), { supply := 3 }) := by
  intro host regex isC
  refine ⟨⟨_, _, _, _, getsPast_quoted, answers_quoted⟩, ?_⟩
  exact getsPast_quoted.outcome_link answers_quoted [isC] Span.dummy

end ShellExpr
