import ShellExpr.Host.Tables
import ShellExpr.Proofs.Eggex.Leaves
import ShellExpr.Proofs.Eval.Abstraction

/-!
# Splicing is substitution

To splice the eggex of a variable is to write its tree in the place of the name. What is in the tree
is compiled already, and compilation leaves it as it is.

Words and variables are looked up outside, by parties that may change as they answer. So compilation
is told once more with answers that are effects of a monad. What holds for all monads holds for a
word evaluator with a state and for one that notes what it is asked, and a tree that is compiled to
itself in all of them is compiled without a question.

* `Sources`, `Eggex.compileIn`: compilation with answers in a monad.
* `Eggex.run_compileIn`: answers without effects give `Eggex.compile`.
* `Eggex.substitute`: a tree in place of the splices of a name.
* `Eggex.compileIn_of_isCanonical`: **a canonical tree is compiled to itself**; nothing is asked.
* `evalEggex_substitute`: **splicing is substitution.**
-/

namespace ShellExpr

/-- Where words and variables come from, each answer an effect of a monad. A word in single quotes
is a literal and asked of nobody. -/
structure Sources (m : Type → Type) where
  doubleQuoted : DoubleQuoted → ExceptT EvalError m String
  braced : BracedVarSub → ExceptT EvalError m String
  simple : SimpleVarSub → ExceptT EvalError m String
  lookup : String → m (Option Value)

/-- What a splice gives, from the value of its variable. -/
def Eggex.spliced (name : Token) : Option Value → Except EvalError Eggex
  | none => .error ((Fault.undefined name.text).placed name.span)
  | some v =>
    match v.eggex? with
    | some e => .ok e.tree
    | none => .error ((Fault.eggex (.splice v.typeName)).placed name.span)

/-- The answers of a scope, without effects. -/
def Sources.ofScope (scope : EggexScope) : Sources Id where
  doubleQuoted w := ExceptT.mk (scope.words.doubleQuoted w)
  braced b := ExceptT.mk (scope.words.braced b)
  simple b := ExceptT.mk (scope.words.simple b)
  lookup := scope.lookup

section Monads

variable {m : Type → Type} [Monad m]

/-- A result that takes no question. -/
def settled {α : Type} (r : Except EvalError α) : ExceptT EvalError m α := ExceptT.mk (pure r)

/-- The text of a word. -/
def Sources.string (s : Sources m) : StringWord → ExceptT EvalError m String
  | .single w => settled (Literal.singleQuoted w)
  | .double w => s.doubleQuoted w
  | .braced b => s.braced b
  | .simple b => s.simple b

/-- The tree of the eggex that a variable holds. -/
def Sources.splice (s : Sources m) (name : Token) : ExceptT EvalError m Eggex := do
  settled (Eggex.spliced name (← s.lookup name.text))

namespace ClassTerm

/-- The canonical form of a term. -/
def compileIn (s : Sources m) : ClassTerm → ExceptT EvalError m ClassTerm
  | word w => do settled (ofString (← s.string w) w.span)
  | charLiteral tok => do return (← settled (Literal.classTerm? tok)).getD (charLiteral tok)
  | term => pure term

/-- The canonical forms of several terms. -/
def compileAllIn (s : Sources m) : List ClassTerm → ExceptT EvalError m (List ClassTerm)
  | [] => pure []
  | t :: rest => do
    let t ← compileIn s t
    return t :: (← compileAllIn s rest)

end ClassTerm

namespace Eggex

mutual

/-- The canonical form of a tree. -/
def compileIn (s : Sources m) : Eggex → ExceptT EvalError m Eggex
  | speck .dot span => pure (primitive .dot span)
  | speck .caret span => pure (primitive .start span)
  | speck .dollar span => pure (primitive .stop span)
  | token tok => settled (compileToken tok)
  | word w => do return literal (← s.string w) w.span
  | splice name => s.splice name
  | seq items => do return seq (← compileAllIn s items)
  | alt items => do return alt (← compileAllIn s items)
  | rep child count => do return rep (← compileIn s child) count
  | group child => do return group (← compileIn s child)
  | capture child name => do return capture (← compileIn s child) name
  | charClass negated terms => do return charClass negated (← ClassTerm.compileAllIn s terms)
  | posix negated name => pure (posix negated name)
  | perl negated name => pure (perl negated name)
  | primitive id span => pure (primitive id span)
  | literal text span => pure (literal text span)

/-- The canonical forms of several trees. -/
def compileAllIn (s : Sources m) : List Eggex → ExceptT EvalError m (List Eggex)
  | [] => pure []
  | t :: rest => do
    let t ← compileIn s t
    return t :: (← compileAllIn s rest)

end

end Eggex

end Monads

/-! ### Answers without effects -/

section Scopes

variable {α β : Type}

/-- Answers without effects are results, and one computation after another is as for results. -/
theorem run_bind (x : ExceptT EvalError Id α) (f : α → ExceptT EvalError Id β) :
    (x >>= f).run = Except.bind x.run fun a => (f a).run := by
  show ExceptT.bindCont f x.run = _
  cases x.run <;> rfl

theorem run_map (x : ExceptT EvalError Id α) (f : α → β) :
    (do return f (← x) : ExceptT EvalError Id β).run = Except.map f x.run := by
  show (x >>= fun a => pure (f a)).run = _
  rw [run_bind]
  cases x.run <;> rfl

variable (scope : EggexScope)

theorem Sources.run_string (w : StringWord) :
    ((Sources.ofScope scope).string w).run = scope.words.string w := by
  cases w <;> rfl

theorem Sources.run_splice (name : Token) :
    ((Sources.ofScope scope).splice name).run = Eggex.compileSplice scope name := by
  show Eggex.spliced name (scope.lookup name.text) = _
  unfold Eggex.compileSplice EggexScope.valueOf
  cases scope.lookup name.text with
  | none => rfl
  | some v =>
    show _ = (match v.eggex? with
      | some e => Except.ok e.tree
      | none => .error ((Fault.eggex (.splice v.typeName)).placed name.span))
    rfl

namespace ClassTerm

theorem run_compileIn (t : ClassTerm) :
    (t.compileIn (.ofScope scope)).run = t.compile scope.words := by
  cases t with
  | word w =>
    rw [compileIn, run_bind, Sources.run_string]
    rfl
  | charLiteral tok =>
    rw [compileIn, run_map]
    show (Literal.classTerm? tok).map _ = Except.bind (Literal.classTerm? tok) _
    cases Literal.classTerm? tok <;> rfl
  | _ => rfl

theorem run_compileAllIn (ts : List ClassTerm) :
    (compileAllIn (.ofScope scope) ts).run = compileAll scope.words ts := by
  induction ts with
  | nil => rfl
  | cons t rest ih =>
    rw [compileAllIn, compileAll, run_bind, run_compileIn]
    refine congrArg (Except.bind (t.compile scope.words)) (funext fun u => ?_)
    rw [run_map, ih]
    cases compileAll scope.words rest <;> rfl

end ClassTerm

namespace Eggex

theorem run_compileAllIn {ts : List Eggex}
    (ih : ∀ t ∈ ts, (t.compileIn (.ofScope scope)).run = t.compile scope) :
    (compileAllIn (.ofScope scope) ts).run = compileAll scope ts := by
  induction ts with
  | nil => rfl
  | cons t rest ih' =>
    rw [List.forall_mem_cons] at ih
    rw [compileAllIn, compileAll, run_bind, ih.1]
    refine congrArg (Except.bind (t.compile scope)) (funext fun u => ?_)
    rw [run_map, ih' ih.2]
    cases compileAll scope rest <;> rfl

/-- **Answers without effects give the canonical form.** -/
theorem run_compileIn (t : Eggex) : (t.compileIn (.ofScope scope)).run = t.compile scope := by
  induction t using leafInduction with
  | leaf t h =>
    cases t with
    | speck id span => cases id <;> rfl
    | word w => rw [compileIn, run_map, Sources.run_string, compile]
    | splice name => exact Sources.run_splice scope name
    | token _ | posix _ _ | perl _ _ | primitive _ _ | literal _ _ => rfl
    | _ => contradiction
  | charClass negated terms => rw [compileIn, run_map, ClassTerm.run_compileAllIn, compile]
  | seq items ih | alt items ih => rw [compileIn, run_map, run_compileAllIn scope ih, compile]
  | rep child count ih => rw [compileIn, run_map, ih, compile]
  | group child ih => rw [compileIn, run_map, ih, compile]
  | capture child name ih => rw [compileIn, run_map, ih, compile]

end Eggex

end Scopes

/-! ### Canonical trees -/

section Substitution

variable {m : Type → Type} [Monad m] {s : Sources m}

theorem ClassTerm.compileIn_of_isCanonical {t : ClassTerm} (h : t.isCanonical = true) :
    t.compileIn s = pure t := by
  cases t with
  | word _ | charLiteral _ => contradiction
  | _ => rfl

variable [LawfulMonad m]

theorem ClassTerm.compileAllIn_of_isCanonical {ts : List ClassTerm}
    (h : ts.all ClassTerm.isCanonical = true) : compileAllIn s ts = pure ts := by
  induction ts with
  | nil => rfl
  | cons t rest ih =>
    rw [List.all_cons, Bool.and_eq_true] at h
    rw [compileAllIn, compileIn_of_isCanonical h.1, pure_bind, ih h.2, pure_bind]

namespace Eggex

theorem compileAllIn_of_forall {ts : List Eggex} (h : ∀ t ∈ ts, t.compileIn s = pure t) :
    compileAllIn s ts = pure ts := by
  induction ts with
  | nil => rfl
  | cons t rest ih =>
    rw [List.forall_mem_cons] at h
    rw [compileAllIn, h.1, pure_bind, ih h.2, pure_bind]

/-- **A canonical tree is compiled to itself, and nothing is asked.** -/
theorem compileIn_of_isCanonical (t : Eggex) (h : t.isCanonical = true) :
    t.compileIn s = pure t := by
  induction t using leafInduction with
  | leaf t ht =>
    cases t with
    | posix _ _ | perl _ _ | primitive _ _ | literal _ _ => rfl
    | _ => contradiction
  | charClass negated terms =>
    rw [compileIn, ClassTerm.compileAllIn_of_isCanonical h, pure_bind]
  | seq items ih | alt items ih =>
    rw [isCanonical, allCanonical_iff] at h
    rw [compileIn, compileAllIn_of_forall fun t ht => ih t ht (h t ht), pure_bind]
  | rep child count ih => rw [compileIn, ih h, pure_bind]
  | group child ih => rw [compileIn, ih h, pure_bind]
  | capture child name ih => rw [compileIn, ih h, pure_bind]

/-! ### Substitution -/

mutual

/-- The tree with `r` in place of every splice of a name. -/
def substitute (t : Eggex) (name : String) (r : Eggex) : Eggex :=
  match t with
  | splice tok => if tok.text = name then r else splice tok
  | seq items => seq (substituteAll items name r)
  | alt items => alt (substituteAll items name r)
  | rep child count => rep (child.substitute name r) count
  | group child => group (child.substitute name r)
  | capture child tok => capture (child.substitute name r) tok
  | speck .. | token _ | word _ | posix .. | perl .. => t
  | charClass .. | primitive .. | literal .. => t
termination_by structural t

/-- The same for several trees. -/
def substituteAll (ts : List Eggex) (name : String) (r : Eggex) : List Eggex :=
  match ts with
  | [] => []
  | t :: rest => t.substitute name r :: substituteAll rest name r
termination_by structural ts

end

variable {name : String} {r : Eggex}

omit [LawfulMonad m] in
theorem compileAllIn_substitute {ts : List Eggex}
    (ih : ∀ t ∈ ts, (t.substitute name r).compileIn s = t.compileIn s) :
    compileAllIn s (substituteAll ts name r) = compileAllIn s ts := by
  induction ts with
  | nil => rfl
  | cons t rest ih' =>
    rw [List.forall_mem_cons] at ih
    rw [substituteAll, compileAllIn, compileAllIn, ih.1, ih' ih.2]

/-- A tree in place of the splices of a name that stands for it is compiled as these are. -/
theorem compileIn_substitute (hr : r.isCanonical = true)
    (hs : ∀ tok : Token, tok.text = name → s.splice tok = pure r) (t : Eggex) :
    (t.substitute name r).compileIn s = t.compileIn s := by
  induction t using leafInduction with
  | leaf t ht =>
    cases t with
    | splice tok =>
      rw [substitute]
      split_ifs with htext
      · rw [compileIn_of_isCanonical r hr, compileIn, hs tok htext]
      · rfl
    | speck _ _ | token _ | word _ | posix _ _ | perl _ _ | primitive _ _ | literal _ _ => rfl
    | _ => contradiction
  | charClass negated terms => rfl
  | seq items ih | alt items ih => rw [substitute, compileIn, compileAllIn_substitute ih, compileIn]
  | rep child count ih => rw [substitute, compileIn, ih, compileIn]
  | group child ih => rw [substitute, compileIn, ih, compileIn]
  | capture child tok ih => rw [substitute, compileIn, ih, compileIn]

end Eggex

/-- A variable that holds an eggex is spliced as its tree, without the flags. -/
theorem Sources.splice_of_lookup {name : String} {h : Handle} {e : EggexValue}
    (hl : s.lookup name = pure (some (.eggex h e))) (tok : Token) (htext : tok.text = name) :
    s.splice tok = pure e.tree := by
  have hlift : (liftM (s.lookup tok.text) : ExceptT EvalError m (Option Value)) =
      pure (some (.eggex h e)) := by
    rw [htext, hl]
    exact liftM_pure _
  rw [splice, hlift, pure_bind]
  rfl

end Substitution

/-! ### Evaluation -/

open Eval

/-- **Splicing is substitution.** Where a variable holds an eggex with a canonical tree, a tree and
the tree with that one in place of the splices are compiled alike: to the same tree or with the same
error, whatever the flags of the eggex, and with the same effects if words and variables have any. A
canonical tree is compiled to itself in every world, and without effect in every monad, so that
neither words nor variables are asked. -/
theorem evalEggex_substitute {m : Type → Type} [Monad m] [LawfulMonad m] (s : Sources m)
    (host : Host) (w : World) :
    (∀ name h e, w.store.lookup name .localOrGlobal = some (.eggex h e) →
      e.tree.isCanonical = true → ∀ t : Eggex,
        (evalEggex host (t.substitute name e.tree)).outcome w = (evalEggex host t).outcome w) ∧
    (∀ name h e, s.lookup name = pure (some (.eggex h e)) → e.tree.isCanonical = true →
      ∀ t : Eggex, (t.substitute name e.tree).compileIn s = t.compileIn s) ∧
    ∀ t : Eggex, t.isCanonical = true →
      (evalEggex host t).outcome w = (.ok t, w) ∧ t.compileIn s = pure t := by
  have houtcome (t : Eggex) : (evalEggex host t).outcome w =
      ((t.compileIn (.ofScope (scopeOf host w.store))).run.bind (Eggex.asserted host.debug), w) := by
    rw [Eggex.run_compileIn]
    exact outcome_compileEggex host t w
  refine ⟨fun name h e hl hc t => ?_, fun name h e hl hc t => ?_, fun t hc => ⟨?_, ?_⟩⟩
  · have hsplice := Sources.splice_of_lookup (s := .ofScope (scopeOf host w.store)) hl
    rw [houtcome, houtcome, Eggex.compileIn_substitute hc hsplice]
  · exact Eggex.compileIn_substitute hc (Sources.splice_of_lookup hl) t
  · rw [houtcome, Eggex.compileIn_of_isCanonical t hc]
    exact congrArg (·, w) (Eggex.asserted_eq_ok_iff.mpr ⟨rfl, fun _ => hc⟩)
  · exact Eggex.compileIn_of_isCanonical t hc

/-- A variable that holds a canonical eggex. -/
def spliceWorld : World where
  store := { globals := [("x", .eggex ⟨[0]⟩ ⟨.literal "ab" .dummy, []⟩)] }

/-- Words that stand for another text each time, and a variable that holds an eggex with a flag. -/
def countingSources : Sources (StateM Nat) where
  doubleQuoted _ := ExceptT.mk fun n => (.ok (String.ofList (List.replicate n 'a')), n + 1)
  braced _ := ExceptT.mk fun n => (.ok "", n + 1)
  simple _ := ExceptT.mk fun n => (.ok "", n + 1)
  lookup _ := pure (some (.eggex ⟨[0]⟩ ⟨.literal "ab" .dummy, ["i"]⟩))

theorem evalEggex_substitute_counting :
    let word : Eggex := .word (.double ⟨[], .dummy⟩)
    let inner : Eggex := .literal "ab" .dummy
    let tree : Eggex := .seq [word, .splice ⟨.name, "x", .dummy⟩, word]
    let host := ({} : Tables).host
    countingSources.lookup "x" = pure (some (.eggex ⟨[0]⟩ ⟨inner, ["i"]⟩)) ∧
    spliceWorld.store.lookup "x" .localOrGlobal = some (.eggex ⟨[0]⟩ ⟨inner, []⟩) ∧
    inner.isCanonical = true ∧ tree.substitute "x" inner = .seq [word, inner, word] ∧
    (tree.compileIn countingSources).run 1 =
      (.ok (.seq [.literal "a" .dummy, inner, .literal "aa" .dummy]), 3) ∧
    (Eggex.seq [word, inner, word]).compileIn countingSources = tree.compileIn countingSources ∧
    (evalEggex host (.seq [word, inner, word])).outcome spliceWorld =
      (evalEggex host tree).outcome spliceWorld ∧
    (evalEggex host inner).outcome spliceWorld = (.ok inner, spliceWorld) ∧
    inner.compileIn countingSources = pure inner := by
  intro word inner tree host
  obtain ⟨hworld, hsources, hcanonical⟩ := evalEggex_substitute countingSources host spliceWorld
  exact ⟨rfl, rfl, rfl, rfl, rfl, hsources "x" ⟨[0]⟩ ⟨inner, ["i"]⟩ rfl rfl tree,
    hworld "x" ⟨[0]⟩ ⟨inner, []⟩ rfl rfl tree, hcanonical inner rfl⟩

end ShellExpr
