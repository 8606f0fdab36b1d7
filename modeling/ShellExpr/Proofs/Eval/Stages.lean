import ShellExpr.Proofs.Eval.Places
import ShellExpr.Proofs.Eval.Sessions

/-!
# Two runs that allocate in different places

Two ways of writing one thing may take handles in different places. The second run makes all
allocations of the first and others between them, so which number an allocation has in the second is
known once it is made, and not before. A stage tells how much is known, and what holds at a stage
holds at all later ones.

* `Stage`: the allocations made so far in the first run, and their numbers in the second.
* `Stage.Pairs`: results that are the same, whatever numbers later allocations get.
* `Comparison.Alike`: computations that end alike at some later stage.
* `Comparison.Alike.bind`, `Comparison.Alike.skip`: one step after the other, and an allocation that
  only the second run makes.
* `Comparison.alike_of_corresponds`: what corresponds step by step under all numberings ends alike.
* `Comparison.Alike.outcome`: **two such runs from one world end alike**, up to the numbers of new
  allocations.
-/

namespace ShellExpr

open Eval

/-! ### Stages -/

/-- How the allocations of one run, made and to come, are numbered in another that makes others
too. -/
structure Stage where
  number : Nat → Nat
  mono : StrictMono number
  /-- The next allocation of the first run. The numbers from here on may turn out higher. -/
  next : Nat

namespace Stage

variable {s t : Stage} {α β : Type} {g : (Nat → Nat) → α → β} {a : α} {b : β} {ρ : Nat → Nat}

/-- At a later stage the allocations of the earlier one have their numbers. -/
instance : Preorder Stage where
  le s t := s.next ≤ t.next ∧ ∀ n < s.next, t.number n = s.number n
  le_refl s := ⟨Nat.le_refl _, fun _ _ => rfl⟩
  le_trans s t u hst htu := by
    refine ⟨Nat.le_trans hst.1 htu.1, fun n hn => ?_⟩
    rw [htu.2 n (Nat.lt_of_lt_of_le hn hst.1), hst.2 n hn]

/-- Whether a numbering may come out in the end. -/
structure Admits (s : Stage) (ρ : Nat → Nat) : Prop where
  mono : StrictMono ρ
  agrees : ∀ n < s.next, ρ n = s.number n

theorem admits_self (s : Stage) : s.Admits s.number := ⟨s.mono, fun _ _ => rfl⟩

theorem Admits.of_le (h : t.Admits ρ) (hst : s ≤ t) : s.Admits ρ :=
  ⟨h.mono, fun n hn => (h.agrees n (Nat.lt_of_lt_of_le hn hst.1)).trans (hst.2 n hn)⟩

/-- Whether the result of the second run is that of the first under all numberings that may come
out. -/
def Pairs (s : Stage) (g : (Nat → Nat) → α → β) (a : α) (b : β) : Prop :=
  ∀ ρ, s.Admits ρ → b = g ρ a

theorem Pairs.later (h : s.Pairs g a b) (hst : s ≤ t) : t.Pairs g a b :=
  fun ρ hρ => h ρ (hρ.of_le hst)

theorem Pairs.eq (h : s.Pairs g a b) : b = g s.number a := h s.number s.admits_self

/-- Rows of results are pairs one by one. -/
theorem Pairs.forall₂ {xs : List α} {ys : List β}
    (h : s.Pairs (fun ρ => List.map (g ρ)) xs ys) : List.Forall₂ (s.Pairs g) xs ys := by
  obtain rfl := h.eq
  induction xs with
  | nil => exact .nil
  | cons x rest ih =>
    exact .cons (fun ρ hρ => (List.cons.inj (h ρ hρ)).1)
      (ih fun ρ hρ => (List.cons.inj (h ρ hρ)).2)

/-- The stage with the numbers known below a bound. -/
def first (bound : Nat) : Stage := ⟨id, strictMono_id, bound⟩

/-- The stage after an allocation that only the second run makes. -/
def raise (s : Stage) : Stage where
  number := raiseFrom s.number s.next (s.number s.next + 1)
  mono := strictMono_raiseFrom s.mono (Nat.le_succ _)
  next := s.next

/-- The stage after allocations that both runs make, up to a number in the first. -/
def upTo (s : Stage) (last : Nat) : Stage := { s with next := last }

theorem le_raise (s : Stage) : s ≤ s.raise := ⟨Nat.le_refl _, fun _ => raiseFrom_of_lt⟩

theorem le_upTo {last : Nat} (h : s.next ≤ last) : s ≤ s.upTo last := ⟨h, fun _ _ => rfl⟩

/-- The worlds of two runs at a stage, if they have had the same numbers below a bound. -/
structure Fits (bound : Nat) (s : Stage) (w w' : World) : Prop where
  started : first bound ≤ s
  next : w.supply = s.next
  supply : ∀ i, s.number (s.next + i) = w'.supply + i
  lookup : ∀ name, s.Pairs (fun ρ => Option.map (Value.rename ρ))
    (w.store.lookup name .localOrGlobal) (w'.store.lookup name .localOrGlobal)
  groups : w'.store.groups = w.store.groups
  options : w'.options = w.options
  depth : w'.depth = w.depth
  runs : w'.runs = w.runs

namespace Fits

variable {bound : Nat} {w w' : World}

/-- Both runs start in one world. -/
theorem start (ha : w.Allocated) : (first w.supply).Fits w.supply w w where
  started := le_refl _
  next := rfl
  supply _ := rfl
  lookup name _ hρ := (ha.lookup_rename hρ.agrees name).symm
  groups := rfl
  options := rfl
  depth := rfl
  runs := rfl

theorem mapDepth (h : s.Fits bound w w') (f : Nat → Nat) :
    s.Fits bound { w with depth := f w.depth } { w' with depth := f w'.depth } :=
  { h with depth := congrArg f h.depth }

theorem mapOptions (h : s.Fits bound w w') (f : OptionStack → OptionStack) :
    s.Fits bound { w with options := f w.options } { w' with options := f w'.options } :=
  { h with options := congrArg f h.options }

/-- The second run makes an allocation. -/
theorem raise (h : s.Fits bound w w') :
    s.raise.Fits bound w { w' with supply := w'.supply + 1 } where
  started := h.started.trans s.le_raise
  next := h.next
  supply i := by
    have hnow : s.number s.next = w'.supply := h.supply 0
    show raiseFrom s.number s.next (s.number s.next + 1) (s.next + i) = _
    rw [raiseFrom_add, hnow]
  lookup name := (h.lookup name).later s.le_raise
  groups := h.groups
  options := h.options
  depth := h.depth
  runs := h.runs

/-- The worlds mirror each other under every numbering that may come out. -/
theorem relates (h : s.Fits bound w w') {covers : Nat → Prop} (hρ : s.Admits ρ)
    (hcovers : ∀ n, covers n → ρ n = s.number n) :
    Mirror.Relates ⟨fun _ => True, ρ, covers, w.runs, w'.runs⟩ w w' where
  lookup name _ := h.lookup name ρ hρ
  groups := h.groups
  options := h.options
  depth := h.depth
  runs := ⟨[], (List.append_nil _).symm, (List.append_nil _).symm⟩
  supply i hi := by
    have hsupply := h.supply i
    rw [← h.next] at hsupply
    exact (hcovers _ hi).trans hsupply

end Fits

end Stage

/-! ### Computations -/

/-- Two errors for the same cause with the same text, at the same place if spans are compared. -/
structure EvalError.Agrees (spans : Prop) (e e' : EvalError) : Prop where
  cause : e'.withoutSpan = e.withoutSpan
  place : spans → e' = e

namespace EvalError.Agrees

variable {spans : Prop} {e e' : EvalError}

theorem refl (e : EvalError) : e.Agrees spans e := ⟨rfl, fun _ => rfl⟩

theorem classify (h : e.Agrees spans e') : e.classify.Agrees spans e'.classify where
  cause := by rw [withoutSpan_classify, withoutSpan_classify, h.cause]
  place hs := by rw [h.place hs]

end EvalError.Agrees

/-- The outcomes of two runs from one world: the second has the result of the first under a function
or the same error, and it has run the same commands and decided the same match groups. Errors are
the same up to their places, unless these are compared too. -/
structure Eval.Renumbers {α β : Type} (spans : Prop) (f : α → β) (o : Except EvalError α × World)
    (o' : Except EvalError β × World) : Prop where
  result : o'.1.mapError EvalError.withoutSpan = (o.1.map f).mapError EvalError.withoutSpan
  exact : spans → o'.1 = o.1.map f
  runs : o'.2.runs = o.2.runs
  groups : o'.2.store.groups = o.2.store.groups

/-- What two runs have in common. -/
structure Comparison where
  host : Host
  /-- The allocations that callables may know. -/
  bound : Nat
  /-- Whether errors are compared with their places. -/
  spans : Prop
  unlimited : host.limit = none
  uniform : host.IsUniform bound

namespace Comparison

variable {C : Comparison} {s t : Stage} {α α' β β' : Type} {g : (Nat → Nat) → α → α'}
  {k : (Nat → Nat) → β → β'}

/-- The ends of two runs: equal errors, or results that are pairs. -/
inductive Ends (C : Comparison) (s : Stage) (g : (Nat → Nat) → α → α') :
    Except EvalError α → Except EvalError α' → Prop where
  | ok {a : α} {a' : α'} (h : s.Pairs g a a') : Ends C s g (.ok a) (.ok a')
  | error {e e' : EvalError} (h : e.Agrees C.spans e') : Ends C s g (.error e) (.error e')

namespace Ends

variable {r : Except EvalError α} {r' : Except EvalError α'}

theorem result (h : C.Ends s g r r') : r'.mapError EvalError.withoutSpan =
    (r.map (g s.number)).mapError EvalError.withoutSpan := by
  cases h with
  | ok h => rw [h.eq]; rfl
  | error h => exact congrArg Except.error h.cause

theorem exact (h : C.Ends s g r r') (hs : C.spans) : r' = r.map (g s.number) := by
  cases h with
  | ok h => rw [h.eq]; rfl
  | error h => exact congrArg Except.error (h.place hs)

end Ends

/-- Whether two computations, from worlds at a stage or at a later one, end alike at a still later
stage. -/
def Alike (C : Comparison) (s : Stage) (g : (Nat → Nat) → α → α') (x : Eval α) (y : Eval α') :
    Prop :=
  ∀ t, s ≤ t → ∀ w w', t.Fits C.bound w w' → ∃ u, t ≤ u ∧
    u.Fits C.bound (x.outcome w).2 (y.outcome w').2 ∧
    C.Ends u g (x.outcome w).1 (y.outcome w').1

/-- A numbering that may come out changes nothing that callables may know. -/
theorem commutes (C : Comparison) {ρ : Nat → Nat} (hs : Stage.first C.bound ≤ s)
    (hρ : s.Admits ρ) : C.host.Commutes ρ :=
  C.uniform ρ hρ.mono.injective (hρ.of_le hs).agrees

namespace Alike

theorem pure {a : α} {a' : α'} (h : s.Pairs g a a') : C.Alike s g (pure a) (pure a') :=
  fun t hst _ _ hw => ⟨t, le_rfl, hw, .ok (h.later hst)⟩

theorem fail {e e' : EvalError} (h : e.Agrees C.spans e') :
    C.Alike s g (Eval.fail e) (Eval.fail e') :=
  fun t _ _ _ hw => ⟨t, le_rfl, hw, .error h⟩

/-- What comes next goes on from a later stage, where the results so far are still pairs. -/
theorem bind {x : Eval α} {y : Eval α'} {f : α → Eval β} {f' : α' → Eval β'}
    (hx : C.Alike s g x y)
    (hf : ∀ t, s ≤ t → ∀ a a', x.Gives a → t.Pairs g a a' → C.Alike t k (f a) (f' a')) :
    C.Alike s k (x >>= f) (y >>= f') := by
  intro t hst w w' hw
  obtain ⟨u, htu, hw, hends⟩ := hx t hst w w' hw
  have hg : ∀ a, (x.outcome w).1 = .ok a → x.Gives a := fun a ha => ⟨w, ha⟩
  rw [outcome_bind, outcome_bind]
  generalize x.outcome w = o at hw hends hg ⊢
  generalize y.outcome w' = o' at hw hends ⊢
  obtain ⟨r, v⟩ := o
  obtain ⟨r', v'⟩ := o'
  cases hends with
  | error he => exact ⟨u, htu, hw, .error he⟩
  | ok ha =>
    obtain ⟨u', huu', hend⟩ := hf u (hst.trans htu) _ _ (hg _ rfl) ha u le_rfl v v' hw
    exact ⟨u', htu.trans huu', hend⟩

/-- An allocation that only the second run makes. -/
theorem skip {x : Eval α} {f : Handle → Eval α'} (h : ∀ h', C.Alike s g x (f h')) :
    C.Alike s g x (fresh >>= f) := by
  intro t hst w w' hw
  obtain ⟨u, htu, hend⟩ := h ⟨[w'.supply]⟩ t.raise (hst.trans t.le_raise) w _ hw.raise
  exact ⟨u, t.le_raise.trans htu, hend⟩

theorem nested {x : Eval α} {y : Eval α'} (hx : C.Alike s g x y) (span span' : Span) :
    C.Alike s g (nested C.host.limit span x) (nested C.host.limit span' y) := by
  intro t hst w w' hw
  rw [C.unlimited]
  obtain ⟨u, htu, hw, hends⟩ := hx t hst _ _ (hw.mapDepth (· + 1))
  exact ⟨u, htu, hw.mapDepth (· - 1), hends⟩

end Alike

/-- **What corresponds step by step under all numberings ends alike.** -/
theorem alike_of_corresponds (order : List CommandSub) {x : Eval α} {y : Eval α'}
    (hxy : ∀ ρ, s.Admits ρ →
      ∀ R : {α β : Type} → List CommandSub → (α → β) → Eval α → Eval β → Prop,
        Corresponds C.host ρ (fun _ => True) False R → R order (g ρ) x y) :
    C.Alike s g x y := by
  intro t hst w w' hw
  have hfollows : ∀ ρ, t.Admits ρ → ∀ covers, Mirror.Follows
      ⟨fun _ => True, ρ, covers, w.runs, w'.runs⟩ (g ρ) x y := fun ρ hρ covers =>
    hxy ρ (hρ.of_le hst) _
      (Mirror.corresponds (μ := ⟨fun _ => True, ρ, covers, w.runs, w'.runs⟩) hρ.mono.injective
        (C.commutes hw.started hρ))
  have hgrows := (hfollows t.number t.admits_self fun _ => True).grows w
  generalize hlast : (x.outcome w).2.supply = last at hgrows
  have hle : t ≤ t.upTo last := Stage.le_upTo (hw.next ▸ hgrows)
  -- the new allocations have their numbers from here on, whatever comes later
  have hends : ∀ ρ, (t.upTo last).Admits ρ → (y.outcome w').1 = (x.outcome w).1.map (g ρ) ∧
      Mirror.Relates ⟨fun _ => True, ρ, (· < last), w.runs, w'.runs⟩ (x.outcome w).2
        (y.outcome w').2 := fun ρ hρ =>
    (hfollows ρ (hρ.of_le hle) (· < last)).ends w w' (hw.relates (hρ.of_le hle) hρ.agrees)
      fun n hn => hlast ▸ hn
  obtain ⟨hres, hrel⟩ := (hfollows t.number t.admits_self fun _ => True).ends w w'
    (hw.relates t.admits_self fun _ _ => rfl) fun _ _ => trivial
  refine ⟨t.upTo last, hle, ?_, ?_⟩
  · obtain ⟨new, hn, hn'⟩ := hrel.runs
    exact
      { started := hw.started.trans hle
        next := hlast
        supply := fun i => hlast ▸ hrel.supply i trivial
        lookup := fun name ρ hρ => (hends ρ hρ).2.lookup name trivial
        groups := hrel.groups
        options := hrel.options
        depth := hrel.depth
        runs := by rw [hn', hn, hw.runs] }
  · rw [hres]
    cases hr : (x.outcome w).1 with
    | error e => exact .error (.refl e)
    | ok a =>
      refine .ok fun ρ hρ => ?_
      have h := hres.symm.trans (hends ρ hρ).1
      rw [hr] at h
      exact Except.ok.inj h

/-! ### Steps -/

namespace Alike

/-- Two runs of one expression. -/
theorem eval (e : Expr) : C.Alike s Value.rename (e.eval C.host) (e.eval C.host) :=
  alike_of_corresponds _ fun _ _ _ hR => hR.eval e fun n _ => ⟨n.readsIn_true, False.elim⟩

theorem fresh : C.Alike s Handle.rename fresh fresh :=
  alike_of_corresponds [] fun _ _ _ hR => hR.fresh

/-- A new value at a new allocation. -/
theorem alloc {f f' : Handle → Value}
    (hf : ∀ ρ, s.Admits ρ → ∀ h, f' (h.rename ρ) = (f h).rename ρ) :
    C.Alike s Value.rename (do return f (← Eval.fresh)) (do return f' (← Eval.fresh)) :=
  alike_of_corresponds [] fun ρ hρ _ hR => hR.alloc (hf ρ hρ)

theorem ofFault {r : Except Fault α} {r' : Except Fault α'} {span span' : Span}
    (h : s.Pairs (fun ρ => Except.map (g ρ)) r r') (hspan : C.spans → span' = span) :
    C.Alike s g (ofFault span r) (ofFault span' r') := by
  obtain rfl := h.eq
  cases r with
  | error f =>
    refine fail ⟨?_, fun hs => by rw [hspan hs]⟩
    rw [EvalError.withoutSpan_near, EvalError.withoutSpan_near]
  | ok a => exact pure fun ρ hρ => Except.ok.inj (h ρ hρ)

/-- The value of a variable is looked up at two places of the source. -/
theorem lookup (name : String) {span span' : Span} (hspan : C.spans → span' = span) :
    C.Alike s Value.rename (lookup name span) (lookup name span') := by
  intro t _ w w' hw
  have hpair := hw.lookup name
  rw [outcome_lookup, outcome_lookup]
  cases hv : w.store.lookup name .localOrGlobal with
  | none =>
    rw [hv] at hpair
    rw [hpair.eq]
    exact ⟨t, le_rfl, hw, .error ⟨rfl, fun hs => by rw [hspan hs]⟩⟩
  | some v =>
    rw [hv] at hpair
    rw [hpair.eq]
    exact ⟨t, le_rfl, hw, .ok fun ρ hρ => Option.some.inj (hpair.eq.symm.trans (hpair ρ hρ))⟩

theorem classified {x : Eval α} {y : Eval α'} (h : C.Alike s g x y) :
    C.Alike s g (classified x) (classified y) := by
  intro t hst w w' hw
  obtain ⟨u, htu, hw, hends⟩ := h t hst w w' hw
  refine ⟨u, htu, hw, ?_⟩
  show C.Ends u g ((x.outcome w).1.mapError _) ((y.outcome w').1.mapError _)
  generalize (x.outcome w).1 = r at hends ⊢
  generalize (y.outcome w').1 = r' at hends ⊢
  cases hends with
  | ok ha => exact .ok ha
  | error he => exact .error he.classify

theorem withFlags {x : Eval α} {y : Eval α'} (flags : Flags) (h : C.Alike s g x y) :
    C.Alike s g (withFlags flags x) (withFlags flags y) := by
  intro t hst w w' hw
  obtain ⟨u, htu, hw, hends⟩ := h t hst _ _ (hw.mapOptions (OptionStack.push flags))
  exact ⟨u, htu, hw.mapOptions OptionStack.pop, hends⟩

/-- **Two runs that start in one world end alike**: the second has the results of the first with
other numbers for the allocations since, or it fails with the error of the first, and it has run the
same commands and decided the same match groups. -/
theorem outcome {x : Eval α} {y : Eval α'} (h : C.Alike (.first C.bound) g x y) {w : World}
    (hw : w.supply = C.bound) (ha : w.Allocated) :
    ∃ ρ, StrictMono ρ ∧ (∀ n < w.supply, ρ n = n) ∧
      Renumbers C.spans (g ρ) (x.outcome w) (y.outcome w) := by
  obtain ⟨u, hu, hfits, hends⟩ := h _ le_rfl w w (hw ▸ Stage.Fits.start ha)
  exact ⟨u.number, u.mono, hw ▸ hu.2, hends.result, hends.exact, hfits.runs, hfits.groups⟩

end Alike

end Comparison

end ShellExpr
