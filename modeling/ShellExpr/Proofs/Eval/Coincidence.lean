import ShellExpr.Proofs.Eval.Correspondence
import ShellExpr.Proofs.Eval.Trace

/-!
# What an evaluation depends on

An evaluation looks at the variables it names, the match groups, the flags and the depth, and at
nothing else of its world. Two worlds that agree on these give the same result and run the same
commands. Values may even differ in the numbers of their allocations, and the results then do so
too.

* `Mirror.Relates`: worlds that agree as far as an evaluation looks.
* `Mirror.Follows`: a computation whose two runs end alike.
* `evalExpr_coincides`: **the variables that an expression does not name have no influence**.
-/

namespace ShellExpr

open Eval

/-! ### Related worlds -/

/-- How two worlds are compared: by the variables that are seen, up to other numbers for the
allocations, and by the commands run since each had run its own. The numbers of new allocations
matter as far as they are covered. -/
structure Mirror where
  sees : String → Prop
  number : Nat → Nat
  covers : Nat → Prop
  past : List Run
  past' : List Run

namespace Mirror

/-- Two worlds that agree in what is compared. New allocations get numbers that correspond. -/
structure Relates (μ : Mirror) (w w' : World) : Prop where
  lookup : ∀ name, μ.sees name → w'.store.lookup name .localOrGlobal =
    (w.store.lookup name .localOrGlobal).map (Value.rename μ.number)
  groups : w'.store.groups = w.store.groups
  options : w'.options = w.options
  depth : w'.depth = w.depth
  runs : ∃ new, w.runs = μ.past ++ new ∧ w'.runs = μ.past' ++ new
  supply : ∀ i, μ.covers (w.supply + i) → μ.number (w.supply + i) = w'.supply + i

/-- Whether two computations end alike in related worlds: the second has the result of the first
under a function. The first never takes back an allocation, and those it has made must be
covered. -/
structure Follows (μ : Mirror) {α β : Type} (g : α → β) (x : Eval α) (y : Eval β) : Prop where
  grows : ∀ w, w.supply ≤ (x.outcome w).2.supply
  ends : ∀ w w', μ.Relates w w' → (∀ n < (x.outcome w).2.supply, μ.covers n) →
    (y.outcome w').1 = (x.outcome w).1.map g ∧ μ.Relates (x.outcome w).2 (y.outcome w').2

variable {μ : Mirror}

theorem Relates.mapDepth {w w' : World} (h : μ.Relates w w') (f : Nat → Nat) :
    μ.Relates { w with depth := f w.depth } { w' with depth := f w'.depth } :=
  ⟨h.lookup, h.groups, h.options, congrArg f h.depth, h.runs, h.supply⟩

theorem Relates.mapOptions {w w' : World} (h : μ.Relates w w') (f : OptionStack → OptionStack) :
    μ.Relates { w with options := f w.options } { w' with options := f w'.options } :=
  ⟨h.lookup, h.groups, congrArg f h.options, h.depth, h.runs, h.supply⟩

/-- A world agrees with itself. -/
theorem relates_self (sees : String → Prop) (w : World) :
    Relates ⟨sees, id, fun _ => True, w.runs, w.runs⟩ w w where
  lookup name _ := by
    rw [Value.rename_id, Option.map_id, id]
  groups := rfl
  options := rfl
  depth := rfl
  runs := ⟨[], by simp, by simp⟩
  supply _ _ := rfl

end Mirror

/-! ### Compiling eggexes -/

namespace Eggex

variable {scope scope' : EggexScope} {ρ : Nat → Nat}

theorem compileSplice_agree {name : Token}
    (h : scope'.lookup name.text = (scope.lookup name.text).map (Value.rename ρ)) :
    compileSplice scope' name = compileSplice scope name := by
  unfold compileSplice EggexScope.valueOf
  rw [h]
  cases scope.lookup name.text with
  | none => rfl
  | some v =>
    simp only [Option.map_some, Value.eggex?_rename, Value.typeName_rename, bind, Except.bind]

mutual

/-- The canonical form of a tree depends on the words and on the variables that it splices. -/
theorem compile_agree (hw : scope'.words = scope.words) : (t : Eggex) →
    (∀ name ∈ t.splices, scope'.lookup name = (scope.lookup name).map (Value.rename ρ)) →
    t.compile scope' = t.compile scope
  | speck .dot span, _ => rfl
  | speck .caret span, _ => rfl
  | speck .dollar span, _ => rfl
  | token tok, _ => rfl
  | word w, _ => by rw [compile, compile, hw]
  | splice name, h => by
    rw [compile, compile]
    exact compileSplice_agree (h _ List.mem_cons_self)
  | seq items, h => by rw [compile, compile, compileAll_agree hw items h]
  | alt items, h => by rw [compile, compile, compileAll_agree hw items h]
  | rep child count, h => by rw [compile, compile, compile_agree hw child h]
  | group child, h => by rw [compile, compile, compile_agree hw child h]
  | capture child name, h => by rw [compile, compile, compile_agree hw child h]
  | charClass negated terms, _ => by rw [compile, compile, hw]
  | posix negated name, _ => rfl
  | perl negated name, _ => rfl
  | primitive id span, _ => rfl
  | literal text span, _ => rfl

theorem compileAll_agree (hw : scope'.words = scope.words) : (ts : List Eggex) →
    (∀ name ∈ splicesAll ts, scope'.lookup name = (scope.lookup name).map (Value.rename ρ)) →
    compileAll scope' ts = compileAll scope ts
  | [], _ => rfl
  | t :: rest, h => by
    rw [splicesAll, List.forall_mem_append] at h
    rw [compileAll, compileAll, compile_agree hw t h.1, compileAll_agree hw rest h.2]

end

end Eggex

/-! ### Steps -/

namespace Mirror

variable {μ : Mirror} {host : Host} {α β : Type}

/-- A step that stays in its world. -/
theorem follows_of_world {g : α → β} {x : Eval α} {y : Eval β} (hx : ∀ w, (x.outcome w).2 = w)
    (hxy : ∀ w w', μ.Relates w w' →
      y.outcome w' = ((x.outcome w).1.map g, w')) : μ.Follows g x y where
  grows w := Nat.le_of_eq (congrArg World.supply (hx w)).symm
  ends w w' h _ := by
    rw [hxy w w' h, hx]
    exact ⟨rfl, h⟩

theorem follows_pure (g : α → β) (a : α) : μ.Follows g (pure a) (pure (g a)) :=
  follows_of_world (fun _ => rfl) fun _ _ _ => rfl

theorem follows_fail (g : α → β) (e : EvalError) : μ.Follows g (fail e) (fail e) :=
  follows_of_world (fun _ => rfl) fun _ _ _ => rfl

theorem follows_bind {α' β' : Type} {g : α → α'} {k : β → β'} {x : Eval α} {y : Eval α'}
    {f : α → Eval β} {f' : α' → Eval β'} (hx : μ.Follows g x y)
    (hf : ∀ a, x.Gives a → μ.Follows k (f a) (f' (g a))) : μ.Follows k (x >>= f) (y >>= f') where
  grows w := by
    have hs := hx.grows w
    have hg : ∀ a, (x.outcome w).1 = .ok a → x.Gives a := fun a ha => ⟨w, ha⟩
    rw [outcome_bind]
    generalize x.outcome w = o at hs hg ⊢
    obtain ⟨r, v⟩ := o
    cases r with
    | error e => exact hs
    | ok a => exact Nat.le_trans hs ((hf a (hg a rfl)).grows v)
  ends w w' h hcov := by
    have hg : ∀ a, (x.outcome w).1 = .ok a → x.Gives a := fun a ha => ⟨w, ha⟩
    have hends := hx.ends w w' h
    rw [outcome_bind] at hcov ⊢
    rw [outcome_bind]
    generalize x.outcome w = o at hends hg hcov ⊢
    generalize y.outcome w' = o' at hends ⊢
    obtain ⟨r, v⟩ := o
    obtain ⟨r', v'⟩ := o'
    cases r with
    | error e =>
      obtain ⟨hr, hw⟩ := hends hcov
      obtain rfl : r' = .error e := hr
      exact ⟨rfl, hw⟩
    | ok a =>
      -- what the first part allocates is covered, as the second takes none of it back
      have hfa := hf a (hg a rfl)
      obtain ⟨hr, hw⟩ := hends fun n hn => hcov n (Nat.lt_of_lt_of_le hn (hfa.grows v))
      obtain rfl : r' = .ok (g a) := hr
      exact hfa.ends v v' hw hcov

theorem follows_lookup {name : String} (hn : μ.sees name) (span : Span) :
    μ.Follows (Value.rename μ.number) (lookup name span) (lookup name span) := by
  refine follows_of_world (fun w => ?_) fun w w' h => ?_
  · rw [outcome_lookup]
    split <;> rfl
  · rw [outcome_lookup, outcome_lookup, h.lookup name hn]
    cases w.store.lookup name .localOrGlobal <;> rfl

theorem follows_fresh : μ.Follows (Handle.rename μ.number) fresh fresh where
  grows w := Nat.le_succ _
  ends w w' h hcov := by
    have hnow : μ.number w.supply = w'.supply := h.supply 0 (hcov w.supply (Nat.lt_succ_self _))
    refine ⟨?_, h.lookup, h.groups, h.options, h.depth, h.runs, fun i hi => ?_⟩
    · show Except.ok (Handle.mk [w'.supply]) = .ok ⟨[μ.number w.supply]⟩
      rw [hnow]
    · have hnext := h.supply (1 + i)
      rw [← Nat.add_assoc, ← Nat.add_assoc] at hnext
      exact hnext hi

theorem follows_compile {tree : Eggex} (ht : ∀ name ∈ tree.splices, μ.sees name) :
    μ.Follows id (compileEggex host tree) (compileEggex host tree) := by
  refine follows_of_world (fun w => by rw [outcome_compileEggex]) fun w w' h => ?_
  have hwords : (scopeOf host w'.store).words = (scopeOf host w.store).words := rfl
  have hc : tree.compileAsserting host.debug (scopeOf host w'.store) =
      tree.compileAsserting host.debug (scopeOf host w.store) := by
    unfold Eggex.compileAsserting
    rw [Eggex.compile_agree hwords tree fun name hn => h.lookup name (ht name hn)]
  rw [outcome_compileEggex, outcome_compileEggex, hc]
  cases tree.compileAsserting host.debug (scopeOf host w.store) <;> rfl

theorem follows_setGroups (groups : List String) :
    μ.Follows id (setGroups groups) (setGroups groups) where
  grows _ := Nat.le_refl _
  ends _ _ h _ := ⟨rfl, h.lookup, rfl, h.options, h.depth, h.runs, h.supply⟩

theorem follows_command (sub : CommandSub) :
    μ.Follows id (command host sub) (command host sub) where
  grows w := Nat.le_refl _
  ends w w' h _ := by
    obtain ⟨new, hn, hn'⟩ := h.runs
    have hflags : w'.options = w.options := h.options
    refine ⟨?_, h.lookup, h.groups, h.options, h.depth, ?_, h.supply⟩
    · show host.run sub w'.options.current = (host.run sub w.options.current).map id
      rw [hflags]
      cases host.run sub w.options.current <;> rfl
    · -- both note the command with the same flags
      refine ⟨new ++ [⟨sub, w.options.current, w.options.depth⟩], ?_, ?_⟩
      · show w.runs ++ _ = _
        rw [hn, List.append_assoc]
      · show w'.runs ++ [⟨sub, w'.options.current, w'.options.depth⟩] = _
        rw [hn', hflags, List.append_assoc]

theorem follows_nested {g : α → β} {x : Eval α} {y : Eval β} (limit : Option Nat) (span : Span)
    (hx : μ.Follows g x y) : μ.Follows g (nested limit span x) (nested limit span y) where
  grows w := by
    rw [outcome_nested]
    split
    · exact Nat.le_refl _
    · exact hx.grows { w with depth := w.depth + 1 }
  ends w w' h hcov := by
    rw [outcome_nested] at hcov ⊢
    rw [outcome_nested, h.depth]
    split at hcov
    · rename_i hlimit
      rw [if_pos hlimit, if_pos hlimit]
      exact ⟨rfl, h⟩
    · rename_i hlimit
      rw [if_neg hlimit, if_neg hlimit]
      have hd := h.mapDepth (· + 1)
      rw [h.depth] at hd
      obtain ⟨hr, hw⟩ := hx.ends _ _ hd hcov
      exact ⟨hr, hw.mapDepth (· - 1)⟩

theorem follows_withFlags {g : α → β} {x : Eval α} {y : Eval β} (flags : Flags)
    (hx : μ.Follows g x y) : μ.Follows g (withFlags flags x) (withFlags flags y) where
  grows w := hx.grows { w with options := w.options.push flags }
  ends w w' h hcov := by
    obtain ⟨hr, hw⟩ := hx.ends _ _ (h.mapOptions (OptionStack.push flags)) hcov
    exact ⟨hr, hw.mapOptions OptionStack.pop⟩

theorem follows_classified {g : α → β} {x : Eval α} {y : Eval β} (hx : μ.Follows g x y) :
    μ.Follows g (classified x) (classified y) where
  grows := hx.grows
  ends w w' h hcov := by
    obtain ⟨hr, hw⟩ := hx.ends w w' h hcov
    refine ⟨?_, hw⟩
    show ((y.outcome w').1.mapError EvalError.classify) =
      ((x.outcome w).1.mapError EvalError.classify).map g
    rw [hr]
    cases (x.outcome w).1 <;> rfl

/-- **Evaluation looks at nothing but what mirrored worlds have in common.** -/
theorem corresponds (hρ : Function.Injective μ.number) (hc : host.Commutes μ.number) :
    Corresponds host μ.number μ.sees False fun _ g x y => μ.Follows g x y where
  injective := hρ
  commutes := hc
  pure := follows_pure
  fail _ := follows_fail
  bind := follows_bind
  skip _ _ hx := hx
  fresh := follows_fresh
  lookup _ span hn := follows_lookup hn span
  compile _ ht := follows_compile ht
  setGroups := follows_setGroups
  command sub _ := follows_command sub
  nested span hx := follows_nested host.limit span hx

/-- An expression ends alike in mirrored worlds, if it reads variables that are seen. -/
theorem follows_evalExpr (hρ : Function.Injective μ.number) (hc : host.Commutes μ.number)
    {e : Expr} (he : ∀ n ∈ e.nodes, n.ReadsIn μ.sees) :
    μ.Follows (Value.rename μ.number) (evalExpr host e) (evalExpr host e) :=
  follows_withFlags _ (follows_classified
    ((corresponds hρ hc).eval e fun n hn => ⟨he n hn, False.elim⟩))

end Mirror

/-! ### Coincidence -/

/-- An expression reads the variables it names. -/
theorem Expr.readsIn_names {e : Expr} (he : e.ImplicitsNamed) :
    ∀ n ∈ e.nodes, n.ReadsIn (· ∈ e.names) := by
  intro n hn
  have hnames : ∀ name ∈ n.namesHere, name ∈ e.names := fun name hname =>
    List.mem_flatMap.mpr ⟨n, hn, hname⟩
  have hkeys : ∀ key ∈ n.implicitKeys, ∀ name, key.constName? = some name →
      name ∈ n.implicitKeys.filterMap constName? := fun key hkey name hc =>
    List.mem_filterMap.mpr ⟨key, hkey, hc⟩
  have hstands : (∀ name ∈ n.implicitKeys.filterMap constName?, name ∈ e.names) →
      ∀ key ∈ n.implicitKeys, key.StandsIn (· ∈ e.names) := by
    intro hall key hkey
    obtain ⟨name, hc⟩ := Option.isSome_iff_exists.mp (he n hn key hkey)
    unfold StandsIn
    rw [hc]
    exact hall name (hkeys key hkey name hc)
  cases n with
  | var tok span => exact hnames tok.text List.mem_cons_self
  | eggex tree flags span => exact hnames
  | _ => exact hstands hnames

/-- Worlds that differ in their stores give the same, if the stores agree on all that is read. -/
theorem evalExpr_agree {host : Host} {e : Expr} {N : String → Prop}
    (he : ∀ n ∈ e.nodes, n.ReadsIn N) (w : World) {s s' : Store}
    (hvars : ∀ name, N name → s'.lookup name .localOrGlobal = s.lookup name .localOrGlobal)
    (hgroups : s'.groups = s.groups) :
    let o := (evalExpr host e).outcome { w with store := s }
    let o' := (evalExpr host e).outcome { w with store := s' }
    o'.1 = o.1 ∧ o'.2.runs = o.2.runs ∧ o'.2.store.groups = o.2.store.groups := by
  intro o o'
  let μ : Mirror := ⟨N, id, fun _ => True, w.runs, w.runs⟩
  have hstart : μ.Relates { w with store := s } { w with store := s' } := by
    refine { Mirror.relates_self N { w with store := s } with lookup := ?_, groups := hgroups }
    intro name hn
    rw [Value.rename_id, Option.map_id]
    exact hvars name hn
  have hfollows := Mirror.follows_evalExpr (μ := μ) Function.injective_id host.commutes_id he
  obtain ⟨hr, hw⟩ := hfollows.ends _ _ hstart fun _ _ => trivial
  obtain ⟨new, hn, hn'⟩ := hw.runs
  refine ⟨?_, hn'.trans hn.symm, hw.groups⟩
  calc o'.1 = o.1.map (Value.rename id) := hr
    _ = o.1 := by rw [Value.rename_id]; cases o.1 <;> rfl

/-- **Coincidence.** If two stores have the same match groups and give the same values to the names
of an expression, it gives the same value or fails with the same error, runs the same commands in
the same order and leaves the same match groups. -/
theorem evalExpr_coincides (host : Host) (e : Expr) (he : e.ImplicitsNamed) (w : World)
    (s s' : Store)
    (hvars : ∀ name ∈ e.names, s'.lookup name .localOrGlobal = s.lookup name .localOrGlobal)
    (hgroups : s'.groups = s.groups) :
    let o := (evalExpr host e).outcome { w with store := s }
    let o' := (evalExpr host e).outcome { w with store := s' }
    o'.1 = o.1 ∧ o'.2.runs = o.2.runs ∧ o'.2.store.groups = o.2.store.groups :=
  evalExpr_agree (Expr.readsIn_names he) w hvars hgroups

/-- A list of a variable, a dict with a value left out and a spliced eggex: their values stand in
other frames, beside other variables. -/
theorem evalExpr_coincides_list :
    let name := fun text => (⟨.name, text, .dummy⟩ : Token)
    let e : Expr := .list [.var (name "x") .dummy,
      .dict [.const (name "y") .dummy] [.implicit .dummy] .dummy,
      .eggex (.splice (name "z")) [] .dummy] .dummy
    let z : Value := .eggex ⟨[0]⟩ ⟨.literal "a" .dummy, []⟩
    let s : Store := ⟨[("z", z)], [[("x", .int 1), ("y", .null)]], ["a"]⟩
    let s' : Store := ⟨[("x", .int 1), ("y", .null)], [[("z", z), ("u", .null)], [("x", .null)]],
      ["a"]⟩
    e.ImplicitsNamed ∧ e.names = ["x", "y", "z"] ∧
      (∀ name ∈ e.names, s'.lookup name .localOrGlobal = s.lookup name .localOrGlobal) ∧
      s'.groups = s.groups ∧
      ∀ w : World, ((evalExpr ({} : Tables).host e).outcome { w with store := s' }).1 =
        ((evalExpr ({} : Tables).host e).outcome { w with store := s }).1 := by
  intro name e z s s'
  have he : e.ImplicitsNamed := by decide
  have hnames : e.names = ["x", "y", "z"] := rfl
  have hvars : ∀ name ∈ e.names, s'.lookup name .localOrGlobal = s.lookup name .localOrGlobal := by
    rw [hnames]
    intro name hname
    simp only [List.mem_cons, List.not_mem_nil, or_false] at hname
    obtain rfl | rfl | rfl := hname <;> rfl
  exact ⟨he, hnames, hvars, rfl, fun w =>
    (evalExpr_coincides ({} : Tables).host e he w s s' hvars rfl).1⟩

/-- Whatever the keys of its dicts, an expression does not see the frames between the innermost and
the global one. -/
theorem evalExpr_between (host : Host) (e : Expr) (w : World) (s s' : Store)
    (hglobals : s'.globals = s.globals) (hlocal : s'.localFrame = s.localFrame)
    (hgroups : s'.groups = s.groups) :
    let o := (evalExpr host e).outcome { w with store := s }
    let o' := (evalExpr host e).outcome { w with store := s' }
    o'.1 = o.1 ∧ o'.2.runs = o.2.runs ∧ o'.2.store.groups = o.2.store.groups := by
  refine evalExpr_agree (N := fun _ => True) (fun n _ => n.readsIn_true) w ?_ hgroups
  intro name _
  show Store.lookupFrames name [s'.localFrame, s'.globals] = _
  rw [hglobals, hlocal]
  rfl

end ShellExpr
