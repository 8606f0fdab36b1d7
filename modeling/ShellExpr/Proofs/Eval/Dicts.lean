import ShellExpr.Proofs.Eval.Chains
import ShellExpr.Proofs.Value.Keys

/-!
# Dict literals

A literal evaluates all its keys, then pairs them with its values as far as both go, and writes the
pairs to the dict in their order. So a key stands where it was first given, with the value that was
given last, and that is what a lookup finds.

* `Dict.PairValue`: the value of a pair, which can be that of the variable its key names.
* `Dict.Pairs`: the pairs of a literal, from its evaluated keys and its values.
* `Dict.lastPair?`: the last pair with a key.
* `Dict.entries_eq`: the entries are those of the pairs written in order.
* `Dict.eval_dict`: **the last value given to a key is found**, at the place of the first.
-/

namespace ShellExpr

open Eval

theorem Eval.outcome_bind_of_ok {α β : Type} {x : Eval α} {f : α → Eval β} {w w₁ : World} {a : α}
    (h : x.outcome w = (.ok a, w₁)) : (x >>= f).outcome w = (f a).outcome w₁ := by
  rw [outcome_bind, h]

theorem Eval.ok_of_outcome_bind {α β : Type} {x : Eval α} {f : α → Eval β} {w w' : World} {b : β}
    (h : (x >>= f).outcome w = (.ok b, w')) :
    ∃ a w₁, x.outcome w = (.ok a, w₁) ∧ (f a).outcome w₁ = (.ok b, w') := by
  rw [outcome_bind] at h
  rcases hx : x.outcome w with ⟨e | a, w₁⟩
  · rw [hx] at h
    cases h
  · rw [hx] at h
    exact ⟨a, w₁, rfl, h⟩

namespace Dict

/-! ### Pairs -/

/-- The value of a pair: that of its expression or, if there is none, of the variable that the key
names. -/
inductive PairValue (host : Host) (key : Value × Span) (e : Expr) (w : World) :
    Value → World → Prop where
  | given {v : Value} {w' : World} (hgiven : e.isImplicit = false)
      (h : (e.eval host : Eval Value).outcome w = (.ok v, w')) : PairValue host key e w v w'
  | named {v : Value} {w' : World} {g : Handle} {name : String} (himplicit : e.isImplicit = true)
      (hkey : key.1 = .str g name) (h : (lookup name key.2).outcome w = (.ok v, w')) :
      PairValue host key e w v w'

/-- The pairs of evaluated keys, with their places, and values that are still to be evaluated, as
far as there are both. -/
inductive Pairs (host : Host) : List (Value × Span) → List Expr → World →
    List (Value × Value) → World → Prop where
  | noKeys {values : List Expr} {w : World} : Pairs host [] values w [] w
  | noValues {keys : List (Value × Span)} {w : World} : Pairs host keys [] w [] w
  | cons {key : Value × Span} {keys : List (Value × Span)} {e : Expr} {values : List Expr}
      {v : Value} {pairs : List (Value × Value)} {w w₁ w' : World}
      (hv : PairValue host key e w v w₁) (hrest : Pairs host keys values w₁ pairs w') :
      Pairs host (key :: keys) (e :: values) w ((key.1, v) :: pairs) w'

/-- The pairs with their keys converted. -/
def keyed (pairs : List (Value × Value)) : List (Key × Value) :=
  pairs.filterMap fun p => (Key.ofValue? p.1).map (·, p.2)

/-- The last of the pairs whose key converts to `k`. -/
def lastPair? (k : Key) (pairs : List (Value × Value)) : Option (Value × Value) :=
  (pairs.filter fun p => Key.ofValue? p.1 = some k).getLast?

section Pairs

variable {host : Host} {keys : List (Value × Span)} {values : List Expr}
  {pairs : List (Value × Value)} {entries es : List (Key × Value)} {w w' : World}

theorem Pairs.length_eq (h : Pairs host keys values w pairs w') :
    pairs.length = min keys.length values.length := by
  induction h with
  | noKeys => simp
  | noValues => simp
  | cons _ _ ih => simp [ih]

/-- The keys are those of the literal, in order. -/
theorem Pairs.keys_eq (h : Pairs host keys values w pairs w') :
    pairs.map Prod.fst = (keys.map Prod.fst).take values.length := by
  induction h with
  | noKeys => simp
  | noValues => simp
  | cons _ _ ih => simp [ih]

theorem keyed_cons {p : Value × Value} {k : Key} (hk : Key.ofValue? p.1 = some k) :
    keyed (p :: pairs) = (k, p.2) :: keyed pairs := by
  rw [keyed, List.filterMap_cons, hk]
  rfl

theorem map_fst_keyed (pairs : List (Value × Value)) :
    (keyed pairs).map Prod.fst = pairs.filterMap fun p => Key.ofValue? p.1 := by
  rw [keyed, List.map_filterMap]
  congr 1
  funext p
  cases Key.ofValue? p.1 <;> rfl

theorem filter_keyed (k : Key) (pairs : List (Value × Value)) :
    ((keyed pairs).filter fun p => p.1 = k) =
      (pairs.filter fun p => Key.ofValue? p.1 = some k).map fun p => (k, p.2) := by
  induction pairs with
  | nil => rfl
  | cons p rest ih =>
    cases hp : Key.ofValue? p.1 with
    | none =>
      have hskip : keyed (p :: rest) = keyed rest := by rw [keyed, List.filterMap_cons, hp]; rfl
      rw [hskip, ih, List.filter_cons_of_neg (by simp [hp])]
    | some l =>
      rw [keyed_cons hp, List.filter_cons, List.filter_cons, ih, hp]
      by_cases hl : l = k <;> simp [hl]

theorem get?_ofPairs_keyed (k : Key) (pairs : List (Value × Value)) :
    Assoc.get? k (Assoc.ofPairs (keyed pairs)) = (lastPair? k pairs).map Prod.snd := by
  rw [Assoc.get?_ofPairs, filter_keyed, List.getLast?_map, Option.map_map]
  rfl

theorem evalEntries_cons (key : Value × Span) (e : Expr) (rest : List Expr) :
    (Expr.evalEntries host entries (key :: keys) (e :: rest) : Eval (List (Key × Value))) =
      (if e.isImplicit then implicitValue key.1 key.2 else e.eval host) >>= fun v =>
        keyOf key.1 key.2 >>= fun k =>
          Expr.evalEntries host (Assoc.insert k v entries) keys rest := by
  rw [Expr.evalEntries]
  cases e.isImplicit <;> rfl

theorem pairValue_of_outcome {key : Value × Span} {e : Expr} {v : Value}
    (h : (if e.isImplicit then implicitValue key.1 key.2 else e.eval host : Eval Value).outcome w =
      (.ok v, w')) : PairValue host key e w v w' := by
  cases hi : e.isImplicit with
  | false =>
    rw [hi] at h
    exact .given hi h
  | true =>
    rw [hi, if_pos rfl] at h
    obtain ⟨key, span⟩ := key
    cases key with
    | str g name => exact .named hi rfl h
    | _ => cases h

theorem ofValue?_of_keyOf {key : Value × Span} {k : Key}
    (h : (keyOf key.1 key.2).outcome w = (.ok k, w')) : Key.ofValue? key.1 = some k ∧ w' = w := by
  unfold keyOf at h
  split at h
  next hk =>
    cases h
    exact ⟨hk, rfl⟩
  · cases h

/-- A literal writes its pairs in order. -/
theorem entries_eq
    (h : (Expr.evalEntries host entries keys values : Eval _).outcome w = (.ok es, w')) :
    ∃ pairs, Pairs host keys values w pairs w' ∧ (∀ p ∈ pairs, ∃ k, Key.ofValue? p.1 = some k) ∧
      es = Assoc.insertAll entries (keyed pairs) := by
  -- the entries written before stand for the pairs that the recursion has left behind
  induction values generalizing entries keys w with
  | nil =>
    cases h
    exact ⟨[], .noValues, nofun, rfl⟩
  | cons e rest ih =>
    cases keys with
    | nil =>
      cases h
      exact ⟨[], .noKeys, nofun, rfl⟩
    | cons key keys =>
      rw [evalEntries_cons] at h
      obtain ⟨v, w₁, hv, hafter⟩ := ok_of_outcome_bind h
      obtain ⟨k, w₂, hkey, hrest⟩ := ok_of_outcome_bind hafter
      obtain ⟨hk, rfl⟩ := ofValue?_of_keyOf hkey
      obtain ⟨pairs, hpairs, hkeys, rfl⟩ := ih hrest
      refine ⟨_, .cons (pairValue_of_outcome hv) hpairs,
        List.forall_mem_cons.mpr ⟨⟨k, hk⟩, hkeys⟩, ?_⟩
      rw [keyed_cons hk]
      rfl

/-! ### Literals -/

/-- The entries of a dict made of pairs: the keys of the pairs in the order in which they are first
there, each with the value of its last pair. -/
structure MadeOf (pairs : List (Value × Value)) (es : List (Key × Value)) : Prop where
  hashable : ∀ p ∈ pairs, ∃ k, Key.ofValue? p.1 = some k
  distinct : (es.map Prod.fst).Nodup
  order : es.map Prod.fst = (pairs.filterMap fun p => Key.ofValue? p.1).eraseDups
  last : ∀ e ∈ es, (lastPair? e.1 pairs).map Prod.snd = some e.2

theorem madeOf_ofPairs (h : ∀ p ∈ pairs, ∃ k, Key.ofValue? p.1 = some k) :
    MadeOf pairs (Assoc.ofPairs (keyed pairs)) where
  hashable := h
  distinct := Assoc.distinct_ofPairs _
  order := by rw [Assoc.keys_ofPairs, map_fst_keyed]
  last e he := by
    rw [← get?_ofPairs_keyed]
    exact Assoc.get?_of_mem (Assoc.distinct_ofPairs _) he

theorem evalAll_cons (e : Expr) (rest : List Expr) :
    (Expr.evalAll host (e :: rest) : Eval (List Value)) =
      e.eval host >>= fun v => Expr.evalAll host rest >>= fun vs => pure (v :: vs) := rfl

theorem length_evalAll {es : List Expr} {vs : List Value}
    (h : (Expr.evalAll host es : Eval _).outcome w = (.ok vs, w')) : vs.length = es.length := by
  induction es generalizing vs w with
  | nil =>
    cases h
    rfl
  | cons e rest ih =>
    rw [evalAll_cons] at h
    obtain ⟨v, w₁, -, hrest⟩ := ok_of_outcome_bind h
    obtain ⟨us, w₂, hus, hlast⟩ := ok_of_outcome_bind hrest
    cases hlast
    rw [List.length_cons, List.length_cons, ih hus]

theorem eval_eq (exprs values : List Expr) (span : Span) :
    ((Expr.dict exprs values span).eval host : Eval Value) =
      nested host.limit span (Expr.evalAll host exprs >>= fun ks =>
        Expr.evalEntries host [] (ks.zip (exprs.map Expr.span)) values >>= fun es =>
          fresh >>= fun g => pure (.dict g es)) := rfl

/-- A literal whose keys and values have values is a dict. -/
theorem outcome_of_parts {exprs : List Expr} {ks : List Value} {w₁ w₂ : World} (span : Span)
    (hdeep : ¬ host.limit.any (· ≤ w.depth) = true)
    (hks : (Expr.evalAll host exprs : Eval _).outcome w.deeper = (.ok ks, w₁))
    (hes : (Expr.evalEntries host [] (ks.zip (exprs.map Expr.span)) values : Eval _).outcome w₁ =
      (.ok es, w₂)) :
    ((Expr.dict exprs values span).eval host : Eval Value).outcome w =
      (.ok (.dict ⟨[w₂.supply]⟩ es), World.shallower { w₂ with supply := w₂.supply + 1 }) := by
  have hks' : (Expr.evalAll host exprs : Eval _).outcome { w with depth := w.depth + 1 } =
      (.ok ks, w₁) := hks
  rw [eval_eq, outcome_nested, if_neg hdeep, outcome_bind_of_ok hks', outcome_bind_of_ok hes]
  rfl

/-- A literal with a value is a dict of its pairs, all of whose keys were evaluated before. -/
theorem exists_pairs {exprs : List Expr} {span : Span} {d : Value}
    (h : ((Expr.dict exprs values span).eval host : Eval Value).outcome w = (.ok d, w')) :
    ∃ ks w₁ pairs w₂ g, (Expr.evalAll host exprs : Eval _).outcome w.deeper = (.ok ks, w₁) ∧
      Pairs host (ks.zip (exprs.map Expr.span)) values w₁ pairs w₂ ∧
      (∀ p ∈ pairs, ∃ k, Key.ofValue? p.1 = some k) ∧
      d = .dict g (Assoc.ofPairs (keyed pairs)) := by
  rw [eval_eq, outcome_nested] at h
  split at h
  · cases h
  obtain ⟨hbody, -⟩ := Prod.mk.inj h
  obtain ⟨ks, w₁, hks, hentries⟩ := ok_of_outcome_bind (Prod.ext hbody rfl)
  obtain ⟨es, w₂, hes, hfresh⟩ := ok_of_outcome_bind hentries
  obtain ⟨pairs, hpairs, hkeys, rfl⟩ := entries_eq hes
  exact ⟨ks, w₁, pairs, w₂, ⟨[w₂.supply]⟩, hks, hpairs, hkeys,
    (Except.ok.inj (congrArg Prod.fst hfresh)).symm⟩

/-- **The last value given to a key is found**, at the place of the first. -/
theorem eval_dict {exprs : List Expr} {span : Span} {d : Value}
    (h : ((Expr.dict exprs values span).eval host : Eval Value).outcome w = (.ok d, w')) :
    ∃ ks w₁ pairs w₂ g es, (Expr.evalAll host exprs : Eval _).outcome w.deeper = (.ok ks, w₁) ∧
      Pairs host (ks.zip (exprs.map Expr.span)) values w₁ pairs w₂ ∧
      pairs.length = min exprs.length values.length ∧
      pairs.map Prod.fst = ks.take values.length ∧ d = .dict g es ∧ MadeOf pairs es ∧
      ∀ (v : Value) (k : Key) (h' : Handle), Key.ofValue? v = some k →
        (∀ p, lastPair? k pairs = some p → subscript h' d v = .ok p.2) ∧
        (lastPair? k pairs = none → subscript h' d v = .error (.exprEval .noEntry)) ∧
        (Fault.exprEval .noEntry).text = "dict entry not found" ∧
        ∃ found, contains d v = .ok found ∧ (found = true ↔ ∃ r, subscript h' d v = .ok r) := by
  obtain ⟨ks, w₁, pairs, w₂, g, hks, hpairs, hkeys, rfl⟩ := exists_pairs h
  have hlength : ks.length = (exprs.map Expr.span).length := by
    rw [length_evalAll hks, List.length_map]
  refine ⟨ks, w₁, pairs, w₂, g, _, hks, hpairs, ?_, ?_, rfl, madeOf_ofPairs hkeys, ?_⟩
  · rw [hpairs.length_eq, List.length_zip, hlength, Nat.min_self, List.length_map]
  · rw [hpairs.keys_eq, List.map_fst_zip hlength.le]
  · intro v k h' hk
    have hsub := Key.subscript_dict g h' (Assoc.ofPairs (keyed pairs)) hk
    rw [get?_ofPairs_keyed] at hsub
    have hin := Key.contains_dict g (Assoc.ofPairs (keyed pairs)) hk
    refine ⟨fun p hp => ?_, fun hnone => ?_, rfl, _, hin, ?_⟩
    · rw [hsub, hp]
      rfl
    · rw [hsub, hnone]
      rfl
    · rw [← Key.contains_iff_subscript g h' _ hk, hin, Except.ok.injEq]

end Pairs

theorem outcome_quoted (s : String) (w : World) :
    ((Expr.quoted s).eval ({} : Tables).host : Eval Value).outcome w =
      (.ok (.str ⟨[w.supply]⟩ s), { w with supply := w.supply + 1 }) := rfl

/-- In `{'a': 'x', 'b', 'a': 'z'}`, with a key more than values, `'a'` stands first, with `'z'`. -/
theorem eval_dict_repeated :
    let host := ({} : Tables).host
    let w : World := { store := ({} : Store).defineGlobal "b" (.int 5) }
    let keys := [Expr.quoted "a", .quoted "b", .quoted "a", .quoted "c"]
    let values := [Expr.quoted "x", .implicit Span.dummy, .quoted "z"]
    let d := Value.dict ⟨[6]⟩ [(.str "a", .str ⟨[5]⟩ "z"), (.str "b", .int 5)]
    ((Expr.dict keys values Span.dummy).eval host : Eval Value).outcome w =
        (.ok d, { w with supply := 7 }) ∧
      ∃ pairs : List (Value × Value),
        pairs.map Prod.fst = [.str ⟨[0]⟩ "a", .str ⟨[1]⟩ "b", .str ⟨[2]⟩ "a"] ∧
        (lastPair? (.str "a") pairs).map Prod.snd = some (.str ⟨[5]⟩ "z") ∧
        subscript ⟨[7]⟩ d (.str ⟨[8]⟩ "a") = .ok (.str ⟨[5]⟩ "z") := by
  intro host w keys values d
  have hkeys : (Expr.evalAll host keys : Eval _).outcome w.deeper =
      (.ok [.str ⟨[0]⟩ "a", .str ⟨[1]⟩ "b", .str ⟨[2]⟩ "a", .str ⟨[3]⟩ "c"],
        { w.deeper with supply := 4 }) := by
    simp only [keys, evalAll_cons, outcome_bind, host, outcome_quoted]
    rfl
  have hrun : ((Expr.dict keys values Span.dummy).eval host : Eval Value).outcome w =
      (.ok d, { w with supply := 7 }) := by
    have hdeep : ¬ host.limit.any (· ≤ w.depth) = true := Bool.false_ne_true
    refine outcome_of_parts _ hdeep hkeys (?_ : _ = (_, { w.deeper with supply := 6 }))
    have hgiven : ∀ s, (Expr.quoted s).isImplicit = false := fun _ => rfl
    simp only [keys, values, List.map_cons, List.map_nil, List.zip_cons_cons, evalEntries_cons,
      hgiven, outcome_bind, host]
    rfl
  obtain ⟨ks, w₁, pairs, w₂, g, es, hks, -, -, hfst, hd, hmade, hfound⟩ := eval_dict hrun
  obtain rfl := Except.ok.inj (congrArg Prod.fst (hks.symm.trans hkeys))
  obtain ⟨-, rfl⟩ := Value.dict.inj hd
  have hlast := hmade.last (.str "a", .str ⟨[5]⟩ "z") (by simp)
  obtain ⟨p, hp, hz⟩ := Option.map_eq_some_iff.mp hlast
  obtain ⟨hsub, -⟩ := hfound (.str ⟨[8]⟩ "a") (.str "a") ⟨[7]⟩ rfl
  exact ⟨hrun, pairs, hfst, hlast, (hsub p hp).trans (congrArg Except.ok hz)⟩

end Dict

end ShellExpr
