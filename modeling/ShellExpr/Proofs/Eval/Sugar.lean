import ShellExpr.Proofs.Eval.Stages
import ShellExpr.Proofs.Syntax.Sugar
import ShellExpr.Proofs.Value.Copies

/-!
# Sugar means what it stands for

An expression and the same expression with some of its sugared forms written out give the same value
or fail for the same cause, and on the way they run the same commands and decide the same match
groups.

* `Expr.indices_alike`, `Expr.tuple_alike`, `Expr.entry_alike`: the parts that sugar is made of.
* `Expr.Expands.alike`, `Target.Expands.alike`: evaluation, by the rules for writing sugar out.
* `sugar_expands`: **sugar means what it stands for**, from any world.
-/

namespace ShellExpr

open Assoc Eval

variable {C : Comparison} {s t : Stage}

/-! ### Single steps -/

/-- The handle of a string does not matter where it is an index. -/
theorem subscript_str (h k k' : Handle) (obj : Value) (name : String) :
    subscript h obj (.str k name) = subscript h obj (.str k' name) := by
  cases obj <;> rfl

namespace Comparison.Alike

variable {α : Type} {span span' : Span}

/-- A result without allocations, at two places of the source. -/
theorem fault (r : Except Fault α) (hspan : C.spans → span' = span) :
    C.Alike s (fun _ => id) (Eval.ofFault span r) (Eval.ofFault span' r) :=
  ofFault (fun _ _ => by cases r <;> rfl) hspan

theorem error {β : Type} {g : (Nat → Nat) → α → β} (f : Fault) (hspan : C.spans → span' = span) :
    C.Alike s g (Eval.ofFault span (.error f)) (Eval.ofFault span' (.error f)) :=
  ofFault (fun _ _ => rfl) hspan

theorem keyOf {key key' : Value} (h : s.Pairs Value.rename key key')
    (hspan : C.spans → span' = span) :
    C.Alike s (fun _ => id) (Eval.keyOf key span) (Eval.keyOf key' span') := by
  have hfault : ∃ r, ∀ span, Eval.keyOf key span = Eval.ofFault span r := by
    unfold Eval.keyOf
    cases Key.ofValue? key with
    | none => exact ⟨.error _, fun _ => rfl⟩
    | some k => exact ⟨.ok k, fun _ => rfl⟩
  obtain ⟨r, hr⟩ := hfault
  rw [h.eq, keyOf_rename, hr, hr]
  exact fault r hspan

theorem sliceBound {v v' : Value} (h : s.Pairs Value.rename v v')
    (hspan : C.spans → span' = span) :
    C.Alike s (fun _ => id) (Eval.sliceBound span v) (Eval.sliceBound span' v') := by
  have hfault : ∃ r, ∀ span, Eval.sliceBound span v = Eval.ofFault span r := by
    cases v with
    | int n => exact ⟨.ok (some n), fun _ => rfl⟩
    | null => exact ⟨.ok none, fun _ => rfl⟩
    | _ => exact ⟨.error _, fun _ => rfl⟩
  obtain ⟨r, hr⟩ := hfault
  rw [h.eq, sliceBound_rename, hr, hr]
  exact fault r hspan

theorem implicitValue {key key' : Value} (h : s.Pairs Value.rename key key')
    (hspan : C.spans → span' = span) :
    C.Alike s Value.rename (Eval.implicitValue key span) (Eval.implicitValue key' span') := by
  rw [h.eq, implicitValue_rename]
  cases key with
  | str _ name => exact lookup name hspan
  | _ => exact error _ hspan

theorem joinIndices {vs vs' : List Value}
    (h : s.Pairs (fun ρ => List.map (Value.rename ρ)) vs vs') :
    C.Alike s Value.rename (Eval.joinIndices vs) (Eval.joinIndices vs') :=
  alike_of_corresponds [] fun ρ hρ R hR => by
    rw [h ρ hρ]
    exact hR.joinIndices vs

/-- The last step of a subscript. -/
theorem item {o o' i i' : Value} (ho : s.Pairs Value.rename o o') (hi : s.Pairs Value.rename i i') :
    C.Alike s Value.rename (do Eval.ofFault Span.dummy (subscript (← Eval.fresh) o i))
      (do Eval.ofFault Span.dummy (subscript (← Eval.fresh) o' i')) :=
  alike_of_corresponds [] fun ρ hρ R hR => by
    rw [ho ρ hρ, hi ρ hρ]
    exact hR.bind_last hR.fresh fun h _ => hR.ofFault _ _ (subscript_rename h o i)

/-- An arrow takes the handle of the result and that of the index at once, a subscript takes two. -/
theorem arrow (hs : ¬ C.spans) {o o' : Value} (ho : s.Pairs Value.rename o o') (opSpan : Span)
    (attr : Token) (k : Handle) : C.Alike s Value.rename (Eval.memberOf .arrow opSpan attr o)
      (do Eval.ofFault Span.dummy (subscript (← Eval.fresh) o' (.str k attr.text))) := by
  refine bind fresh fun t hst h h' _ hh => ofFault (fun ρ hρ => ?_) fun hspan => absurd hspan hs
  rw [hh ρ hρ, (ho.later hst) ρ hρ, subscript_str _ k ((h.child 0).rename ρ)]
  exact subscript_rename h o (.str (h.child 0) attr.text)

end Comparison.Alike

/-- The values of the keys of a dict in two runs, with the places of the keys. -/
inductive Comparison.Keyed (C : Comparison) (s : Stage) :
    List Expr → List (Value × Span) → List (Value × Span) → Prop where
  | nil : Keyed C s [] [] []
  | cons {key : Expr} {keys : List Expr} {v v' : Value} {span span' : Span}
      {ks ks' : List (Value × Span)} (hgives : (key.eval C.host : Eval Value).Gives v)
      (hv : s.Pairs Value.rename v v') (hrest : Keyed C s keys ks ks') :
      Keyed C s (key :: keys) ((v, span) :: ks) ((v', span') :: ks')

namespace Comparison.Keyed

variable {keys keys' : List Expr}

theorem later {ks ks' : List (Value × Span)} (h : C.Keyed s keys ks ks') (hst : s ≤ t) :
    C.Keyed t keys ks ks' := by
  induction h with
  | nil => exact .nil
  | cons hgives hv _ ih => exact .cons hgives (hv.later hst) ih

theorem of_gives {vs vs' : List Value} (hlen : keys'.length = keys.length)
    (hgives : List.Forall₂ (fun e v => (e.eval C.host : Eval Value).Gives v) keys vs)
    (hvs : List.Forall₂ (s.Pairs Value.rename) vs vs') :
    C.Keyed s keys (vs.zip (keys.map Expr.span)) (vs'.zip (keys'.map Expr.span)) := by
  induction hgives generalizing keys' vs' with
  | nil =>
    cases hvs
    exact .nil
  | cons hg _ ih =>
    cases hvs with
    | cons hv hvs =>
      cases keys' with
      | nil => simp at hlen
      | cons key' keys' => exact .cons hg hv (ih (Nat.succ.inj hlen) hvs)

end Comparison.Keyed

/-! ### Whole expressions -/

namespace Expr

theorem evalIndices_single (host : Host) (e : Expr) :
    (Expr.evalIndices host [e] : Eval Value) = e.eval host := by
  simp only [Expr.evalIndices, Expr.evalAll, bind_assoc, pure_bind]
  exact bind_pure _

/-- A row of several indices is joined to a tuple. -/
theorem joinIndices_of_length {vs : List Value} (h : vs.length ≠ 1) :
    joinIndices vs = (do return .tuple (← fresh) vs) := by
  match vs with
  | [] => rfl
  | [v] => exact absurd rfl h
  | _ :: _ :: _ => rfl

section Indices

variable {es es' : List Expr}

theorem indices_alike (h : C.Alike s (fun ρ => List.map (Value.rename ρ))
    (Expr.evalAll C.host es) (Expr.evalAll C.host es')) :
    C.Alike s Value.rename (Expr.evalIndices C.host es) (Expr.evalIndices C.host es') :=
  h.bind fun _ _ _ _ _ hvs => .joinIndices hvs

/-- Several indices and the tuple of them. -/
theorem tuple_alike (h : C.Alike s (fun ρ => List.map (Value.rename ρ))
    (Expr.evalAll C.host es) (Expr.evalAll C.host es')) (hmany : es.length ≠ 1) (span : Span) :
    C.Alike s Value.rename (Expr.evalIndices C.host es) ((tuple es' span).eval C.host) := by
  rw [tuple_unlimited C.unlimited]
  refine h.bind fun t _ vs vs' hgives hvs => ?_
  have hlen : vs.length ≠ 1 := fun hl => hmany ((forall₂_of_gives hgives).length_eq.trans hl)
  show C.Alike t Value.rename (joinIndices vs) _
  rw [joinIndices_of_length hlen]
  refine .alloc fun ρ hρ k => ?_
  rw [hvs ρ hρ, Value.rename, Value.renameAll_eq]

end Indices

theorem implicitValue_of_str? {key : Value} {name : String} (h : key.str? = some name)
    (span : Span) : implicitValue key span = lookup name span := by
  cases key with
  | str _ s => exact congrArg (lookup · span) (Option.some.inj h)
  | _ => contradiction

/-- The rest of a dict, once a value is known. -/
theorem entry_alike (hs : ¬ C.spans) {keys values values' : List Expr} {es es' : List (Key × Value)}
    {ks ks' : List (Value × Span)} {key key' v v' : Value} {span span' : Span}
    (hrest : ∀ t es es' ks ks', t.Pairs (fun ρ => mapValues (Value.rename ρ)) es es' →
      C.Keyed t keys ks ks' → C.Alike t (fun ρ => mapValues (Value.rename ρ))
        (Expr.evalEntries C.host es ks values) (Expr.evalEntries C.host es' ks' values'))
    (hes : s.Pairs (fun ρ => mapValues (Value.rename ρ)) es es')
    (hkey : s.Pairs Value.rename key key') (hks : C.Keyed s keys ks ks')
    (hv : s.Pairs Value.rename v v') :
    C.Alike s (fun ρ => mapValues (Value.rename ρ))
      (do Expr.evalEntries C.host (Assoc.insert (← keyOf key span) v es) ks values)
      (do Expr.evalEntries C.host (Assoc.insert (← keyOf key' span') v' es') ks' values') := by
  refine .bind (.keyOf hkey fun h => absurd h hs) fun t hst k k' _ hk => ?_
  refine hrest t _ _ _ _ (fun ρ hρ => ?_) (hks.later hst)
  rw [hk.eq, (hes.later hst) ρ hρ, (hv.later hst) ρ hρ]
  exact (mapValues_insert ..).symm

mutual

/-- **An expression with its sugar written out ends like the expression.** -/
theorem Expands.alike (hs : ¬ C.spans) : {e e' : Expr} → Expands e e' → (s : Stage) →
    C.Alike s Value.rename (e.eval C.host) (e'.eval C.host)
  | _, _, .refl e, s => .eval e
  | _, _, .arrow hobj hw, s => by
    rw [eval_subscript, evalIndices_single, single_unlimited C.unlimited hw]
    simp only [Expr.eval, bind_assoc, pure_bind]
    -- the index takes a handle before the result does
    refine .nested (.bind (hobj.alike hs s) fun t _ o o' _ ho => .skip fun k => ?_) _ _
    exact .arrow hs ho _ _ k
  | _, _, .indices hobj his hmany, s => by
    rw [eval_subscript, eval_subscript, evalIndices_single]
    refine .nested (.bind (hobj.alike hs s) fun t hst o o' _ ho => ?_) _ _
    refine .bind (tuple_alike (his.alike hs t) hmany _) fun u htu i i' _ hi => ?_
    exact .item (ho.later htu) hi
  | _, _, .unary op opSpan span h, s => by
    simp only [Expr.eval]
    refine .nested (.bind (h.alike hs s) fun t _ v v' _ hv => ?_) _ _
    refine .ofFault (fun ρ hρ => ?_) fun _ => rfl
    rw [hv ρ hρ]
    exact unary_rename op v
  | _, _, .binary op opSpan span hleft hright, s => by
    simp only [Expr.eval]
    refine .nested (.bind (hleft.alike hs s) fun t _ l l' _ hl => ?_) _ _
    have htruthy : l'.isTruthy = l.isTruthy := by rw [hl.eq, Value.isTruthy_rename]
    rw [htruthy]
    split
    · split
      · exact hright.alike hs t
      · exact .pure hl
    · split
      · exact .pure hl
      · exact hright.alike hs t
    · refine .bind (hright.alike hs t) fun u htu r r' _ hr => ?_
      refine Comparison.alike_of_corresponds [] fun ρ hρ R hR => ?_
      rw [(hl.later htu) ρ hρ, hr ρ hρ]
      exact hR.bind_last hR.fresh fun h _ => hR.ofFault _ _ (binary_rename h op l r)
  | _, _, .range span hlower hupper, s => by
    simp only [Expr.eval]
    refine .nested (.bind (hlower.alike hs s) fun t _ l l' _ hl => ?_) _ _
    refine .bind (hupper.alike hs t) fun u htu v v' _ hv => ?_
    refine Comparison.alike_of_corresponds [] fun ρ hρ R hR => ?_
    rw [(hl.later htu) ρ hρ, hv ρ hρ]
    exact hR.rangeOf l v span
  | _, _, .slice span hlower hupper, s => by
    simp only [Expr.eval]
    refine .nested (.bind (hlower.alike hs s) fun t _ l l' _ hl => ?_) _ _
    refine .bind (hupper.alike hs t) fun u _ v v' _ hv => .pure fun ρ _ => ?_
    rw [hl.eq, hv.eq]
    rfl
  | _, _, .compare span hleft hlinks, s => by
    simp only [Expr.eval]
    refine .nested (.bind (hleft.alike hs s) fun t _ l l' _ hl => ?_) _ _
    refine .bind (hlinks.alike hs t l l' hl) fun u _ b b' _ hb => .pure fun ρ _ => ?_
    rw [hb.eq]
    rfl
  | _, _, .ifExp span htest hbody horElse, s => by
    simp only [Expr.eval]
    refine .nested (.bind (htest.alike hs s) fun t _ v v' _ hv => ?_) _ _
    rw [hv.eq, Value.isTruthy_rename]
    split
    · exact hbody.alike hs t
    · exact horElse.alike hs t
  | _, _, .list span h, s => by
    simp only [Expr.eval]
    refine .nested (.bind (h.alike hs s) fun t _ vs vs' _ hvs => .alloc fun ρ hρ k => ?_) _ _
    rw [hvs ρ hρ, Value.rename, Value.renameAll_eq]
  | _, _, .tuple span h, s => by
    simp only [Expr.eval]
    refine .nested (.bind (h.alike hs s) fun t _ vs vs' _ hvs => .alloc fun ρ hρ k => ?_) _ _
    rw [hvs ρ hρ, Value.rename, Value.renameAll_eq]
  | _, _, .dict span hkeys hvalues, s => by
    simp only [Expr.eval]
    refine .nested (.bind (hkeys.alike hs s) fun t _ ks ks' hgives hks => ?_) _ _
    have hkeyed := Comparison.Keyed.of_gives hkeys.length_eq (forall₂_of_gives hgives) hks.forall₂
    refine .bind (hvalues.alike hs t [] [] _ _ (fun _ _ => rfl) hkeyed) fun u _ es es' _ hes => ?_
    refine .alloc fun ρ hρ k => ?_
    rw [hes ρ hρ, Value.rename, Value.renameEntries_eq]
  | _, _, .reserved form span h, s => by
    simp only [Expr.eval]
    exact .nested (.fail (.refl _)) _ _
  | _, _, .call span hfunc hpositional hnamed, s => by
    simp only [Expr.eval]
    refine .nested (.bind (hfunc.alike hs s) fun t _ f f' _ hf => ?_) _ _
    rw [hf.eq]
    cases f with
    | func h name =>
      refine .bind (hpositional.alike hs t) fun u htu ps ps' _ hps => ?_
      refine .bind (hnamed.alike hs u [] [] fun _ _ => rfl) fun v huv ns ns' _ hns => ?_
      -- a callable does not look at the numbers of the arguments
      refine Comparison.alike_of_corresponds [] fun ρ hρ R hR => ?_
      rw [(hps.later huv) ρ hρ, hns ρ hρ]
      refine hR.bind_last hR.fresh fun k hk => hR.of _ ?_
      exact hR.commutes k name ⟨ps, ns⟩ hk.isProper
    | _ => exact .fail ⟨rfl, fun h => absurd h hs⟩
  | _, _, .subscript span hobj his, s => by
    rw [eval_subscript, eval_subscript]
    refine .nested (.bind (hobj.alike hs s) fun t _ o o' _ ho => ?_) _ _
    refine .bind (indices_alike (his.alike hs t)) fun u htu i i' _ hi => ?_
    exact .item (ho.later htu) hi
  | _, _, .member op opSpan attr span hobj, s => by
    simp only [Expr.eval]
    refine .nested (.bind (hobj.alike hs s) fun t _ o o' _ ho => ?_) _ _
    refine Comparison.alike_of_corresponds [] fun ρ hρ R hR => ?_
    rw [ho ρ hρ]
    exact hR.memberOf op opSpan attr o
  | _, _, .spread span h, s => by
    simp only [Expr.eval]
    exact .nested (.fail (.refl _)) _ _
termination_by structural _ _ h => h

theorem ExpandsAll.alike (hs : ¬ C.spans) : {es es' : List Expr} → ExpandsAll es es' →
    (s : Stage) → C.Alike s (fun ρ => List.map (Value.rename ρ)) (Expr.evalAll C.host es)
      (Expr.evalAll C.host es')
  | _, _, .nil, s => by
    simp only [Expr.evalAll]
    exact .pure fun _ _ => rfl
  | _, _, .cons h hrest, s => by
    simp only [Expr.evalAll]
    refine .bind (h.alike hs s) fun t _ v v' _ hv => ?_
    refine .bind (hrest.alike hs t) fun u htu vs vs' _ hvs => .pure fun ρ hρ => ?_
    rw [(hv.later htu) ρ hρ, hvs ρ hρ, List.map_cons]
termination_by structural _ _ h => h

theorem ExpandsBound.alike (hs : ¬ C.spans) : {e e' : Option Expr} → ExpandsBound e e' →
    (s : Stage) → C.Alike s (fun _ => id) (Expr.evalBound C.host e) (Expr.evalBound C.host e')
  | _, _, .none, s => by
    simp only [Expr.evalBound]
    exact .pure fun _ _ => rfl
  | _, _, .some h, s => by
    simp only [Expr.evalBound]
    exact .bind (h.alike hs s) fun t _ v v' _ hv => .sliceBound hv fun h => absurd h hs
termination_by structural _ _ h => h

theorem ExpandsLinks.alike (hs : ¬ C.spans) : {links links' : List ((CompareOp × Span) × Expr)} →
    ExpandsLinks links links' → (s : Stage) → (left left' : Value) →
    s.Pairs Value.rename left left' →
    C.Alike s (fun _ => id) (Expr.evalLinks C.host left links) (Expr.evalLinks C.host left' links')
  | _, _, .nil, s, left, left', _ => by
    simp only [Expr.evalLinks]
    exact .pure fun _ _ => rfl
  | _, _, .cons (op, opSpan) h hrest, s, left, left', hleft => by
    simp only [Expr.evalLinks]
    refine .bind (h.alike hs s) fun t hst right right' _ hright => ?_
    refine .bind (g := fun _ => id) ?_ fun u htu l l' _ hl => ?_
    · refine Comparison.alike_of_corresponds [] fun ρ hρ R hR => ?_
      rw [(hleft.later hst) ρ hρ, hright ρ hρ]
      exact hR.link op opSpan left right
    · rw [hl.eq]
      match l with
      | .ends b => exact .pure fun _ _ => rfl
      | .holds false => exact .pure fun _ _ => rfl
      | .holds true => exact hrest.alike hs u right right' (hright.later htu)
termination_by structural _ _ h => h

theorem ExpandsEntries.alike (hs : ¬ C.spans) : {keys values values' : List Expr} →
    ExpandsEntries keys values values' → (s : Stage) → (es es' : List (Key × Value)) →
    (ks ks' : List (Value × Span)) → s.Pairs (fun ρ => mapValues (Value.rename ρ)) es es' →
    C.Keyed s keys ks ks' → C.Alike s (fun ρ => mapValues (Value.rename ρ))
      (Expr.evalEntries C.host es ks values) (Expr.evalEntries C.host es' ks' values')
  | _, _, _, .nil keys, s, es, es', ks, ks', hes, _ => by
    simp only [Expr.evalEntries]
    exact .pure hes
  | _, _, _, .cons h hrest, s, es, es', ks, ks', hes, hks => by
    have hvalue := h.alike hs
    have hlater := hrest.alike hs
    cases hks with
    | nil =>
      simp only [Expr.evalEntries]
      exact .pure hes
    | cons _ hkey hks =>
      simp only [Expr.evalEntries, h.isImplicit_eq]
      split
      · refine .bind (.implicitValue hkey fun h => absurd h hs) fun t hst v v' _ hv => ?_
        exact entry_alike hs hlater (hes.later hst) (hkey.later hst) (hks.later hst) hv
      · refine .bind (hvalue s) fun t hst v v' _ hv => ?_
        exact entry_alike hs hlater (hes.later hst) (hkey.later hst) (hks.later hst) hv
  | _, _, _, @ExpandsEntries.implicit _ _ _ _ tok _ _ hname hrest, s, es, es', ks, ks', hes,
    hks => by
    have hlater := hrest.alike hs
    cases hks with
    | @cons key _ v _ _ _ _ _ hgives hkey hks =>
      -- the key was a constant, so its value is the name that is looked up
      have hlookup : ∀ span, implicitValue v span = lookup tok.text span :=
        implicitValue_of_str? (str?_of_gives hname hgives)
      simp only [Expr.evalEntries, isImplicit, var_unlimited C.unlimited]
      show C.Alike s _ (implicitValue v _ >>= _) _
      rw [hlookup]
      refine .bind (.lookup tok.text fun h => absurd h hs) fun t hst u u' _ hu => ?_
      exact entry_alike hs hlater (hes.later hst) (hkey.later hst) (hks.later hst) hu
termination_by structural _ _ _ h => h

theorem ExpandsArgs.alike (hs : ¬ C.spans) : {es es' : List Expr} → ExpandsArgs es es' →
    (s : Stage) → C.Alike s (fun ρ => List.map (Value.rename ρ)) (Expr.evalPositional C.host es)
      (Expr.evalPositional C.host es')
  | _, _, .nil, s => by
    simp only [Expr.evalPositional]
    exact .pure fun _ _ => rfl
  | _, _, .item hitem h hrest, s => by
    rw [evalPositional_item C.host hitem, evalPositional_item C.host (h.isSpread_eq.trans hitem)]
    refine .bind (h.alike hs s) fun t _ v v' _ hv => ?_
    refine .bind (hrest.alike hs t) fun u htu vs vs' _ hvs => .pure fun ρ hρ => ?_
    rw [(hv.later htu) ρ hρ, hvs ρ hρ, List.map_cons]
  | _, _, .spread span h hrest, s => by
    simp only [Expr.evalPositional]
    refine .bind (h.alike hs s) fun t _ v v' _ hv => ?_
    refine .bind .fresh fun u htu k k' hk hkk => ?_
    refine .bind (.ofFault (g := fun ρ => List.map (Value.rename ρ)) (fun ρ hρ => ?_)
      fun _ => rfl) ?_
    · rw [hkk ρ hρ, (hv.later htu) ρ hρ]
      exact spreadItems_rename hk.isProper v
    · refine fun u' _ items items' _ hitems => ?_
      refine .bind (hrest.alike hs u') fun u'' hu vs vs' _ hvs => .pure fun ρ hρ => ?_
      rw [(hitems.later hu) ρ hρ, hvs ρ hρ, List.map_append]
termination_by structural _ _ h => h

theorem ExpandsNamed.alike (hs : ¬ C.spans) : {args args' : List (Option Token × Expr)} →
    ExpandsNamed args args' → (s : Stage) → (ns ns' : List (String × Value)) →
    s.Pairs (fun ρ => mapValues (Value.rename ρ)) ns ns' →
    C.Alike s (fun ρ => mapValues (Value.rename ρ)) (Expr.evalNamed C.host ns args)
      (Expr.evalNamed C.host ns' args')
  | _, _, .nil, s, ns, ns', hns => by
    simp only [Expr.evalNamed]
    exact .pure hns
  | _, _, .cons (some name) h hrest, s, ns, ns', hns => by
    simp only [Expr.evalNamed]
    refine .bind (h.alike hs s) fun t hst v v' _ hv => hrest.alike hs t _ _ fun ρ hρ => ?_
    rw [(hns.later hst) ρ hρ, hv ρ hρ]
    exact (mapValues_insert ..).symm
  | _, _, .cons none h hrest, s, ns, ns', hns => by
    simp only [Expr.evalNamed]
    refine .bind (h.alike hs s) fun t hst v v' _ hv => ?_
    refine .bind .fresh fun u htu k k' hk hkk => ?_
    refine .bind (.ofFault (g := fun ρ => mapValues (Value.rename ρ)) (fun ρ hρ => ?_)
      fun h => absurd h hs) fun u' _ ms ms' _ hms => hrest.alike hs u' _ _ hms
    rw [hkk ρ hρ, (hv.later htu) ρ hρ, (hns.later (hst.trans htu)) ρ hρ]
    exact mergeNamed_rename hk.isProper ns v
termination_by structural _ _ h => h

end

end Expr

/-! ### Targets -/

/-- The second target is the first with some sugared forms written out. -/
inductive Target.Expands : Target → Target → Prop where
  | named (tok : Token) : Expands (.named tok) (.named tok)
  | item {obj obj' : Expr} {is is' : List Expr} (hobj : obj.Expands obj')
      (his : Expr.ExpandsAll is is') : Expands (.item obj is) (.item obj' is')
  | attr {obj obj' : Expr} (op : AttrOp) (name : Token) (hobj : obj.Expands obj') :
      Expands (.attr obj op name) (.attr obj' op name)
  /-- An arrow and a name are the name as an index. -/
  | arrow {obj obj' : Expr} {name : Token} {w : SingleQuoted} {span : Span}
      (hobj : obj.Expands obj') (hw : Literal.singleQuoted w = .ok name.text) :
      Expands (.attr obj .arrow name) (.item obj' [.word (.single w) span])
  /-- Several indices are one tuple. -/
  | indices {obj obj' : Expr} {is is' : List Expr} {span : Span} (hobj : obj.Expands obj')
      (his : Expr.ExpandsAll is is') (hmany : is.length ≠ 1) :
      Expands (.item obj is) (.item obj' [.tuple is' span])
  | invalid {e e' : EvalError} (h : e'.withoutSpan = e.withoutSpan) :
      Expands (.invalid e) (.invalid e')

namespace Target

theorem Expands.refl (target : Target) : target.Expands target := by
  cases target with
  | named tok => exact .named tok
  | item obj is => exact .item (.refl obj) (.refl is)
  | attr obj op name => exact .attr op name (.refl obj)
  | invalid e => exact .invalid rfl

/-- An expression used as a target. -/
theorem Expands.of_expr {e e' : Expr} (h : e.Expands e') : e.target.Expands e'.target := by
  cases h with
  | refl e => exact .refl _
  | arrow hobj hw => exact .arrow hobj hw
  | indices hobj his hmany => exact .indices hobj his hmany
  | subscript span hobj his => exact .item hobj his
  | member op opSpan attr span hobj => exact .attr op attr hobj
  | _ => exact .invalid rfl

theorem Expands.alike (hs : ¬ C.spans) {target target' : Target} (h : target.Expands target')
    (s : Stage) : C.Alike s Place.rename (target.place C.host) (target'.place C.host) := by
  cases h with
  | named tok => exact .pure fun _ _ => rfl
  | item hobj his =>
    refine .bind (hobj.alike hs s) fun t _ o o' _ ho => ?_
    refine .bind (Expr.indices_alike (his.alike hs t)) fun u htu i i' _ hi => .pure fun ρ hρ => ?_
    rw [(ho.later htu) ρ hρ, hi ρ hρ, Place.rename]
  | attr op name hobj =>
    refine .bind (hobj.alike hs s) fun t _ o o' _ ho => ?_
    cases op with
    | arrow =>
      refine .bind .fresh fun u htu h h' _ hh => .pure fun ρ hρ => ?_
      rw [(ho.later htu) ρ hρ, hh ρ hρ, Place.rename, Value.rename]
    | _ =>
      refine .pure fun ρ hρ => ?_
      rw [ho ρ hρ, Place.rename]
  | arrow hobj hw =>
    simp only [place, Expr.evalIndices_single, Expr.single_unlimited C.unlimited hw, bind_assoc,
      pure_bind]
    refine .bind (hobj.alike hs s) fun t _ o o' _ ho => ?_
    refine .bind .fresh fun u htu h h' _ hh => .pure fun ρ hρ => ?_
    rw [(ho.later htu) ρ hρ, hh ρ hρ, Place.rename, Value.rename]
  | indices hobj his hmany =>
    simp only [place, Expr.evalIndices_single]
    refine .bind (hobj.alike hs s) fun t _ o o' _ ho => ?_
    refine .bind (Expr.tuple_alike (his.alike hs t) hmany _) fun u htu i i' _ hi => ?_
    refine .pure fun ρ hρ => ?_
    rw [(ho.later htu) ρ hρ, hi ρ hρ, Place.rename]
  | invalid h => exact .fail ⟨h, fun hspan => absurd hspan hs⟩

end Target

/-! ### Runs -/

/-- **Sugar means what it stands for.** Take any expression and write out any of its sugared forms,
at any depth. From one world the two give the same value, with other numbers for the allocations
made on the way, or fail for the same cause with the same text. They run the same commands and leave
the same match groups. The value has the same text, and equality by content takes the two for one
unless it sees such an allocation. The same holds for targets. -/
theorem sugar_expands (host : Host) (hlimit : host.limit = none) (w : World)
    (hu : host.IsUniform w.supply) (ha : w.Allocated) :
    (∀ e e' : Expr, e.Expands e' → ∃ ρ, StrictMono ρ ∧ (∀ n < w.supply, ρ n = n) ∧
      Renumbers False (Value.rename ρ) ((evalExpr host e).outcome w)
        ((evalExpr host e').outcome w) ∧
      ∀ v, ((evalExpr host e).outcome w).1 = .ok v → (v.rename ρ).text = v.text ∧
        (v.KnownBelow w.supply → v.alike (v.rename ρ) = v.alike v)) ∧
    (∀ e e' : Expr, e.Expands e' → ∃ ρ, StrictMono ρ ∧ (∀ n < w.supply, ρ n = n) ∧
      Renumbers False (Place.rename ρ) ((evalTarget host e).outcome w)
        ((evalTarget host e').outcome w)) ∧
    ∀ p p' : PlaceExpr, p.target.Expands p'.target →
      ∃ ρ, StrictMono ρ ∧ (∀ n < w.supply, ρ n = n) ∧
        Renumbers False (Place.rename ρ) ((evalPlace host p).outcome w)
          ((evalPlace host p').outcome w) := by
  let C : Comparison := ⟨host, w.supply, False, hlimit, hu⟩
  have hs : ¬ C.spans := id
  have htarget : ∀ t t' : Target, t.Expands t' → ∃ ρ, StrictMono ρ ∧ (∀ n < w.supply, ρ n = n) ∧
      Renumbers False (Place.rename ρ) ((classified (t.place host)).outcome w)
        ((classified (t'.place host)).outcome w) := fun t t' h =>
    (h.alike hs (.first w.supply)).classified.outcome rfl ha
  refine ⟨fun e e' h => ?_, fun e e' h => ?_, fun p p' h => ?_⟩
  · have halike : C.Alike (.first w.supply) Value.rename (evalExpr host e) (evalExpr host e') :=
      (h.alike hs _).classified.withFlags _
    obtain ⟨ρ, hmono, hfixes, hends⟩ := halike.outcome rfl ha
    exact ⟨ρ, hmono, hfixes, hends, fun v _ =>
      ⟨v.text_rename, fun hknown => v.alike_rename v (hknown.stands hfixes)⟩⟩
  · rw [Call.evalTarget_eq, Call.evalTarget_eq]
    exact htarget _ _ (.of_expr h)
  · rw [Call.evalPlace_eq, Call.evalPlace_eq]
    exact htarget _ _ h

/-- A variable in a dict, read behind an arrow. Written out, it takes one handle more. -/
theorem sugar_expands_entry :
    let host := ({} : Tables).host
    let w : World := {}
    let tok := (⟨.name, "k", .dummy⟩ : Token)
    let key : Expr := .const tok .dummy
    let value : Expr := .list [] .dummy
    let e : Expr := .list [.member (.dict [key] [value] .dummy) .arrow .dummy tok .dummy] .dummy
    let e' : Expr := .list [.subscript (.dict [key] [value] .dummy)
      [.word (.single ⟨.raw, [⟨.literal, "k", .dummy⟩], .dummy⟩) .dummy] .dummy] .dummy
    host.limit = none ∧ host.IsUniform 0 ∧ w.Allocated ∧ e.Expands e' ∧
      ((evalExpr host e).outcome w).2.supply + 1 = ((evalExpr host e').outcome w).2.supply ∧
      ((evalExpr host e').outcome w).1.toOption.map Value.text = some "[[]]" ∧
      ∃ ρ, StrictMono ρ ∧ Renumbers False (Value.rename ρ) ((evalExpr host e).outcome w)
        ((evalExpr host e').outcome w) := by
  intro host w tok key value e e'
  have hu : host.IsUniform 0 := Tables.host_isUniform {} 0
  have ha : w.Allocated := fun name v hv => by contradiction
  have hexpands : e.Expands e' := .list _ (.cons (.arrow (.refl _) rfl) .nil)
  have hsupply : ((evalExpr host e).outcome w).2.supply + 1 =
      ((evalExpr host e').outcome w).2.supply := by decide +kernel
  have htext : ((evalExpr host e').outcome w).1.toOption.map Value.text = some "[[]]" := by
    decide +kernel
  obtain ⟨ρ, hmono, -, hends, -⟩ := (sugar_expands host rfl w hu ha).1 e e' hexpands
  exact ⟨rfl, hu, ha, hexpands, hsupply, htext, ρ, hmono, hends⟩

end ShellExpr
