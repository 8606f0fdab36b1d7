import ShellExpr.Proofs.Eval.Stages
import ShellExpr.Proofs.Value.Maps

/-!
# Spreading a literal

A list, tuple or dict literal that is spread over the arguments of a call stands for its items or
entries, written out as arguments in the same place. The literal takes handles for itself and its
keys, and its entries go through a map of their own. Nothing of this shows in the arguments.

* `Expr.evalPositional_append`, `Expr.evalNamed_append`: arguments are evaluated piece by piece.
* `mergeNamed_literal`: the map between makes no difference.
* `ArgList.Gathers`: arguments with some of them gathered in literals that are spread.
* `evalArgList_gathers`: **spreading a literal is writing its items out**.
-/

namespace ShellExpr

open Assoc Eval

variable {host : Host}

namespace Expr

/-! ### Pieces of arguments -/

theorem evalPositional_append (host : Host) (es fs : List Expr) :
    (Expr.evalPositional host (es ++ fs) : Eval (List Value)) = (do
      let vs ← Expr.evalPositional host es
      let ws ← Expr.evalPositional host fs
      return vs ++ ws) := by
  induction es with
  | nil =>
    simp only [List.nil_append, Expr.evalPositional, pure_bind]
    exact (bind_pure _).symm
  | cons e rest ih =>
    cases e with
    | spread child span =>
      simp only [List.cons_append, Expr.evalPositional, ih, bind_assoc, pure_bind,
        List.append_assoc]
    | _ => simp only [List.cons_append, Expr.evalPositional, ih, bind_assoc, pure_bind]

/-- Arguments that are no spreads are evaluated as any other row of expressions. -/
theorem evalPositional_items {items : List Expr} (h : ∀ e ∈ items, e.isSpread = false) :
    (Expr.evalPositional host items : Eval (List Value)) = Expr.evalAll host items := by
  induction items with
  | nil => rfl
  | cons e rest ih =>
    rw [List.forall_mem_cons] at h
    rw [evalPositional_item host h.1, ih h.2, Expr.evalAll]

theorem evalNamed_append (host : Host) (named : List (String × Value))
    (args more : List (Option Token × Expr)) :
    (Expr.evalNamed host named (args ++ more) : Eval (List (String × Value))) = (do
      let named ← Expr.evalNamed host named args
      Expr.evalNamed host named more) := by
  induction args generalizing named with
  | nil => exact (pure_bind _ _).symm
  | cons arg rest ih =>
    obtain ⟨name, e⟩ := arg
    cases name with
    | some name => simp only [List.cons_append, Expr.evalNamed, ih, bind_assoc]
    | none => simp only [List.cons_append, Expr.evalNamed, ih, bind_assoc]

end Expr

/-! ### Entries -/

/-- An entry of a dict literal with a name for its key, and the argument of this name. -/
structure NamedEntry where
  key : Token
  keySpan : Span
  value : Expr
  /-- The name as the argument has it. -/
  name : Token
  isName : key.kind = .name
  sameText : name.text = key.text
  isWritten : value.isImplicit = false

namespace NamedEntry

/-- The key in the dict. -/
def keyExpr (e : NamedEntry) : Expr := .const e.key e.keySpan

/-- The entry as a named argument. -/
def argument (e : NamedEntry) : Option Token × Expr := (some e.name, e.value)

/-- The entries as one literal. -/
def literal (entries : List NamedEntry) (span : Span) : Expr :=
  .dict (entries.map keyExpr) (entries.map value) span

/-- The values of the entries under their names. -/
def pairs (entries : List NamedEntry) (vs : List Value) : List (String × Value) :=
  (entries.map fun e => e.name.text).zip vs

theorem pairs_map (entries : List NamedEntry) (f : Value → Value) (vs : List Value) :
    pairs entries (vs.map f) = mapValues f (pairs entries vs) := by
  rw [pairs, List.zip_map_right]
  rfl

/-- The entries as named arguments are written one after the other. -/
theorem evalNamed_arguments (named : List (String × Value)) (entries : List NamedEntry) :
    (Expr.evalNamed host named (entries.map argument) : Eval (List (String × Value))) = (do
      let vs ← Expr.evalAll host (entries.map value)
      return insertAll named (pairs entries vs)) := by
  induction entries generalizing named with
  | nil => exact (pure_bind _ _).symm
  | cons e rest ih =>
    simp only [List.map_cons, argument, Expr.evalNamed, Expr.evalAll, bind_assoc, pure_bind] at ih ⊢
    refine congrArg (e.value.eval host >>= ·) (funext fun v => ?_)
    rw [ih]
    rfl

/-- The entries of a dict are written in the same way, once the keys have given their texts. -/
theorem evalEntries_texts {entries : List NamedEntry} {ks : List Value} (spans : List Span)
    (hks : List.Forall₂ (fun e k => ∃ h, k = .str h e.name.text) entries ks)
    (hlen : spans.length = entries.length) (es : List (Key × Value)) :
    (Expr.evalEntries host es (ks.zip spans) (entries.map value) : Eval (List (Key × Value))) = (do
      let vs ← Expr.evalAll host (entries.map value)
      return insertAll es (mapKeys Key.str (pairs entries vs))) := by
  induction hks generalizing spans es with
  | nil => exact (pure_bind _ _).symm
  | @cons e k rest ks hk _ ih =>
    obtain ⟨h, rfl⟩ := hk
    cases spans with
    | nil => cases hlen
    | cons span spans =>
      have hkey : keyOf (.str h e.name.text) span = pure (.str e.name.text) := rfl
      simp only [List.map_cons, List.zip_cons_cons, Expr.evalEntries, e.isWritten, Expr.evalAll,
        bind_assoc, pure_bind]
      refine congrArg (e.value.eval host >>= ·) (funext fun v => ?_)
      show keyOf (.str h e.name.text) span >>= _ = _
      rw [hkey, pure_bind, ih spans (Nat.succ.inj hlen)]
      rfl

end NamedEntry

/-- Entries with texts for keys can all be merged. -/
theorem mergeEntries_texts (named pairs : List (String × Value)) :
    mergeEntries named (mapKeys Key.str pairs) = .ok (insertAll named pairs) := by
  induction pairs generalizing named with
  | nil => rfl
  | cons p rest ih => exact ih _

/-- **Merging the entries of a literal is writing them one by one**, though the literal has kept one
entry for each key. -/
theorem mergeNamed_literal (h k : Handle) (named pairs : List (String × Value)) :
    mergeNamed h named (.dict k (ofPairs (mapKeys Key.str pairs))) =
      .ok (insertAll named pairs) := by
  have hinj : Function.Injective Key.str := fun _ _ h => Key.str.inj h
  rw [mergeNamed, ← mapKeys_ofPairs hinj, mergeEntries_texts, insertAll_ofPairs]

/-! ### Literals and what stands for them -/

/-- A list or tuple literal. -/
inductive Expr.Row (items : List Expr) : Expr → Prop where
  | list (span : Span) : Row items (.list items span)
  | tuple (span : Span) : Row items (.tuple items span)

/-- A spread literal gives its items and takes two handles on the way. -/
theorem Expr.Row.evalPositional {items : List Expr} {e : Expr} (h : Row items e)
    (hlimit : host.limit = none) (span : Span) :
    (Expr.evalPositional host [.spread e span] : Eval (List Value)) = (do
      let vs ← Expr.evalAll host items
      let _ ← fresh
      let _ ← fresh
      return vs) := by
  cases h with
  | list _ =>
    simp only [Expr.evalPositional, list_unlimited hlimit, bind_assoc, pure_bind, spreadItems,
      ofFault, List.append_nil]
    rfl
  | tuple _ =>
    simp only [Expr.evalPositional, tuple_unlimited hlimit, bind_assoc, pure_bind, spreadItems,
      ofFault, List.append_nil]
    rfl

namespace Comparison.Alike

variable {C : Comparison} {s : Stage}

theorem evalAll (es : List Expr) : C.Alike s (fun ρ => List.map (Value.rename ρ))
    (Expr.evalAll C.host es) (Expr.evalAll C.host es) :=
  alike_of_corresponds _ fun _ _ _ hR => hR.evalAll es fun n _ => n.isAdmitted_true

/-- A piece of the positional arguments and the rest of them. -/
theorem evalPositional_append {es es' fs fs' : List Expr}
    (hes : C.Alike s (fun ρ => List.map (Value.rename ρ)) (Expr.evalPositional C.host es)
      (Expr.evalPositional C.host es'))
    (hfs : ∀ t, C.Alike t (fun ρ => List.map (Value.rename ρ)) (Expr.evalPositional C.host fs)
      (Expr.evalPositional C.host fs')) :
    C.Alike s (fun ρ => List.map (Value.rename ρ)) (Expr.evalPositional C.host (es ++ fs))
      (Expr.evalPositional C.host (es' ++ fs')) := by
  rw [Expr.evalPositional_append, Expr.evalPositional_append]
  refine bind hes fun t _ vs vs' _ hvs => bind (hfs t) fun u htu ws ws' _ hws => pure fun ρ hρ => ?_
  rw [(hvs.later htu) ρ hρ, hws ρ hρ, List.map_append]

/-- A piece of the named arguments and the rest of them, written to what came before. -/
theorem evalNamed_append {named named' : List (String × Value)}
    {args args' more more' : List (Option Token × Expr)}
    (hargs : C.Alike s (fun ρ => mapValues (Value.rename ρ)) (Expr.evalNamed C.host named args)
      (Expr.evalNamed C.host named' args'))
    (hmore : ∀ t ns ns', t.Pairs (fun ρ => mapValues (Value.rename ρ)) ns ns' →
      C.Alike t (fun ρ => mapValues (Value.rename ρ)) (Expr.evalNamed C.host ns more)
        (Expr.evalNamed C.host ns' more')) :
    C.Alike s (fun ρ => mapValues (Value.rename ρ)) (Expr.evalNamed C.host named (args ++ more))
      (Expr.evalNamed C.host named' (args' ++ more')) := by
  rw [Expr.evalNamed_append, Expr.evalNamed_append]
  exact bind hargs fun t _ ns ns' _ hns => hmore t ns ns' hns

/-- The items of a literal as arguments, and the literal spread. -/
theorem row {items : List Expr} (hitems : ∀ e ∈ items, e.isSpread = false) {e : Expr}
    (h : e.Row items) (span : Span) : C.Alike s (fun ρ => List.map (Value.rename ρ))
      (Expr.evalPositional C.host items) (Expr.evalPositional C.host [.spread e span]) := by
  rw [h.evalPositional C.unlimited, Expr.evalPositional_items hitems]
  have hgoes := bind (k := fun ρ => List.map (Value.rename ρ)) (evalAll (s := s) items)
    fun t _ vs vs' _ hvs => skip fun _ => skip fun _ => pure (C := C) hvs
  rwa [bind_pure] at hgoes

/-- The keys of a literal only take handles. -/
theorem skip_names {α α' : Type} {g : (Nat → Nat) → α → α'} {x : Eval α}
    {entries : List NamedEntry} {f : List Value → Eval α'}
    (hf : ∀ ks, List.Forall₂ (fun e k => ∃ h, k = Value.str h e.name.text) entries ks →
      C.Alike s g x (f ks)) :
    C.Alike s g x (Expr.evalAll C.host (entries.map NamedEntry.keyExpr) >>= f) := by
  induction entries generalizing f with
  | nil => exact hf [] .nil
  | cons e rest ih =>
    have hkey : (e.keyExpr.eval C.host : Eval Value) =
        (do return .str (← Eval.fresh) e.name.text) := by
      rw [e.sameText]
      exact Expr.name_unlimited C.unlimited e.isName _
    simp only [List.map_cons, Expr.evalAll, hkey, bind_assoc, pure_bind]
    exact skip fun h => ih fun ks hks => hf _ (.cons ⟨h, rfl⟩ hks)

/-- The entries of a literal as named arguments, and the literal spread. -/
theorem literal (entries : List NamedEntry) (span : Span) {named named' : List (String × Value)}
    (hnamed : s.Pairs (fun ρ => mapValues (Value.rename ρ)) named named') :
    C.Alike s (fun ρ => mapValues (Value.rename ρ))
      (Expr.evalNamed C.host named (entries.map NamedEntry.argument))
      (Expr.evalNamed C.host named' [(none, NamedEntry.literal entries span)]) := by
  have hdict : (Expr.evalNamed C.host named' [(none, NamedEntry.literal entries span)] :
      Eval (List (String × Value))) = (do
        let ks ← Expr.evalAll C.host (entries.map NamedEntry.keyExpr)
        let es ← Expr.evalEntries C.host []
          (ks.zip ((entries.map NamedEntry.keyExpr).map Expr.span)) (entries.map NamedEntry.value)
        let k ← Eval.fresh
        let h ← Eval.fresh
        Eval.ofFault span (mergeNamed h named' (.dict k es)) >>= Pure.pure) := by
    simp only [Expr.evalNamed, NamedEntry.literal, Expr.dict_unlimited C.unlimited, bind_assoc,
      pure_bind]
    rfl
  rw [hdict]
  -- the keys come before all values, but they do nothing that shows
  refine skip_names fun ks hks => ?_
  rw [NamedEntry.evalNamed_arguments, NamedEntry.evalEntries_texts _ hks (by simp), bind_assoc]
  refine bind (evalAll _) fun t hst vs vs' _ hvs => ?_
  rw [pure_bind]
  refine skip fun k => skip fun h => ?_
  have hmerge := mergeNamed_literal h k named' (NamedEntry.pairs entries vs')
  rw [ofPairs] at hmerge
  rw [hmerge]
  refine pure fun ρ hρ => ?_
  rw [(hnamed.later hst) ρ hρ, hvs ρ hρ, NamedEntry.pairs_map, mapValues_insertAll]

end Comparison.Alike

/-! ### Whole argument lists -/

/-- The second row of positional arguments has some pieces of the first gathered in a list or tuple
literal that is spread. -/
inductive Expr.Gathers : List Expr → List Expr → Prop where
  | nil : Gathers [] []
  | keep (e : Expr) {rest rest' : List Expr} (hrest : Gathers rest rest') :
      Gathers (e :: rest) (e :: rest')
  | row {items : List Expr} {literal : Expr} (span : Span) {rest rest' : List Expr}
      (hitems : ∀ e ∈ items, e.isSpread = false) (hliteral : literal.Row items)
      (hrest : Gathers rest rest') : Gathers (items ++ rest) (.spread literal span :: rest')

/-- The second row of named arguments has some pieces of the first gathered in a dict literal that
is spread. -/
inductive Expr.GathersNamed :
    List (Option Token × Expr) → List (Option Token × Expr) → Prop where
  | nil : GathersNamed [] []
  | keep (arg : Option Token × Expr) {rest rest' : List (Option Token × Expr)}
      (hrest : GathersNamed rest rest') : GathersNamed (arg :: rest) (arg :: rest')
  | dict (entries : List NamedEntry) (span : Span) {rest rest' : List (Option Token × Expr)}
      (hrest : GathersNamed rest rest') :
      GathersNamed (entries.map NamedEntry.argument ++ rest)
        ((none, NamedEntry.literal entries span) :: rest')

/-- The same for both parts of an argument list. -/
structure ArgList.Gathers (args args' : ArgList) : Prop where
  positional : Expr.Gathers args.positional args'.positional
  named : Expr.GathersNamed args.named args'.named

variable {C : Comparison}

theorem Expr.Gathers.alike {es es' : List Expr} (h : Expr.Gathers es es') (s : Stage) :
    C.Alike s (fun ρ => List.map (Value.rename ρ)) (Expr.evalPositional C.host es)
      (Expr.evalPositional C.host es') := by
  induction h generalizing s with
  | nil => exact .pure fun _ _ => rfl
  | keep e _ ih =>
    have he : C.Alike s (fun ρ => List.map (Value.rename ρ)) (Expr.evalPositional C.host [e])
        (Expr.evalPositional C.host [e]) :=
      Comparison.alike_of_corresponds _ fun _ _ _ hR =>
        hR.evalPositional [e] fun n _ => n.isAdmitted_true
    exact he.evalPositional_append ih
  | row span hitems hliteral _ ih => exact .evalPositional_append (.row hitems hliteral span) ih

theorem Expr.GathersNamed.alike {args args' : List (Option Token × Expr)}
    (h : Expr.GathersNamed args args') (s : Stage) {named named' : List (String × Value)}
    (hnamed : s.Pairs (fun ρ => mapValues (Value.rename ρ)) named named') :
    C.Alike s (fun ρ => mapValues (Value.rename ρ)) (Expr.evalNamed C.host named args)
      (Expr.evalNamed C.host named' args') := by
  induction h generalizing s named named' with
  | nil => exact .pure hnamed
  | keep arg _ ih =>
    have harg : C.Alike s (fun ρ => mapValues (Value.rename ρ))
        (Expr.evalNamed C.host named [arg]) (Expr.evalNamed C.host named' [arg]) :=
      Comparison.alike_of_corresponds _ fun ρ hρ _ hR => by
        rw [hnamed ρ hρ]
        exact hR.evalNamed named [arg] fun n _ => n.isAdmitted_true
    exact harg.evalNamed_append fun t _ _ hnamed => ih t hnamed
  | dict entries span _ ih =>
    exact (Comparison.Alike.literal entries span hnamed).evalNamed_append
      fun t _ _ hnamed => ih t hnamed

/-- **Spreading a literal is writing its items out.** Take any arguments, gather any of the
positional ones in lists or tuples that are spread in their place, and any of the named ones in
dicts. From one world the two give the same positional values in the same order and the same named
ones in the same order, with other numbers for the allocations made on the way, or fail with the
same error. They run the same commands and leave the same match groups. -/
theorem evalArgList_gathers (host : Host) (hlimit : host.limit = none) (w : World)
    (hu : host.IsUniform w.supply) (ha : w.Allocated) {args args' : ArgList}
    (h : args.Gathers args') :
    ∃ ρ, StrictMono ρ ∧ (∀ n < w.supply, ρ n = n) ∧
      ((evalArgList host args').outcome w).1 =
        ((evalArgList host args).outcome w).1.map (Arguments.rename ρ) ∧
      ((evalArgList host args').outcome w).2.runs = ((evalArgList host args).outcome w).2.runs ∧
      ((evalArgList host args').outcome w).2.store.groups =
        ((evalArgList host args).outcome w).2.store.groups := by
  let C : Comparison := ⟨host, w.supply, True, hlimit, hu⟩
  have halike : C.Alike (.first w.supply) Arguments.rename (evalArgList host args)
      (evalArgList host args') := by
    refine .classified (.bind (h.positional.alike _) fun t _ ps ps' _ hps => ?_)
    refine .bind (h.named.alike t fun _ _ => rfl) fun u htu ns ns' _ hns => .pure fun ρ hρ => ?_
    rw [(hps.later htu) ρ hρ, hns ρ hρ]
    rfl
  obtain ⟨ρ, hmono, hfixes, hends⟩ := halike.outcome rfl ha
  exact ⟨ρ, hmono, hfixes, hends.exact trivial, hends.runs, hends.groups⟩

/-- A list and a dict with a key given twice, both spread. -/
theorem evalArgList_gathers_literals :
    let host := ({} : Tables).host
    let w : World := {}
    let tok := fun kind text => (⟨kind, text, .dummy⟩ : Token)
    let null : Expr := .const (tok .nullWord "null") .dummy
    let empty : Expr := .list [] .dummy
    let entry := fun text value (h : value.isImplicit = false) =>
      (⟨tok .name text, .dummy, value, tok .name text, rfl, rfl, h⟩ : NamedEntry)
    let entries := [entry "a" empty rfl, entry "b" null rfl, entry "a" null rfl]
    let args : ArgList := ⟨[null, empty], entries.map NamedEntry.argument⟩
    let args' : ArgList := ⟨[.spread (.list [null, empty] .dummy) .dummy],
      [(none, NamedEntry.literal entries .dummy)]⟩
    host.limit = none ∧ host.IsUniform 0 ∧ w.Allocated ∧ args.Gathers args' ∧
      (((evalArgList host args').outcome w).1.toOption.map fun as =>
        (as.positional.map Value.text, as.named.map fun p => (p.1, p.2.text))) =
          some (["null", "[]"], [("a", "null"), ("b", "null")]) ∧
      ∃ ρ, StrictMono ρ ∧ ((evalArgList host args').outcome w).1 =
        ((evalArgList host args).outcome w).1.map (Arguments.rename ρ) := by
  intro host w tok null empty entry entries args args'
  have hu : host.IsUniform 0 := Tables.host_isUniform {} 0
  have ha : w.Allocated := fun name v hv => by contradiction
  have hitems : ∀ e ∈ [null, empty], e.isSpread = false := by simp [null, empty, Expr.isSpread]
  have hgathers : args.Gathers args' :=
    ⟨.row _ hitems (.list _) .nil, .dict entries _ .nil⟩
  have htexts : (((evalArgList host args').outcome w).1.toOption.map fun as =>
      (as.positional.map Value.text, as.named.map fun p => (p.1, p.2.text))) =
        some (["null", "[]"], [("a", "null"), ("b", "null")]) := by decide +kernel
  obtain ⟨ρ, hmono, -, hresult, -⟩ := evalArgList_gathers host rfl w hu ha hgathers
  exact ⟨rfl, hu, ha, hgathers, htexts, ρ, hmono, hresult⟩

end ShellExpr
