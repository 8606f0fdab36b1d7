import ShellExpr.Proofs.Eval.Trace

/-!
# Paths

The expressions that are open at some point of an evaluation are a path of the tree evaluated: each
is a child of the next one, and the last one is the root. A spread among arguments is no node of it,
and an eggex is a leaf.

* `Expr.Path`: the paths of a tree.
* `path_of_enter`: an evaluation enters along paths.
-/

namespace ShellExpr

namespace Expr

/-- What an argument evaluates: the child of a spread, any other expression itself. -/
def unspread : Expr → Expr
  | spread child _ => child
  | e => e

/-- The nodes below a node. -/
def children : Expr → List Expr
  | unary _ _ child _ => [child]
  | binary _ _ left right _ => [left, right]
  | range lower upper _ => [lower, upper]
  | slice lower upper _ => lower.toList ++ upper.toList
  | compare left links _ => left :: links.map Prod.snd
  | ifExp test body orElse _ => [test, body, orElse]
  | list items _ => items
  | tuple items _ => items
  | dict keys values _ => keys ++ values
  | call func positional named _ => func :: positional.map unspread ++ named.map Prod.snd
  | subscript obj indices _ => obj :: indices
  | member obj _ _ _ _ => [obj]
  | _ => []

/-- The paths of a tree, from a node up to the root. -/
inductive Path : Expr → List Expr → Prop where
  | root (e : Expr) : Path e [e]
  | child {e c : Expr} {p : List Expr} : c ∈ e.children → Path c p → Path e (p ++ [e])

end Expr

/-- The evaluation enters only along paths of these trees. -/
def Traced.Visits {α : Type} (trees : List Expr) (x : Traced α) : Prop :=
  ∀ path w p, Event.enter p ∈ (x path w).events → ∃ c ∈ trees, ∃ q, c.Path q ∧ p = q ++ path

section Visits

open Traced

variable {α β : Type} {trees : List Expr}

theorem visits_pure (a : α) : Visits trees (pure a) := by
  intro path w p hp
  contradiction

theorem visits_act (x : Eval α) : Visits trees (Machine.act x) := by
  intro path w p hp
  contradiction

theorem visits_link (op : CompareOp) (opSpan : Span) (left right : Value) :
    Visits trees (Machine.link op opSpan left right) := by
  intro path w p hp
  have hp := List.mem_singleton.mp hp
  contradiction

theorem Traced.Visits.mono {trees' : List Expr} {x : Traced α} (hx : Visits trees x)
    (h : ∀ c ∈ trees, c ∈ trees') : Visits trees' x := by
  intro path w p hp
  obtain ⟨c, hc, q, hq, rfl⟩ := hx path w p hp
  exact ⟨c, h c hc, q, hq, rfl⟩

theorem Traced.Visits.bind {x : Traced α} {f : α → Traced β} (hx : Visits trees x)
    (hf : ∀ a, Visits trees (f a)) : Visits trees (x >>= f) := by
  intro path w p hp
  cases hr : (x path w).result with
  | error e =>
    rw [bind_of_error hr] at hp
    exact hx path w p hp
  | ok a =>
    rw [bind_of_ok hr] at hp
    rcases List.mem_append.mp hp with hp | hp
    · exact hx path w p hp
    · exact hf a path _ p hp

theorem visits_enter (limit : Option Nat) {e : Expr} {x : Traced Value}
    (hx : Visits e.children x) : Visits [e] (Machine.enter limit e x) := by
  intro path w p hp
  have hroot : Event.enter p ∈ [.enter (e :: path)] →
      ∃ c ∈ [e], ∃ q, c.Path q ∧ p = q ++ path := by
    intro hp
    obtain rfl := Event.enter.inj (List.mem_singleton.mp hp)
    exact ⟨e, List.mem_cons_self, [e], .root e, rfl⟩
  change Event.enter p ∈ (Traced.enter limit e x path w).events at hp
  unfold Traced.enter at hp
  split at hp
  · exact hroot hp
  · rcases List.mem_append.mp hp with hp | hp
    · rcases List.mem_append.mp hp with hp | hp
      · exact hroot hp
      · -- a path below is one of a child, and goes on through the node to the root
        obtain ⟨c, hc, q, hq, rfl⟩ := hx _ _ p hp
        exact ⟨e, List.mem_cons_self, q ++ [e], .child hc hq, by simp⟩
    · -- only a value is noted at the end
      exfalso
      unfold Event.ofResult at hp
      split at hp
      · have hp := List.mem_singleton.mp hp
        contradiction
      · contradiction

end Visits

namespace Expr

open Traced

variable (host : Host)

mutual

theorem visits_eval : (e : Expr) → Visits [e] (e.eval host)
  | .const tok span => by
    simp only [eval]
    exact visits_enter _ ((visits_act _).bind fun h => visits_act _)
  | .var tok span => by
    simp only [eval]
    exact visits_enter _ (visits_act _)
  | .commandSub sub span => by
    simp only [eval]
    exact visits_enter _ (visits_act _)
  | .array words span => by
    simp only [eval]
    exact visits_enter _ ((visits_act _).bind fun fields =>
      (visits_act _).bind fun h => visits_pure _)
  | .word w span => by
    simp only [eval]
    exact visits_enter _ ((visits_act _).bind fun s => (visits_act _).bind fun h => visits_pure _)
  | .unary op opSpan child span => by
    simp only [eval]
    exact visits_enter _ ((visits_eval child).bind fun v => visits_act _)
  | .binary op opSpan left right span => by
    simp only [eval]
    have hl : Visits [left, right] (left.eval host) := (visits_eval left).mono (by simp)
    have hr : Visits [left, right] (right.eval host) := (visits_eval right).mono (by simp)
    refine visits_enter _ (hl.bind fun l => ?_)
    split
    · split
      · exact hr
      · exact visits_pure _
    · split
      · exact visits_pure _
      · exact hr
    · exact hr.bind fun r => (visits_act _).bind fun h => visits_act _
  | .range lower upper span => by
    simp only [eval]
    have hl : Visits [lower, upper] (lower.eval host) := (visits_eval lower).mono (by simp)
    have hu : Visits [lower, upper] (upper.eval host) := (visits_eval upper).mono (by simp)
    exact visits_enter _ (hl.bind fun l => hu.bind fun u => visits_act _)
  | .slice lower upper span => by
    simp only [eval]
    have hl := (visits_evalBound lower).mono fun c hc => List.mem_append_left upper.toList hc
    have hu := (visits_evalBound upper).mono fun c hc => List.mem_append_right lower.toList hc
    exact visits_enter _ (hl.bind fun l => hu.bind fun u => visits_pure _)
  | .compare left links span => by
    simp only [eval]
    have hl : Visits (left :: links.map Prod.snd) (left.eval host) :=
      (visits_eval left).mono (by simp)
    have hlinks := fun l => (visits_evalLinks l links).mono fun c hc => List.mem_cons_of_mem left hc
    exact visits_enter _ (hl.bind fun l => (hlinks l).bind fun b => visits_pure _)
  | .ifExp test body orElse span => by
    simp only [eval]
    have ht : Visits [test, body, orElse] (test.eval host) := (visits_eval test).mono (by simp)
    have hb : Visits [test, body, orElse] (body.eval host) := (visits_eval body).mono (by simp)
    have ho : Visits [test, body, orElse] (orElse.eval host) := (visits_eval orElse).mono (by simp)
    refine visits_enter _ (ht.bind fun t => ?_)
    split
    · exact hb
    · exact ho
  | .list items span => by
    simp only [eval]
    exact visits_enter _ ((visits_evalAll items).bind fun vs =>
      (visits_act _).bind fun h => visits_pure _)
  | .tuple items span => by
    simp only [eval]
    exact visits_enter _ ((visits_evalAll items).bind fun vs =>
      (visits_act _).bind fun h => visits_pure _)
  | .dict keys values span => by
    simp only [eval]
    have hk := (visits_evalAll keys).mono fun c hc => List.mem_append_left values hc
    have hv := fun es ks => (visits_evalEntries es ks values).mono fun c hc =>
      List.mem_append_right keys hc
    exact visits_enter _ (hk.bind fun ks => (hv _ _).bind fun es =>
      (visits_act _).bind fun h => visits_pure _)
  | .implicit span => by
    simp only [eval]
    exact visits_enter _ (visits_act _)
  | .reserved form parts span => by
    simp only [eval]
    exact visits_enter _ (visits_act _)
  | .call func positional named span => by
    simp only [eval]
    have hf : Visits (call func positional named span).children (func.eval host) :=
      (visits_eval func).mono (by simp [children])
    have hp : Visits (call func positional named span).children (evalPositional host positional) :=
      (visits_evalPositional positional).mono fun c hc =>
        List.mem_append_left _ (List.mem_cons_of_mem func hc)
    have hn : Visits (call func positional named span).children (evalNamed host [] named) :=
      (visits_evalNamed [] named).mono fun c hc => List.mem_append_right _ hc
    refine visits_enter _ (hf.bind fun f => ?_)
    split
    · exact hp.bind fun ps => hn.bind fun ns => (visits_act _).bind fun h => visits_act _
    · exact visits_act _
  | .subscript obj indices span => by
    simp only [eval]
    have ho : Visits (obj :: indices) (obj.eval host) := (visits_eval obj).mono (by simp)
    have hi := (visits_evalAll indices).mono fun c hc => List.mem_cons_of_mem obj hc
    exact visits_enter _ (ho.bind fun o => hi.bind fun is => (visits_act _).bind fun i =>
      (visits_act _).bind fun h => visits_act _)
  | .member obj op opSpan attr span => by
    simp only [eval]
    exact visits_enter _ ((visits_eval obj).bind fun o => visits_act _)
  | .eggex tree flags span => by
    simp only [eval]
    exact visits_enter _ ((visits_act _).bind fun t => (visits_act _).bind fun h => visits_pure _)
  | .spread child span => by
    simp only [eval]
    exact visits_enter _ (visits_act _)

theorem visits_evalAll : (es : List Expr) → Visits es (evalAll host es)
  | [] => by
    simp only [evalAll]
    exact visits_pure _
  | e :: rest => by
    simp only [evalAll]
    have he : Visits (e :: rest) (e.eval host) := (visits_eval e).mono (by simp)
    have hrest := (visits_evalAll rest).mono fun c hc => List.mem_cons_of_mem e hc
    exact he.bind fun v => hrest.bind fun vs => visits_pure _

theorem visits_evalBound : (e : Option Expr) → Visits e.toList (evalBound host e)
  | none => by
    simp only [evalBound]
    exact visits_pure _
  | some e => by
    simp only [evalBound]
    exact (visits_eval e).bind fun v => visits_act _

theorem visits_evalLinks (left : Value) : (links : List ((CompareOp × Span) × Expr)) →
    Visits (links.map Prod.snd) (evalLinks host left links)
  | [] => by
    simp only [evalLinks]
    exact visits_pure _
  | ((op, opSpan), e) :: rest => by
    simp only [evalLinks]
    have he : Visits (e :: rest.map Prod.snd) (e.eval host) := (visits_eval e).mono (by simp)
    have hrest := fun v => (visits_evalLinks v rest).mono fun c hc => List.mem_cons_of_mem e hc
    refine he.bind fun right => (visits_link _ _ _ _).bind fun l => ?_
    match l with
    | .ends b => exact visits_pure _
    | .holds false => exact visits_pure _
    | .holds true => exact hrest right

theorem visits_evalEntries (entries : List (Key × Value)) (keys : List (Value × Span)) :
    (values : List Expr) → Visits values (evalEntries host entries keys values)
  | [] => by
    simp only [evalEntries]
    exact visits_pure _
  | e :: rest => by
    have he : Visits (e :: rest) (e.eval host) := (visits_eval e).mono (by simp)
    have hrest := fun es ks => (visits_evalEntries es ks rest).mono fun c hc =>
      List.mem_cons_of_mem e hc
    cases keys with
    | nil =>
      simp only [evalEntries]
      exact visits_pure _
    | cons key keys =>
      obtain ⟨key, span⟩ := key
      simp only [evalEntries]
      split
      · exact (visits_act _).bind fun v => (visits_act _).bind fun k => hrest _ keys
      · exact he.bind fun v => (visits_act _).bind fun k => hrest _ keys

theorem visits_evalPositional : (es : List Expr) →
    Visits (es.map unspread) (evalPositional host es)
  | [] => by
    simp only [evalPositional]
    exact visits_pure _
  | e :: rest => by
    have hrest := (visits_evalPositional rest).mono fun c hc =>
      List.mem_cons_of_mem e.unspread hc
    cases e with
    | spread child span =>
      simp only [evalPositional]
      have hc : Visits (child :: rest.map unspread) (child.eval host) :=
        (visits_eval child).mono (by simp)
      exact hc.bind fun v => (visits_act _).bind fun h => (visits_act _).bind fun items =>
        hrest.bind fun vs => visits_pure _
    | _ =>
      simp only [evalPositional]
      refine Visits.bind ((visits_eval _).mono (by simp [unspread])) fun v => ?_
      exact hrest.bind fun vs => visits_pure _

theorem visits_evalNamed (named : List (String × Value)) : (args : List (Option Token × Expr)) →
    Visits (args.map Prod.snd) (evalNamed host named args)
  | [] => by
    simp only [evalNamed]
    exact visits_pure _
  | (name, e) :: rest => by
    have he : Visits (e :: rest.map Prod.snd) (e.eval host) := (visits_eval e).mono (by simp)
    have hrest := fun ns => (visits_evalNamed ns rest).mono fun c hc => List.mem_cons_of_mem e hc
    cases name with
    | some name =>
      simp only [evalNamed]
      exact he.bind fun v => hrest _
    | none =>
      simp only [evalNamed]
      exact he.bind fun v => (visits_act _).bind fun h => (visits_act _).bind fun ns => hrest ns

end

end Expr

/-- **An evaluation enters along paths of the tree.** -/
theorem path_of_enter {host : Host} {e : Expr} {w : World} {p : List Expr}
    (h : Event.enter p ∈ (trace host e w).events) : e.Path p := by
  obtain ⟨c, hc, q, hq, rfl⟩ := e.visits_eval host _ _ p h
  obtain rfl := List.mem_singleton.mp hc
  rwa [List.append_nil]

end ShellExpr
