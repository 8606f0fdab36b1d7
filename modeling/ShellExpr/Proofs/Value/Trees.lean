import ShellExpr.Eval.Expr
import ShellExpr.Proofs.Basics

/-!
# The eggexes inside values

Values may hold eggexes at any depth. Operators, subscripts and spreads hand on what their operands
hold and make no eggexes of their own.

* `Value.trees`: the trees of all eggexes inside a value.
* `Value.Holds`: all of them have a property.
-/

namespace ShellExpr

namespace Value

mutual

/-- The trees of all eggexes inside a value. -/
def trees : Value → List Eggex
  | list _ xs => treesAll xs
  | tuple _ xs => treesAll xs
  | dict _ es => treesEntries es
  | object _ _ attrs => treesAttrs attrs
  | eggex _ e => [e.tree]
  | _ => []

/-- The same for several values. -/
def treesAll : List Value → List Eggex
  | [] => []
  | v :: rest => v.trees ++ treesAll rest

/-- The same for the values of a dict. -/
def treesEntries : List (Key × Value) → List Eggex
  | [] => []
  | (_, v) :: rest => v.trees ++ treesEntries rest

/-- The same for the members of an object. -/
def treesAttrs : List (String × Value) → List Eggex
  | [] => []
  | (_, v) :: rest => v.trees ++ treesAttrs rest

end

/-- Whether the trees of all eggexes inside the value have a property. -/
def Holds (T : Eggex → Prop) (v : Value) : Prop := ∀ t ∈ v.trees, T t

variable {T : Eggex → Prop}

theorem mem_treesAll {t : Eggex} {xs : List Value} : t ∈ treesAll xs ↔ ∃ v ∈ xs, t ∈ v.trees := by
  induction xs with
  | nil => simp [treesAll]
  | cons v rest ih => simp [treesAll, ih]

theorem mem_treesEntries {t : Eggex} {es : List (Key × Value)} :
    t ∈ treesEntries es ↔ ∃ e ∈ es, t ∈ e.2.trees := by
  induction es with
  | nil => simp [treesEntries]
  | cons e rest ih => simp [treesEntries, ih]

theorem mem_treesAttrs {t : Eggex} {attrs : List (String × Value)} :
    t ∈ treesAttrs attrs ↔ ∃ e ∈ attrs, t ∈ e.2.trees := by
  induction attrs with
  | nil => simp [treesAttrs]
  | cons e rest ih => simp [treesAttrs, ih]

@[simp] theorem holds_list {h : Handle} {xs : List Value} :
    (list h xs).Holds T ↔ ∀ v ∈ xs, v.Holds T := by
  simp only [Holds, trees, mem_treesAll]
  exact ⟨fun H v hv t ht => H t ⟨v, hv, ht⟩, fun H t ⟨v, hv, ht⟩ => H v hv t ht⟩

@[simp] theorem holds_tuple {h : Handle} {xs : List Value} :
    (tuple h xs).Holds T ↔ ∀ v ∈ xs, v.Holds T := by
  simp only [Holds, trees, mem_treesAll]
  exact ⟨fun H v hv t ht => H t ⟨v, hv, ht⟩, fun H t ⟨v, hv, ht⟩ => H v hv t ht⟩

@[simp] theorem holds_dict {h : Handle} {es : List (Key × Value)} :
    (dict h es).Holds T ↔ ∀ e ∈ es, e.2.Holds T := by
  simp only [Holds, trees, mem_treesEntries]
  exact ⟨fun H e he t ht => H t ⟨e, he, ht⟩, fun H t ⟨e, he, ht⟩ => H e he t ht⟩

@[simp] theorem holds_object {h : Handle} {type : String} {attrs : List (String × Value)} :
    (object h type attrs).Holds T ↔ ∀ e ∈ attrs, e.2.Holds T := by
  simp only [Holds, trees, mem_treesAttrs]
  exact ⟨fun H e he t ht => H t ⟨e, he, ht⟩, fun H t ⟨e, he, ht⟩ => H e he t ht⟩

@[simp] theorem holds_eggex {h : Handle} {e : EggexValue} : (eggex h e).Holds T ↔ T e.tree := by
  simp [Holds, trees]

/-- A value without eggexes. -/
theorem holds_of_trees_eq_nil {v : Value} (h : v.trees = []) : v.Holds T := by
  simp [Holds, h]

end Value

open Value

variable {T : Eggex → Prop}

/-! ### Operations -/

theorem trees_constant {h : Handle} {tok : Token} {v : Value}
    (hv : Literal.constant h tok = .ok v) : v.trees = [] := by
  unfold Literal.constant at hv
  split at hv
  all_goals first
    | contradiction
    | exact Except.ok.inj hv ▸ rfl
    | (obtain ⟨n, -, rfl⟩ := ok_of_map (ok_of_mapError hv); rfl)
    | (obtain ⟨n, -, rfl⟩ := ok_of_map hv; rfl)

namespace Arithmetic

theorem trees_checked {operation : String} {n : Option Int64} {v : Value}
    (hv : checked operation n = .ok v) : v.trees = [] := by
  unfold checked at hv
  split at hv
  · exact Except.ok.inj hv ▸ rfl
  · contradiction

theorem trees_onInts? {a b : Int64} {op : BinaryOp} {r : Except Fault Value} {v : Value}
    (hr : onInts? a b op = some r) (hv : r = .ok v) : v.trees = [] := by
  subst hv
  -- a power and the shifts look at their right operand first
  cases op
  case pow =>
    have h := Option.some.inj hr
    unfold power at h
    split at h
    · exact Except.ok.inj h ▸ rfl
    · exact trees_checked h
  case shiftLeft =>
    have h := Option.some.inj hr
    unfold shiftLeft at h
    split at h
    · contradiction
    · exact trees_checked h
  case shiftRight =>
    have h := Option.some.inj hr
    unfold shiftRight at h
    split at h
    · contradiction
    · exact Except.ok.inj h ▸ rfl
  all_goals first
    | contradiction
    | exact trees_checked (Option.some.inj hr)
    | exact Except.ok.inj (Option.some.inj hr) ▸ rfl

theorem trees_onNumbers? {a b : Number} {op : BinaryOp} {r : Except Fault Value} {v : Value}
    (hr : onNumbers? a b op = some r) (hv : r = .ok v) : v.trees = [] := by
  unfold onNumbers? at hr
  split at hr
  · rw [← Option.some.inj hr] at hv
    contradiction
  split at hr
  · rw [← Option.some.inj hr] at hv
    exact Except.ok.inj hv ▸ rfl
  split at hr
  · exact trees_onInts? hr hv
  · obtain ⟨x, -, rfl⟩ := Option.map_eq_some_iff.mp hr
    exact Except.ok.inj hv ▸ rfl

theorem trees_getD_onNumbers? {a b : Number} {op : BinaryOp} {f : Fault} {v : Value}
    (hv : (onNumbers? a b op).getD (.error f) = .ok v) : v.trees = [] := by
  cases hr : onNumbers? a b op with
  | none =>
    rw [hr] at hv
    contradiction
  | some r =>
    rw [hr] at hv
    exact trees_onNumbers? hr hv

/-- A sequence repeated has the elements it had. -/
theorem mem_of_repetition {α : Type} {size n : Nat} {xs ys : List α} {y : α}
    (h : Repetition.sequence size xs n = .ok ys) (hy : y ∈ ys) : y ∈ xs := by
  unfold Repetition.sequence at h
  split at h
  · rw [← Except.ok.inj h] at hy
    simp at hy
  split at h
  · contradiction
  · rw [← Except.ok.inj h, List.mem_flatten] at hy
    obtain ⟨l, hl, hy⟩ := hy
    rwa [List.eq_of_mem_replicate hl] at hy

theorem holds_repetition {h : Handle} {n : Int64} {u v : Value} {f : Fault}
    (hv : (Repetition.value? h n u).getD (.error f) = .ok v) (hu : u.Holds T) : v.Holds T := by
  unfold Repetition.value? at hv
  split at hv
  · obtain ⟨cs, -, rfl⟩ := ok_of_map hv
    exact holds_of_trees_eq_nil rfl
  · obtain ⟨ys, hys, rfl⟩ := ok_of_map hv
    rw [holds_list] at hu ⊢
    exact fun y hy => hu y (mem_of_repetition hys hy)
  · obtain ⟨ys, hys, rfl⟩ := ok_of_map hv
    rw [holds_tuple] at hu ⊢
    exact fun y hy => hu y (mem_of_repetition hys hy)
  · contradiction

theorem holds_onSequences {h : Handle} {op : BinaryOp} {l r v : Value}
    (hv : onSequences h op l r = .ok v) (hl : l.Holds T) (hr : r.Holds T) : v.Holds T := by
  unfold onSequences at hv
  split at hv
  · split at hv
    · exact Except.ok.inj hv ▸ holds_of_trees_eq_nil rfl
    · contradiction
  · split at hv
    · rw [holds_list] at hl hr
      exact Except.ok.inj hv ▸ holds_list.mpr (List.forall_mem_append.mpr ⟨hl, hr⟩)
    · contradiction
  · split at hv
    · rw [holds_tuple] at hl hr
      exact Except.ok.inj hv ▸ holds_tuple.mpr (List.forall_mem_append.mpr ⟨hl, hr⟩)
    · contradiction
  · split at hv
    · exact holds_repetition hv hl
    · contradiction
  · split at hv
    · exact holds_repetition hv hr
    · contradiction
  · contradiction

end Arithmetic

open Arithmetic in
/-- A binary operator hands on what its operands hold. -/
theorem holds_binary {h : Handle} {op : BinaryOp} {l r v : Value}
    (hv : binary h op l r = .ok v) (hl : l.Holds T) (hr : r.Holds T) : v.Holds T := by
  unfold binary at hv
  split at hv
  · obtain rfl := Except.ok.inj hv
    split
    · exact hr
    · exact hl
  · obtain rfl := Except.ok.inj hv
    split
    · exact hl
    · exact hr
  · split at hv
    · exact Except.ok.inj hv ▸ holds_of_trees_eq_nil rfl
    · exact holds_of_trees_eq_nil (trees_getD_onNumbers? hv)
  · split at hv
    · exact holds_of_trees_eq_nil (trees_getD_onNumbers? hv)
    · exact holds_onSequences hv hl hr

theorem trees_unary {op : UnaryOp} {u v : Value} (hv : unary op u = .ok v) : v.trees = [] := by
  unfold unary at hv
  split at hv
  case h_2 => exact Arithmetic.trees_checked hv
  all_goals first
    | contradiction
    | exact Except.ok.inj hv ▸ rfl

/-! ### Access -/

namespace Access

theorem mem_of_element {α : Type} {xs : List α} {i : Int} {x : α} (h : element xs i = .ok x) :
    x ∈ xs := by
  unfold element at h
  simp only at h
  generalize (if i < 0 then i + (xs.length : Int) else i) = j at h
  split at h
  · rename_i y hy
    obtain rfl := Except.ok.inj h
    split at hy
    · contradiction
    · exact List.mem_of_getElem? hy
  · contradiction

/-- An element or a piece of a sequence is made of its elements. -/
theorem holds_sequence {α : Type} {obj index : Value} {xs : List α} {one : α → Value}
    {many : List α → Value} {v : Value} (hv : sequence obj index xs one many = .ok v)
    (h1 : ∀ x ∈ xs, (one x).Holds T) (h2 : ∀ ys, (∀ y ∈ ys, y ∈ xs) → (many ys).Holds T) :
    v.Holds T := by
  obtain ⟨i, -, hv⟩ := ok_of_bind hv
  cases i with
  | position i =>
    obtain ⟨x, hx, hv⟩ := ok_of_bind hv
    exact Except.ok.inj hv ▸ h1 x (mem_of_element hx)
  | piece s =>
    refine Except.ok.inj hv ▸ h2 _ fun y hy => ?_
    exact List.mem_of_mem_take (List.mem_of_mem_drop hy)

theorem trees_slot (h : Handle) (s : Option String) : (slot h s).trees = [] := by
  cases s <;> rfl

end Access

open Access in
/-- An entry, element or piece holds what its container holds. -/
theorem holds_subscript {h : Handle} {obj index v : Value}
    (hv : subscript h obj index = .ok v) (ho : obj.Holds T) : v.Holds T := by
  unfold subscript at hv
  split at hv
  · split at hv
    · rename_i k _
      unfold entry at hv
      split at hv
      · rename_i u hu
        rw [holds_dict] at ho
        exact Except.ok.inj hv ▸ Assoc.of_get? hu ho
      · contradiction
    · contradiction
  · split at hv
    · unfold entry at hv
      split at hv
      · rename_i u hu
        obtain ⟨s, -, rfl⟩ := Option.map_eq_some_iff.mp hu
        exact Except.ok.inj hv ▸ holds_of_trees_eq_nil rfl
      · contradiction
    · contradiction
  · rw [holds_list] at ho
    exact holds_sequence hv ho fun ys hy => holds_list.mpr fun y hm => ho y (hy y hm)
  · rw [holds_tuple] at ho
    exact holds_sequence hv ho fun ys hy => holds_tuple.mpr fun y hm => ho y (hy y hm)
  · exact holds_sequence hv (fun s _ => holds_of_trees_eq_nil (trees_slot h s))
      fun ys _ => holds_of_trees_eq_nil rfl
  · exact holds_sequence hv (fun c _ => holds_of_trees_eq_nil rfl)
      fun ys _ => holds_of_trees_eq_nil rfl
  · contradiction

/-- A member holds what its object holds. -/
theorem holds_member {obj v : Value} {name : String} (hv : member obj name = .ok v)
    (ho : obj.Holds T) : v.Holds T := by
  unfold member at hv
  split at hv
  · split at hv
    · rename_i u hu
      rw [holds_object] at ho
      exact Except.ok.inj hv ▸ Assoc.of_get? hu ho
    · contradiction
  · contradiction

/-! ### Arguments -/

namespace Eval

/-- Spread items hold what the sequence holds. -/
theorem holds_spreadItems {h : Handle} {v : Value} {items : List Value}
    (hi : spreadItems h v = .ok items) (hv : v.Holds T) : ∀ u ∈ items, u.Holds T := by
  unfold spreadItems at hi
  split at hi
  · exact Except.ok.inj hi ▸ holds_list.mp hv
  · exact Except.ok.inj hi ▸ holds_tuple.mp hv
  · obtain rfl := Except.ok.inj hi
    intro u hu
    obtain ⟨i, hi, rfl⟩ := List.mem_mapIdx.mp hu
    exact holds_of_trees_eq_nil (Access.trees_slot _ _)
  · obtain rfl := Except.ok.inj hi
    intro u hu
    obtain ⟨n, -, rfl⟩ := List.mem_map.mp hu
    exact holds_of_trees_eq_nil rfl
  · contradiction

theorem holds_mergeEntries {es : List (Key × Value)} {named named' : List (String × Value)}
    (hm : mergeEntries named es = .ok named') (hn : ∀ e ∈ named, e.2.Holds T)
    (he : ∀ e ∈ es, e.2.Holds T) : ∀ e ∈ named', e.2.Holds T := by
  induction es generalizing named with
  | nil => exact Except.ok.inj hm ▸ hn
  | cons e rest ih =>
    obtain ⟨k, v⟩ := e
    rw [List.forall_mem_cons] at he
    unfold mergeEntries at hm
    split at hm
    · exact ih hm (Assoc.forall_insert he.1 hn) he.2
    · contradiction

/-- Named arguments with a mapping spread into them hold what both hold. -/
theorem holds_mergeNamed {h : Handle} {named named' : List (String × Value)} {v : Value}
    (hm : mergeNamed h named v = .ok named') (hn : ∀ e ∈ named, e.2.Holds T) (hv : v.Holds T) :
    ∀ e ∈ named', e.2.Holds T := by
  unfold mergeNamed at hm
  split at hm
  · exact holds_mergeEntries hm hn (holds_dict.mp hv)
  · obtain rfl := Except.ok.inj hm
    refine Assoc.forall_insertAll hn fun e he => ?_
    obtain ⟨i, hi, rfl⟩ := List.mem_mapIdx.mp he
    exact holds_of_trees_eq_nil rfl
  · contradiction

end Eval

/-! ### Stores -/

/-- Whether the trees of all eggexes inside the values of all variables have a property. -/
def Store.Holds (T : Eggex → Prop) (s : Store) : Prop :=
  ∀ f ∈ s.globals :: s.frames, ∀ e ∈ f, e.2.Holds T

namespace Store

theorem holds_true (s : Store) : s.Holds fun _ => True := fun _ _ _ _ _ _ => trivial

theorem holds_of_lookupFrames {name : String} {fs : List Frame} {v : Value}
    (hv : lookupFrames name fs = some v) (h : ∀ f ∈ fs, ∀ e ∈ f, e.2.Holds T) : v.Holds T := by
  induction fs with
  | nil => contradiction
  | cons f rest ih =>
    rw [List.forall_mem_cons] at h
    unfold lookupFrames at hv
    split at hv
    · rename_i u hu
      exact Option.some.inj hv ▸ Assoc.of_get? hu h.1
    · exact ih hv h.2

theorem Holds.localFrame {s : Store} (h : s.Holds T) : ∀ e ∈ s.localFrame, e.2.Holds T := by
  unfold Store.localFrame
  cases hf : s.frames with
  | nil => exact h s.globals List.mem_cons_self
  | cons f rest => exact h f (by simp [hf])

/-- A variable holds what its store holds. -/
theorem Holds.lookup {s : Store} (h : s.Holds T) {name : String} {scope : Scope} {v : Value}
    (hv : s.lookup name scope = some v) : v.Holds T := by
  have hg := h s.globals List.mem_cons_self
  cases scope with
  | localOnly => exact Assoc.of_get? hv h.localFrame
  | globalOnly => exact Assoc.of_get? hv hg
  | localOrGlobal =>
    refine holds_of_lookupFrames hv fun f hf => ?_
    simp only [List.mem_cons, List.not_mem_nil, or_false] at hf
    rcases hf with rfl | rfl
    · exact h.localFrame
    · exact hg
  | «dynamic» =>
    refine holds_of_lookupFrames hv fun f hf => ?_
    simp only [List.mem_append, List.mem_singleton] at hf
    rcases hf with hf | rfl
    · exact h f (List.mem_cons_of_mem _ hf)
    · exact hg

theorem Holds.defineGlobal {s : Store} (h : s.Holds T) {name : String} {v : Value}
    (hv : v.Holds T) : (s.defineGlobal name v).Holds T := by
  unfold Holds at h ⊢
  rw [List.forall_mem_cons] at h
  exact List.forall_mem_cons.mpr ⟨Assoc.forall_insert hv h.1, h.2⟩

theorem Holds.define {s : Store} (h : s.Holds T) {name : String} {v : Value} (hv : v.Holds T) :
    (s.define name v).Holds T := by
  unfold Store.define
  cases hf : s.frames with
  | nil => exact h.defineGlobal hv
  | cons f rest =>
    unfold Holds at h ⊢
    rw [hf, List.forall_mem_cons, List.forall_mem_cons] at h
    obtain ⟨hg, h1, h2⟩ := h
    exact List.forall_mem_cons.mpr ⟨hg, List.forall_mem_cons.mpr ⟨Assoc.forall_insert hv h1, h2⟩⟩

theorem holds_writeFrames? {name : String} {v : Value} {fs fs' : List Frame}
    (hw : writeFrames? name v fs = some fs') (h : ∀ f ∈ fs, ∀ e ∈ f, e.2.Holds T)
    (hv : v.Holds T) : ∀ f ∈ fs', ∀ e ∈ f, e.2.Holds T := by
  induction fs generalizing fs' with
  | nil => contradiction
  | cons f rest ih =>
    rw [List.forall_mem_cons] at h
    unfold writeFrames? at hw
    split at hw
    · obtain rfl := Option.some.inj hw
      exact List.forall_mem_cons.mpr ⟨Assoc.forall_insert hv h.1, h.2⟩
    · obtain ⟨gs, hgs, rfl⟩ := Option.map_eq_some_iff.mp hw
      exact List.forall_mem_cons.mpr ⟨h.1, ih hgs h.2⟩

/-- A store with a value written holds what both hold. -/
theorem Holds.write {s : Store} (h : s.Holds T) {name : String} {v : Value} (hv : v.Holds T)
    (scope : Scope) : (s.write name v scope).Holds T := by
  unfold Store.write
  cases scope with
  | localOnly => exact h.define hv
  | globalOnly => exact h.defineGlobal hv
  | localOrGlobal =>
    simp only
    split
    · exact h.defineGlobal hv
    · exact h.define hv
  | «dynamic» =>
    simp only
    split
    · rename_i fs hfs
      unfold Holds at h ⊢
      rw [List.forall_mem_cons] at h
      exact List.forall_mem_cons.mpr ⟨h.1, holds_writeFrames? hfs h.2 hv⟩
    · split
      · exact h.defineGlobal hv
      · exact h.define hv

end Store

end ShellExpr
