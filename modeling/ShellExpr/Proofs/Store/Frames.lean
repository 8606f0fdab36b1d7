import ShellExpr.Proofs.Basics
import ShellExpr.Store

/-!
# Frames are isolated

A procedure pushes a frame, takes steps on the store and pops the frame again. Among its steps may
be calls of other procedures, so frames pushed and popped in between. All frames of its callers are
afterwards as they were. Of the globals only those change that a step names as such, or that a step
looks for and finds bound and not shadowed.

* `Store.Op`, `Store.run`: steps on a store, and the store after several.
* `Store.Balanced`: steps that pop the frames they push and no other.
* `Store.apply_cases`: what a step can write.
* `Store.run_open`: the frames below an open one at any time.
* `Store.frame_isolated`: **a procedure leaves the frames of its callers alone**.
-/

namespace ShellExpr.Store

open Assoc

/-- A step that a program takes on a store. -/
inductive Op where
  | pushFrame
  | popFrame
  | define (name : String) (v : Value)
  | defineGlobal (name : String) (v : Value)
  | assign (place : Place) (v : Value) (scope : Scope)
  | setGroups (groups : List String)
  | clearGroups

/-- The store after a step. An assignment that is rejected leaves it as it was. -/
def Op.apply (s : Store) : Op → Store
  | pushFrame => s.pushFrame
  | popFrame => s.popFrame
  | define name v => s.define name v
  | defineGlobal name v => s.defineGlobal name v
  | assign place v scope =>
    match s.assign place v scope with
    | .ok s' => s'
    | .error _ => s
  | setGroups groups => { s with groups }
  | clearGroups => { s with groups := [] }

/-- The store after several steps. -/
def run (s : Store) : List Op → Store
  | [] => s
  | op :: rest => run (op.apply s) rest

/-- Whether a step neither pushes nor pops a frame, nor looks for a name in frames of callers. -/
def Op.isInner : Op → Bool
  | pushFrame | popFrame => false
  | assign (.named _) _ .dynamic => false
  | _ => true

/-- Whether the steps, taken with `depth` frames pushed, pop all of these and those they push
themselves, and none besides. -/
def closes : Nat → List Op → Bool
  | depth, [] => depth == 0
  | depth, .pushFrame :: rest => closes (depth + 1) rest
  | 0, .popFrame :: _ => false
  | depth + 1, .popFrame :: rest => closes depth rest
  | depth, op :: rest => op.isInner && closes depth rest

/-- Whether the steps pop the frames they push and no other. -/
def Balanced (ops : List Op) : Prop := closes 0 ops = true

instance (ops : List Op) : Decidable (Balanced ops) := inferInstanceAs (Decidable (_ = _))

/-- Whether a step writes the name as that of a global. -/
def Op.NamesGlobal (name : String) : Op → Prop
  | defineGlobal n _ => n = name
  | assign (.named n) _ .globalOnly => n = name
  | _ => False

/-- Whether a step looks for the name and finds it among the globals, not shadowed by the innermost
frame. -/
def Op.FindsGlobal (name : String) (s : Store) : Op → Prop
  | assign (.named n) _ .localOrGlobal =>
    n = name ∧ Assoc.contains name s.globals = true ∧ Assoc.contains name s.localFrame = false
  | _ => False

/-! ### One step -/

theorem define_of_open {s : Store} {f : Frame} {rest : List Frame} (hs : s.frames = f :: rest)
    (name : String) (v : Value) :
    s.define name v = { s with frames := insert name v f :: rest } := by
  unfold define
  rw [hs]

/-- **What a step can write while a frame is open**: the innermost frame, or one name among the
globals. -/
theorem apply_cases {s : Store} {f : Frame} {rest : List Frame} (hs : s.frames = f :: rest)
    {op : Op} (hop : op.isInner = true) :
    (∃ f', (op.apply s).frames = f' :: rest ∧ (op.apply s).globals = s.globals) ∨
      ∃ name v, (op.NamesGlobal name ∨ op.FindsGlobal name s) ∧ (op.apply s).frames = s.frames ∧
        (op.apply s).globals = insert name v s.globals := by
  have hdefine : ∀ name v, ∃ f', (s.define name v).frames = f' :: rest ∧
      (s.define name v).globals = s.globals := by
    intro name v
    rw [define_of_open hs]
    exact ⟨_, rfl, rfl⟩
  cases op with
  | pushFrame => contradiction
  | popFrame => contradiction
  | define name v => exact .inl (hdefine name v)
  | defineGlobal name v => exact .inr ⟨name, v, .inl rfl, rfl, rfl⟩
  | setGroups groups => exact .inl ⟨f, hs, rfl⟩
  | clearGroups => exact .inl ⟨f, hs, rfl⟩
  | assign place v scope =>
    cases place with
    | item obj index => exact .inl ⟨f, hs, rfl⟩
    | attr obj name => exact .inl ⟨f, hs, rfl⟩
    | named name =>
      cases scope with
      | dynamic => contradiction
      | localOnly => exact .inl (hdefine name v)
      | globalOnly => exact .inr ⟨name, v, .inl rfl, rfl, rfl⟩
      | localOrGlobal =>
        -- only a global that the frame does not shadow is written
        have happly : (Op.assign (.named name) v .localOrGlobal).apply s =
            s.write name v .localOrGlobal := rfl
        by_cases hfound :
            (!Assoc.contains name s.localFrame && Assoc.contains name s.globals) = true
        · have hwrite : s.write name v .localOrGlobal = s.defineGlobal name v := if_pos hfound
          rw [Bool.and_eq_true, Bool.not_eq_true'] at hfound
          rw [happly, hwrite]
          exact .inr ⟨name, v, .inr ⟨rfl, hfound.2, hfound.1⟩, rfl, rfl⟩
        · have hwrite : s.write name v .localOrGlobal = s.define name v := if_neg hfound
          rw [happly, hwrite]
          exact .inl (hdefine name v)

/-! ### Steps that pop what they push -/

theorem closes_cons {depth : Nat} {op : Op} {rest : List Op}
    (h : closes depth (op :: rest) = true) :
    (op = .pushFrame ∧ closes (depth + 1) rest = true) ∨
      (op = .popFrame ∧ ∃ d, depth = d + 1 ∧ closes d rest = true) ∨
      (op.isInner = true ∧ closes depth rest = true) := by
  cases op with
  | pushFrame => exact .inl ⟨rfl, h⟩
  | popFrame =>
    cases depth with
    | zero => contradiction
    | succ d => exact .inr (.inl ⟨rfl, d, rfl, h⟩)
  | _ =>
    have h' := Bool.and_eq_true_iff.mp h
    exact .inr (.inr h')

theorem run_append (s : Store) (before rest : List Op) :
    s.run (before ++ rest) = (s.run before).run rest := by
  induction before generalizing s with
  | nil => rfl
  | cons op before ih => exact ih _

/-- **The frames below an open one stay as they are.** At any time before the steps are through
there are as many frames above them as are still to be popped, and one more. -/
theorem run_open {base : List Frame} {rest : List Op} (before : List Op) {depth : Nat} {s : Store}
    {top : List Frame} (h : closes depth (before ++ rest) = true) (hs : s.frames = top ++ base)
    (hlen : top.length = depth + 1) :
    ∃ depth' top', closes depth' rest = true ∧ (s.run before).frames = top' ++ base ∧
      top'.length = depth' + 1 := by
  induction before generalizing depth s top with
  | nil => exact ⟨depth, top, h, hs, hlen⟩
  | cons op before ih =>
    obtain ⟨f, top, rfl⟩ : ∃ f t, top = f :: t := by
      cases top with
      | nil => simp at hlen
      | cons f t => exact ⟨f, t, rfl⟩
    rw [List.length_cons] at hlen
    rcases closes_cons h with ⟨rfl, h⟩ | ⟨rfl, d, rfl, h⟩ | ⟨hop, h⟩
    · have hframes : (Op.pushFrame.apply s).frames = ([] :: f :: top) ++ base := by
        show [] :: s.frames = _
        rw [hs]
        rfl
      refine ih h hframes ?_
      simp only [List.length_cons]
      omega
    · have hframes : (Op.popFrame.apply s).frames = top ++ base := by
        show s.frames.tail = _
        rw [hs]
        rfl
      exact ih h hframes (by omega)
    · obtain ⟨f', hf, -⟩ | ⟨name, v, -, hf, -⟩ := apply_cases hs hop
      · have hframes : (op.apply s).frames = (f' :: top) ++ base := hf
        exact ih h hframes (by simpa using hlen)
      · have hframes : (op.apply s).frames = (f :: top) ++ base := hf.trans hs
        exact ih h hframes (by simpa using hlen)

/-! ### Globals -/

theorem Op.FindsGlobal.bound {op : Op} {name : String} {s : Store} (h : op.FindsGlobal name s) :
    Assoc.contains name s.globals = true := by
  unfold Op.FindsGlobal at h
  split at h
  · exact h.2.1
  · contradiction

/-- While a frame is open, a step writes at most one global, which it names as such or finds. -/
theorem globals_apply {depth : Nat} {s : Store} {op : Op} {rest : List Op}
    (h : closes depth (op :: rest) = true) (hs : s.frames ≠ []) :
    (op.apply s).globals = s.globals ∨ ∃ name v, (op.NamesGlobal name ∨ op.FindsGlobal name s) ∧
      (op.apply s).globals = insert name v s.globals := by
  obtain ⟨f, frames, hs⟩ := List.exists_cons_of_ne_nil hs
  rcases closes_cons h with ⟨rfl, -⟩ | ⟨rfl, -⟩ | ⟨hop, -⟩
  · exact .inl rfl
  · exact .inl rfl
  · obtain ⟨f', -, hg⟩ | ⟨name, v, hwrites, -, hg⟩ := apply_cases hs hop
    · exact .inl hg
    · exact .inr ⟨name, v, hwrites, hg⟩

/-- No other global changes. -/
theorem get?_globals_apply {depth : Nat} {s : Store} {op : Op} {rest : List Op}
    (h : closes depth (op :: rest) = true) (hs : s.frames ≠ []) {name : String}
    (hn : ¬ op.NamesGlobal name) (hf : ¬ op.FindsGlobal name s) :
    get? name (op.apply s).globals = get? name s.globals := by
  obtain hg | ⟨name', v, hwrites, hg⟩ := globals_apply h hs
  · rw [hg]
  · rw [hg, get?_insert, if_neg]
    rintro rfl
    exact hwrites.elim hn hf

/-- A step that does not name a global as such makes no new one: what it finds is bound already. -/
theorem contains_globals_apply {depth : Nat} {s : Store} {op : Op} {rest : List Op}
    (h : closes depth (op :: rest) = true) (hs : s.frames ≠ []) {name : String}
    (hn : ¬ op.NamesGlobal name) :
    Assoc.contains name (op.apply s).globals = Assoc.contains name s.globals := by
  by_cases hf : op.FindsGlobal name s
  · have hbound := hf.bound
    obtain hg | ⟨name', v, -, hg⟩ := globals_apply h hs
    · rw [hg]
    · rw [hbound, hg]
      unfold Assoc.contains at hbound ⊢
      rw [get?_insert]
      split
      · rfl
      · exact hbound
  · unfold Assoc.contains
    rw [get?_globals_apply h hs hn hf]

/-- If steps change a global, one of them does. -/
theorem exists_change {name : String} (ops : List Op) {s : Store}
    (h : get? name (s.run ops).globals ≠ get? name s.globals) :
    ∃ before op rest, ops = before ++ op :: rest ∧
      get? name (op.apply (s.run before)).globals ≠ get? name (s.run before).globals := by
  induction ops generalizing s with
  | nil => exact absurd rfl h
  | cons op rest ih =>
    by_cases hop : get? name (op.apply s).globals = get? name s.globals
    · have h' : get? name ((op.apply s).run rest).globals ≠ get? name (op.apply s).globals := by
        rw [hop]
        exact h
      obtain ⟨before, op', rest', rfl, hchange⟩ := ih h'
      exact ⟨op :: before, op', rest', rfl, hchange⟩
    · exact ⟨[], op, rest, rfl, hop⟩

/-! ### Procedures -/

/-- **A procedure leaves the frames of its callers alone.** After a frame is pushed, any steps that
pop the frames they push and no other, and the pop, all local frames are as they were. A global is
changed by no step but one that names it as a global, or that finds it bound and not shadowed; and
only the former can make a new one. -/
theorem frame_isolated (s : Store) (ops : List Op) (h : Balanced ops) :
    let s' := s.run (.pushFrame :: ops ++ [.popFrame])
    s'.frames = s.frames ∧
      (∀ name, get? name s'.globals ≠ get? name s.globals → ∃ before op rest,
        ops = before ++ op :: rest ∧
          (op.NamesGlobal name ∨ op.FindsGlobal name (s.pushFrame.run before))) ∧
      ∀ before op rest, ops = before ++ op :: rest → ∀ name, ¬ op.NamesGlobal name →
        Assoc.contains name (op.apply (s.pushFrame.run before)).globals =
          Assoc.contains name (s.pushFrame.run before).globals := by
  intro s'
  have hs' : s' = (s.pushFrame.run ops).popFrame := run_append s.pushFrame ops [.popFrame]
  -- at each step a frame is open, above those of the callers
  have hopen : ∀ before rest, ops = before ++ rest → ∃ depth top, closes depth rest = true ∧
      (s.pushFrame.run before).frames = top ++ s.frames ∧ top.length = depth + 1 := by
    rintro before rest rfl
    have hpush : s.pushFrame.frames = [[]] ++ s.frames := rfl
    exact run_open before h hpush rfl
  have hframe : ∀ before rest, ops = before ++ rest → ∃ depth, closes depth rest = true ∧
      (s.pushFrame.run before).frames ≠ [] := by
    intro before rest hops
    obtain ⟨depth, top, hclose, hframes, hlen⟩ := hopen before rest hops
    refine ⟨depth, hclose, ?_⟩
    rw [hframes]
    cases top with
    | nil => simp at hlen
    | cons f top => exact List.cons_ne_nil _ _
  refine ⟨?_, ?_, ?_⟩
  · obtain ⟨depth, top, hclose, hframes, hlen⟩ := hopen ops [] (List.append_nil _).symm
    have hzero : depth = 0 := by simpa [closes] using hclose
    obtain ⟨f, rfl⟩ := List.length_eq_one_iff.mp (hlen.trans (by rw [hzero]))
    rw [hs']
    show (s.pushFrame.run ops).frames.tail = s.frames
    rw [hframes]
    rfl
  · intro name hname
    rw [hs'] at hname
    obtain ⟨before, op, rest, hops, hchange⟩ := exists_change (s := s.pushFrame) ops hname
    obtain ⟨depth, hclose, hne⟩ := hframe before (op :: rest) hops
    refine ⟨before, op, rest, hops, ?_⟩
    by_contra hnot
    rw [not_or] at hnot
    exact hchange (get?_globals_apply hclose hne hnot.1 hnot.2)
  · intro before op rest hops name hn
    obtain ⟨depth, hclose, hne⟩ := hframe before (op :: rest) hops
    exact contains_globals_apply hclose hne hn

/-- A procedure that calls another one. It writes a global, a local and a place that is rejected,
and leaves behind a new global and the groups of a match. -/
theorem frame_isolated_call :
    let s : Store := { globals := [("x", .int 1)], frames := [[("c", .int 2)]] }
    let ops : List Op := [.assign (.named "x") (.int 5) .localOrGlobal,
      .assign (.named "y") (.int 6) .localOrGlobal, .pushFrame, .define "x" (.int 7),
      .assign (.named "x") (.int 8) .localOrGlobal, .defineGlobal "z" (.int 9), .popFrame,
      .assign (.attr .null "c") .null .dynamic, .setGroups ["a"]]
    let s' := s.run (.pushFrame :: ops ++ [.popFrame])
    Balanced ops ∧ s'.frames = s.frames ∧ s'.globals = [("x", .int 5), ("z", .int 9)] ∧
      ∃ before op rest, ops = before ++ op :: rest ∧
        (op.NamesGlobal "z" ∨ op.FindsGlobal "z" (s.pushFrame.run before)) := by
  intro s ops s'
  have h : Balanced ops := by decide
  obtain ⟨hframes, hchange, -⟩ := frame_isolated s ops h
  refine ⟨h, hframes, rfl, hchange "z" ?_⟩
  have hz : get? "z" s'.globals = some (.int 9) := rfl
  rw [hz]
  exact Option.some_ne_none _

end ShellExpr.Store
