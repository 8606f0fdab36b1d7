import ShellExpr.Eval.Place
import ShellExpr.Proofs.Basics

/-!
# An assignment writes the binding that a lookup reads

A scope is a row of frames, the first to be asked first. A lookup resolves a name to the first of
them that binds it, and an assignment writes the name there or, if there is none, in the frame where
the scope makes its new bindings. Lookups and assignments do not search in the same way, but they
always come to the same frame.

* `Store.Address`, `Store.frame?`: the frames of a store.
* `Store.searched`, `Store.resolve`: the frames of a scope, and the one that a lookup resolves to.
* `Store.lookup_eq`: a lookup reads the frame it resolves to.
* `Store.write_eq`: an assignment writes the same frame.
* `Store.assignPlace_hits`: **an assignment hits the binding that a lookup reads**, and no other.
-/

namespace ShellExpr.Store

open Assoc

/-! ### Frames -/

/-- Where a frame of a store stands. -/
inductive Address where
  | global
  /-- A local frame; the innermost one is number zero. -/
  | inner (i : Nat)
deriving DecidableEq

variable {s : Store} {a t : Address} {name other : String} {v : Value} {scope : Scope}

/-- The frame at an address, if there is one. -/
def frame? (s : Store) : Address → Option Frame
  | .global => some s.globals
  | .inner i => s.frames[i]?

/-- The value that a name has in the frame at an address. -/
def binding? (s : Store) (name : String) (a : Address) : Option Value :=
  (s.frame? a).bind (get? name)

/-- Where the innermost frame stands. With no local frame pushed it is the global one. -/
def innermost (s : Store) : Address := if s.frames.length = 0 then .global else .inner 0

/-- Where the frames of a scope stand, those first that are asked first. -/
def searched (s : Store) : Scope → List Address
  | .localOnly => [s.innermost]
  | .globalOnly => [.global]
  | .localOrGlobal => [s.innermost, .global]
  | .dynamic => (List.range s.frames.length).map .inner ++ [.global]

/-- Where the frame stands that a lookup resolves a name to, if one binds it. -/
def resolve (s : Store) (name : String) (scope : Scope) : Option Address :=
  (s.searched scope).find? fun a => (s.binding? name a).isSome

/-- Where a scope makes new bindings. -/
def home (s : Store) : Scope → Address
  | .globalOnly => .global
  | _ => s.innermost

/-- Where an assignment writes. -/
def target (s : Store) (name : String) (scope : Scope) : Address :=
  (s.resolve name scope).getD (s.home scope)

/-- The store with a name written in the frame at an address. -/
def writeAt (s : Store) (name : String) (v : Value) : Address → Store
  | .global => s.defineGlobal name v
  | .inner i => { s with frames := s.frames.modify i (insert name v) }

/-! ### Lookups -/

theorem frame?_innermost (s : Store) : s.frame? s.innermost = some s.localFrame := by
  unfold innermost localFrame
  cases hs : s.frames with
  | nil => rfl
  | cons f rest => simp [frame?, hs]

theorem filterMap_range (frames : List Frame) :
    (List.range frames.length).filterMap (frames[·]?) = frames := by
  induction frames with
  | nil => rfl
  | cons f rest ih =>
    have htail : (List.range rest.length).filterMap (fun i => (f :: rest)[i + 1]?) = rest := ih
    rw [List.length_cons, List.range_succ_eq_map, List.filterMap_cons, List.filterMap_map]
    exact congrArg (f :: ·) htail

/-- A lookup goes through the frames of its scope. -/
theorem lookup_eq_lookupFrames (s : Store) (name : String) (scope : Scope) :
    s.lookup name scope = lookupFrames name ((s.searched scope).filterMap s.frame?) := by
  have hone : ∀ f, get? name f = lookupFrames name [f] := by
    intro f
    rw [lookupFrames]
    cases get? name f <;> rfl
  cases scope with
  | localOnly => simp only [lookup, searched, List.filterMap, frame?_innermost, hone]
  | globalOnly => simp only [lookup, searched, List.filterMap, frame?, hone]
  | localOrGlobal =>
    have hglobal : s.frame? .global = some s.globals := rfl
    simp only [lookup, searched, List.filterMap, frame?_innermost, hglobal]
  | dynamic =>
    have hframes : (List.range s.frames.length).filterMap (s.frame? ∘ .inner) = s.frames :=
      filterMap_range s.frames
    simp only [lookup, searched, List.filterMap_append, List.filterMap_map, hframes,
      List.filterMap, frame?]

theorem lookupFrames_filterMap (s : Store) (name : String) (addresses : List Address) :
    lookupFrames name (addresses.filterMap s.frame?) =
      (addresses.find? fun a => (s.binding? name a).isSome).bind (s.binding? name) := by
  induction addresses with
  | nil => rfl
  | cons a rest ih =>
    cases hf : s.frame? a with
    | none =>
      have hb : s.binding? name a = none := by rw [binding?, hf]; rfl
      rw [List.filterMap_cons_none hf, List.find?_cons_of_neg (by simp [hb]), ih]
    | some f =>
      have hb : s.binding? name a = get? name f := by rw [binding?, hf]; rfl
      rw [List.filterMap_cons_some hf, lookupFrames]
      cases hg : get? name f with
      | none => rw [List.find?_cons_of_neg (by simp [hb, hg]), ih]
      | some u =>
        rw [List.find?_cons_of_pos (by simp [hb, hg]), Option.bind_some, hb, hg]

/-- **A lookup reads the frame it resolves to.** -/
theorem lookup_eq (s : Store) (name : String) (scope : Scope) :
    s.lookup name scope = (s.resolve name scope).bind (s.binding? name) := by
  rw [lookup_eq_lookupFrames, lookupFrames_filterMap]
  rfl

/-! ### Assignments -/

theorem writeAt_innermost (s : Store) (name : String) (v : Value) :
    s.writeAt name v s.innermost = s.define name v := by
  unfold innermost define
  cases hs : s.frames with
  | nil => rfl
  | cons f rest => simp [writeAt, hs]

/-- A write among local frames goes to the first that binds the name. -/
theorem writeFrames?_eq (name : String) (v : Value) (frames : List Frame) :
    writeFrames? name v frames = (frames.findIdx? (Assoc.contains name)).map
      fun i => frames.modify i (insert name v) := by
  induction frames with
  | nil => rfl
  | cons f rest ih =>
    rw [writeFrames?, List.findIdx?_cons]
    split
    · rfl
    · rw [ih, Option.map_map, Option.map_map]
      rfl

theorem find?_range (p : Frame → Bool) (frames : List Frame) :
    (List.range frames.length).find? (fun i => frames[i]?.any p) = frames.findIdx? p := by
  induction frames with
  | nil => rfl
  | cons f rest ih =>
    rw [List.length_cons, List.range_succ_eq_map, List.findIdx?_cons, List.find?_cons,
      List.find?_map, ← ih]
    -- past the first frame the indices are those of the rest
    have hrest : (fun i => (f :: rest)[i]?.any p) ∘ Nat.succ = fun i => rest[i]?.any p := rfl
    rw [hrest, List.getElem?_cons_zero, Option.any_some]
    cases p f <;> rfl

theorem isSome_binding?_inner (s : Store) (name : String) (i : Nat) :
    (s.binding? name (.inner i)).isSome = s.frames[i]?.any (Assoc.contains name) := by
  rw [binding?, show s.frame? (.inner i) = s.frames[i]? from rfl]
  cases s.frames[i]? <;> rfl

theorem isSome_binding?_innermost (s : Store) (name : String) :
    (s.binding? name s.innermost).isSome = Assoc.contains name s.localFrame := by
  rw [binding?, frame?_innermost]
  rfl

/-- A name resolves dynamically to the first local frame that binds it, or else as a global. -/
theorem resolve_dynamic (s : Store) (name : String) : s.resolve name .dynamic =
    ((s.frames.findIdx? (Assoc.contains name)).map .inner).or
      (if Assoc.contains name s.globals then some .global else none) := by
  have hglobal : (s.binding? name .global).isSome = Assoc.contains name s.globals := rfl
  simp only [resolve, searched, List.find?_append, List.find?_map, Function.comp_def,
    isSome_binding?_inner, find?_range, List.find?_singleton, hglobal]

/-- **An assignment writes the frame that a lookup resolves to.** -/
theorem write_eq (s : Store) (name : String) (v : Value) (scope : Scope) :
    s.write name v scope = s.writeAt name v (s.target name scope) := by
  have hglobal : (s.binding? name .global).isSome = Assoc.contains name s.globals := rfl
  cases scope with
  | localOnly =>
    have htarget : s.target name .localOnly = s.innermost := by
      unfold target resolve searched
      rw [List.find?_singleton]
      split <;> rfl
    rw [htarget, writeAt_innermost]
    rfl
  | globalOnly =>
    have htarget : s.target name .globalOnly = .global := by
      unfold target resolve searched
      rw [List.find?_singleton]
      split <;> rfl
    rw [htarget]
    rfl
  | localOrGlobal =>
    unfold target resolve searched write
    rw [← writeAt_innermost, List.find?_cons, List.find?_singleton, isSome_binding?_innermost,
      hglobal]
    cases Assoc.contains name s.localFrame <;> cases Assoc.contains name s.globals <;> rfl
  | dynamic =>
    -- the assignment takes the local frames together, and the globals after them
    unfold target write
    rw [← writeAt_innermost, resolve_dynamic, writeFrames?_eq]
    cases s.frames.findIdx? (Assoc.contains name) with
    | some i => rfl
    | none => cases Assoc.contains name s.globals <;> rfl

/-! ### The store after a write -/

theorem frame?_writeAt (s : Store) (name : String) (v : Value) (t a : Address) :
    (s.writeAt name v t).frame? a =
      if a = t then (s.frame? a).map (insert name v) else s.frame? a := by
  cases t with
  | global =>
    cases a with
    | global => rfl
    | inner j => rfl
  | inner i =>
    cases a with
    | global => rfl
    | inner j =>
      simp only [writeAt, frame?, List.getElem?_modify, Address.inner.injEq, eq_comm (a := i)]
      split
      · rfl
      · exact Option.map_id'

theorem binding?_writeAt_ne (h : a ≠ t ∨ other ≠ name) :
    (s.writeAt name v t).binding? other a = s.binding? other a := by
  unfold binding?
  rw [frame?_writeAt]
  split
  · rename_i ha
    have hname : name ≠ other := fun hn => h.elim (absurd ha) (absurd hn.symm)
    cases s.frame? a with
    | none => rfl
    | some f => simp [get?_insert, hname]
  · rfl

theorem binding?_writeAt_self (h : (s.frame? t).isSome) :
    (s.writeAt name v t).binding? name t = some v := by
  obtain ⟨f, hf⟩ := Option.isSome_iff_exists.mp h
  rw [binding?, frame?_writeAt, if_pos rfl, hf]
  simp [get?_insert]

theorem length_frames_writeAt : (s.writeAt name v t).frames.length = s.frames.length := by
  cases t with
  | global => rfl
  | inner i => exact List.length_modify ..

theorem groups_writeAt : (s.writeAt name v t).groups = s.groups := by
  cases t <;> rfl

theorem searched_writeAt : (s.writeAt name v t).searched scope = s.searched scope := by
  have hlen : (s.writeAt name v t).frames.length = s.frames.length := length_frames_writeAt
  have hinner : (s.writeAt name v t).innermost = s.innermost := by
    unfold innermost
    rw [hlen]
  cases scope <;> simp only [searched, hinner, hlen]

/-! ### Lookups after a write -/

/-- A second store has a name bound to a value in the frame at an address, and otherwise all the
bindings of the first, in as many frames. -/
structure Rebinds (s s' : Store) (name : String) (v : Value) (a : Address) : Prop where
  bound : s'.binding? name a = some v
  others : ∀ b other, b ≠ a ∨ other ≠ name → s'.binding? other b = s.binding? other b
  frames : s'.frames.length = s.frames.length
  groups : s'.groups = s.groups

theorem rebinds_writeAt (h : (s.frame? t).isSome) : Rebinds s (s.writeAt name v t) name v t where
  bound := binding?_writeAt_self h
  others _ _ hb := binding?_writeAt_ne hb
  frames := length_frames_writeAt
  groups := groups_writeAt

theorem isSome_frame?_home (s : Store) (scope : Scope) : (s.frame? (s.home scope)).isSome := by
  have hinner : (s.frame? s.innermost).isSome := by rw [frame?_innermost]; rfl
  cases scope with
  | globalOnly => rfl
  | _ => exact hinner

/-- There is a frame where an assignment writes. -/
theorem isSome_frame?_target (s : Store) (name : String) (scope : Scope) :
    (s.frame? (s.target name scope)).isSome := by
  unfold target
  cases hr : s.resolve name scope with
  | none => exact isSome_frame?_home s scope
  | some a =>
    have hbound := List.find?_some hr
    rw [binding?] at hbound
    exact Option.isSome_of_isSome_bind hbound

/-- New bindings are made in a frame of the scope. -/
theorem home_mem_searched (s : Store) (scope : Scope) : s.home scope ∈ s.searched scope := by
  cases scope with
  | dynamic =>
    show s.innermost ∈ (List.range s.frames.length).map .inner ++ [.global]
    unfold innermost
    split
    · exact List.mem_append_right _ List.mem_cons_self
    · refine List.mem_append_left _ (List.mem_map.mpr ⟨0, ?_, rfl⟩)
      exact List.mem_range.mpr (by omega)
  | _ => exact List.mem_cons_self

/-- The first item with a property, or else an item of the list, is found first when it is looked
for beside the property. -/
theorem find?_or_eq {l : List Address} {p : Address → Bool} {d : Address} (hd : d ∈ l)
    (ht : t = (l.find? p).getD d) : l.find? (fun a => decide (a = t) || p a) = some t := by
  obtain ⟨before, after, rfl, hne, hp⟩ : ∃ before after, l = before ++ t :: after ∧
      (∀ a ∈ before, a ≠ t) ∧ ∀ a ∈ before, p a = false := by
    cases hfind : l.find? p with
    | none =>
      rw [hfind, Option.getD_none] at ht
      subst ht
      obtain ⟨before, after, rfl, hnot⟩ := List.eq_append_cons_of_mem hd
      refine ⟨before, after, rfl, fun a ha hat => hnot (hat ▸ ha), fun a ha => ?_⟩
      exact eq_false_of_ne_true (List.find?_eq_none.mp hfind a (List.mem_append_left _ ha))
    | some b =>
      rw [hfind, Option.getD_some] at ht
      subst ht
      obtain ⟨hb, before, after, rfl, hp⟩ := List.find?_eq_some_iff_append.mp hfind
      have hp' : ∀ a ∈ before, p a = false := fun a ha => by simpa using hp a ha
      refine ⟨before, after, rfl, fun a ha hat => ?_, hp'⟩
      rw [← hat, hp' a ha] at hb
      contradiction
  have hbefore : before.find? (fun a => decide (a = t) || p a) = none :=
    List.find?_eq_none.mpr fun a ha => by simp [hne a ha, hp a ha]
  rw [List.find?_append, hbefore, Option.none_or, List.find?_cons_of_pos (by simp)]

/-- The name then resolves to the frame that was written: the frames asked before it do not bind
the name, as they did not before. -/
theorem resolve_writeAt_target (s : Store) (name : String) (v : Value) (scope : Scope) :
    (s.writeAt name v (s.target name scope)).resolve name scope = some (s.target name scope) := by
  have hwrite : Rebinds s (s.writeAt name v (s.target name scope)) name v (s.target name scope) :=
    rebinds_writeAt (isSome_frame?_target s name scope)
  have hbinds : ∀ a, ((s.writeAt name v (s.target name scope)).binding? name a).isSome =
      (decide (a = s.target name scope) || (s.binding? name a).isSome) := by
    intro a
    by_cases ha : a = s.target name scope
    · simp [ha, hwrite.bound]
    · simp [ha, hwrite.others a name (.inl ha)]
  rw [resolve, searched_writeAt]
  simp only [hbinds]
  exact find?_or_eq (home_mem_searched s scope) rfl

/-- **An assignment hits the binding that a lookup reads.** Whatever the scope, the name has the
assigned value afterwards. The one binding that changed is that to which the lookup resolved or, if
the name was not bound, a new one in the innermost frame, or among the globals if the scope is
theirs. A place that is no name is rejected, and nothing changes. -/
theorem assignPlace_hits (w : World) (v : Value) (scope : Scope) :
    (∀ name, ∃ s' a, (assignPlace (.named name) v scope).outcome w =
        (.ok (), { w with store := s' }) ∧
      s'.lookup name scope = some v ∧ Rebinds w.store s' name v a ∧
      (∀ u, w.store.lookup name scope = some u →
        w.store.resolve name scope = some a ∧ w.store.binding? name a = some u) ∧
      (w.store.lookup name scope = none →
        a = if scope = .globalOnly then .global else w.store.innermost)) ∧
    ∀ place, place.name? = none →
      ∃ e, (assignPlace place v scope).outcome w = (.error e, w) := by
  constructor
  · intro name
    have hwrite : Rebinds w.store (w.store.writeAt name v (w.store.target name scope)) name v
        (w.store.target name scope) := rebinds_writeAt (isSome_frame?_target w.store name scope)
    refine ⟨_, w.store.target name scope, ?_, ?_, hwrite, ?_, ?_⟩
    · rw [← write_eq]
      rfl
    · rw [lookup_eq, resolve_writeAt_target, Option.bind_some, hwrite.bound]
    · intro u hu
      rw [lookup_eq] at hu
      obtain ⟨a, ha, hbound⟩ := Option.bind_eq_some_iff.mp hu
      have htarget : w.store.target name scope = a := by rw [target, ha, Option.getD_some]
      rw [htarget]
      exact ⟨ha, hbound⟩
    · intro hnone
      have hresolve : w.store.resolve name scope = none := by
        cases hr : w.store.resolve name scope with
        | none => rfl
        | some a =>
          rw [lookup_eq, hr, Option.bind_some] at hnone
          have hbound := List.find?_some hr
          rw [hnone] at hbound
          contradiction
      rw [target, hresolve, Option.getD_none]
      cases scope <;> rfl
  · intro place hplace
    cases place with
    | named name => contradiction
    | item obj index => exact ⟨_, rfl⟩
    | attr obj name => exact ⟨_, rfl⟩

/-- With two frames pushed, a name that is bound in the outer one is assigned there dynamically. A
scope of the innermost frame and the globals makes a new binding in the innermost frame. -/
theorem assignPlace_hits_outer :
    let w : World := { store := { globals := [("y", .null)], frames := [[], [("x", .int 1)]] } }
    (∃ s', (assignPlace (.named "x") (.int 2) .dynamic).outcome w =
        (.ok (), { w with store := s' }) ∧ s'.lookup "x" .dynamic = some (.int 2) ∧
      Rebinds w.store s' "x" (.int 2) (.inner 1)) ∧
    ∃ s', (assignPlace (.named "x") (.int 2) .localOrGlobal).outcome w =
        (.ok (), { w with store := s' }) ∧ s'.lookup "x" .localOrGlobal = some (.int 2) ∧
      Rebinds w.store s' "x" (.int 2) (.inner 0) := by
  intro w
  obtain ⟨s₁, a, hrun₁, hlookup₁, hwrite₁, hbound, -⟩ :=
    (assignPlace_hits w (.int 2) .dynamic).1 "x"
  obtain ⟨s₂, b, hrun₂, hlookup₂, hwrite₂, -, hnew⟩ :=
    (assignPlace_hits w (.int 2) .localOrGlobal).1 "x"
  have ha : a = .inner 1 := Option.some.inj (hbound (.int 1) rfl).1.symm
  have hb : b = .inner 0 := hnew rfl
  exact ⟨⟨s₁, hrun₁, hlookup₁, ha ▸ hwrite₁⟩, s₂, hrun₂, hlookup₂, hb ▸ hwrite₂⟩

end ShellExpr.Store
