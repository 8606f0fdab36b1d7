import ShellExpr.Options
import ShellExpr.Proofs.Basics

/-!
# Overrides are scoped

Steps that pop the overrides they push, and no other, leave all overrides as they were; a base that
is set among them shows if there are none. While an override stands, what it turned on and what was
in effect before it stay in effect, whatever base is set and whatever is pushed above it.

* `OptionStack.Step`, `OptionStack.run`: steps on the flags, and the flags after several.
* `OptionStack.Balanced`: steps that pop the overrides they push and no other.
* `OptionStack.run_open`: the overrides below those that are still to be popped, at any time.
* `OptionStack.exists_matching`: each push among such steps has a pop that ends it.
* `OptionStack.overrides_scoped`: **an override is in effect up to its pop and leaves no trace**.
-/

namespace ShellExpr

/-- Whether all flags of a set are in another one. -/
def Flags.IsIn (a b : Flags) : Prop := a.union b = b

namespace Flags

variable {a b c : Flags}

theorem isIn_iff : a.IsIn b ↔ (a.commandSubErrexit = true → b.commandSubErrexit = true) ∧
    (a.strictArray = true → b.strictArray = true) ∧ (a.parseAt = true → b.parseAt = true) := by
  unfold IsIn union
  rw [mk.injEq]
  simp only [Bool.or_eq_right_iff_imp]

theorem IsIn.refl (a : Flags) : a.IsIn a := isIn_iff.mpr ⟨id, id, id⟩

theorem IsIn.trans (h : a.IsIn b) (h' : b.IsIn c) : a.IsIn c := by
  rw [isIn_iff] at h h' ⊢
  exact ⟨h'.1 ∘ h.1, h'.2.1 ∘ h.2.1, h'.2.2 ∘ h.2.2⟩

theorem isIn_union_left (a b : Flags) : a.IsIn (a.union b) := by
  rw [isIn_iff]
  simp +contextual [union]

theorem isIn_union_right (a b : Flags) : b.IsIn (a.union b) := by
  rw [isIn_iff]
  simp +contextual [union]

end Flags

namespace OptionStack

/-- A step that a program takes on the flags. -/
inductive Step where
  | push (flags : Flags)
  | pop
  | setBase (base : Flags)

/-- The flags after a step. -/
def Step.apply (s : OptionStack) : Step → OptionStack
  | push flags => s.push flags
  | pop => s.pop
  | setBase base => s.setBase base

/-- The flags after several steps. -/
def run (s : OptionStack) : List Step → OptionStack
  | [] => s
  | step :: rest => run (step.apply s) rest

/-- Whether the steps, taken with `depth` overrides pushed, pop all of these and those they push
themselves, and none besides. -/
def closes : Nat → List Step → Bool
  | depth, [] => depth == 0
  | depth, .push _ :: rest => closes (depth + 1) rest
  | 0, .pop :: _ => false
  | depth + 1, .pop :: rest => closes depth rest
  | depth, .setBase _ :: rest => closes depth rest

/-- Whether the steps pop the overrides they push and no other. -/
def Balanced (steps : List Step) : Prop := closes 0 steps = true

instance (steps : List Step) : Decidable (Balanced steps) := inferInstanceAs (Decidable (_ = _))

/-- The base that is set last, if one is. -/
def lastBase? : List Step → Option Flags
  | [] => none
  | .setBase base :: rest => some ((lastBase? rest).getD base)
  | _ :: rest => lastBase? rest

variable {s : OptionStack} {steps rest : List Step} {depth : Nat}

theorem run_append (s : OptionStack) (before rest : List Step) :
    s.run (before ++ rest) = (s.run before).run rest := by
  induction before generalizing s with
  | nil => rfl
  | cons step before ih => exact ih _

theorem base_run (s : OptionStack) (steps : List Step) :
    (s.run steps).base = (lastBase? steps).getD s.base := by
  induction steps generalizing s with
  | nil => rfl
  | cons step rest ih =>
    rw [run, ih]
    cases step <;> rfl

/-! ### What stands below -/

/-- The flags in effect while an override stands. -/
theorem current_of_overrides {f : Flags} {fs : List Flags} (h : s.overrides = f :: fs) :
    s.current = f := by
  rw [current, h]
  rfl

/-- What is in the lowest override of interest and in all above it is in effect. -/
theorem isIn_current {top below : List Flags} {g : Flags} (hs : s.overrides = top ++ g :: below)
    (hin : ∀ f ∈ top, g.IsIn f) : g.IsIn s.current := by
  cases top with
  | nil => exact current_of_overrides hs ▸ .refl g
  | cons f top => exact current_of_overrides hs ▸ hin f List.mem_cons_self

/-- **The overrides below those that are still to be popped stay as they are.** At any time before
the steps are through there are as many overrides above them as are still to be popped, and the
first of those below is in all of these. -/
theorem run_open {below : List Flags} (before : List Step) {top : List Flags}
    (h : closes depth (before ++ rest) = true) (hs : s.overrides = top ++ below)
    (hlen : top.length = depth) (hin : ∀ g ∈ below.head?, ∀ f ∈ top, g.IsIn f) :
    ∃ depth' top', closes depth' rest = true ∧ (s.run before).overrides = top' ++ below ∧
      top'.length = depth' ∧ ∀ g ∈ below.head?, ∀ f ∈ top', g.IsIn f := by
  induction before generalizing depth s top with
  | nil => exact ⟨depth, top, h, hs, hlen, hin⟩
  | cons step before ih =>
    cases step with
    | push flags =>
      have hpush : (s.push flags).overrides = (s.current.union flags :: top) ++ below :=
        congrArg (s.current.union flags :: ·) hs
      -- the new override starts from what is in effect, so it holds what stands below
      refine ih (s := s.push flags) h hpush (congrArg (· + 1) hlen) fun g hg f hf => ?_
      rcases List.mem_cons.mp hf with rfl | hf
      · obtain ⟨below, rfl⟩ := List.head?_eq_some_iff.mp hg
        exact (isIn_current hs (hin g hg)).trans (Flags.isIn_union_left _ _)
      · exact hin g hg f hf
    | pop =>
      cases top with
      | nil =>
        -- nothing is left to be popped
        obtain rfl : 0 = depth := hlen
        contradiction
      | cons f top =>
        obtain rfl : top.length + 1 = depth := hlen
        have hpop : s.pop.overrides = top ++ below := congrArg List.tail hs
        exact ih (s := s.pop) h hpop rfl fun g hg f hf => hin g hg f (List.mem_cons_of_mem _ hf)
    | setBase base => exact ih (s := s.setBase base) h hs hlen hin

/-- **Balanced steps leave all overrides as they were.** -/
theorem overrides_run (h : Balanced steps) : (s.run steps).overrides = s.overrides := by
  have hopen : closes 0 (steps ++ []) = true := by rwa [List.append_nil]
  have hnone : s.overrides = [] ++ s.overrides := rfl
  obtain ⟨depth, top, hclose, hs, hlen, -⟩ := run_open steps hopen hnone rfl (by simp)
  obtain rfl : depth = 0 := by simpa [closes] using hclose
  rw [hs, List.length_eq_zero_iff.mp hlen, List.nil_append]

/-! ### Pushes and their pops -/

/-- The pop that ends the innermost but `inner` of the overrides pushed. -/
theorem exists_closing {inner : Nat} (h : closes (inner + depth + 1) rest = true) :
    ∃ body after, rest = body ++ .pop :: after ∧ closes inner body = true ∧
      closes depth after = true := by
  induction rest generalizing inner with
  | nil => contradiction
  | cons step rest ih =>
    cases step with
    | push flags =>
      have h' : closes ((inner + 1) + depth + 1) rest = true := by
        rw [Nat.add_right_comm inner 1 depth]
        exact h
      obtain ⟨body, after, rfl, hbody, hafter⟩ := ih h'
      exact ⟨.push flags :: body, after, rfl, hbody, hafter⟩
    | pop =>
      cases inner with
      | zero =>
        rw [Nat.zero_add] at h
        exact ⟨[], rest, rfl, rfl, h⟩
      | succ inner =>
        have h' : closes (inner + depth + 1) rest = true := by
          rw [Nat.add_right_comm inner depth 1]
          exact h
        obtain ⟨body, after, rfl, hbody, hafter⟩ := ih h'
        exact ⟨.pop :: body, after, rfl, hbody, hafter⟩
    | setBase base =>
      obtain ⟨body, after, rfl, hbody, hafter⟩ := ih h
      exact ⟨.setBase base :: body, after, rfl, hbody, hafter⟩

/-- **Each push has a pop that ends it**, and the steps between them are balanced. -/
theorem exists_matching {before : List Step} {flags : Flags}
    (h : Balanced (before ++ .push flags :: rest)) :
    ∃ body after, rest = body ++ .pop :: after ∧ Balanced body := by
  have hnone : ({} : OptionStack).overrides = [] ++ [] := rfl
  obtain ⟨depth, -, hclose, -⟩ := run_open before h hnone rfl (by simp)
  have hrest : closes (0 + depth + 1) rest = true := by
    rw [Nat.zero_add]
    exact hclose
  obtain ⟨body, after, hbody, hbalanced, -⟩ := exists_closing hrest
  exact ⟨body, after, hbody, hbalanced⟩

/-- **An override is in effect up to its pop**, with all that was in effect when it was pushed. -/
theorem isIn_run_push {done left : List Step} (h : Balanced (done ++ left)) (s : OptionStack)
    (flags : Flags) : (s.current.union flags).IsIn ((s.push flags).run done).current := by
  have hpush : (s.push flags).overrides = [] ++ s.current.union flags :: s.overrides := rfl
  obtain ⟨_, top, -, hs, -, hin⟩ := run_open done h hpush rfl (by simp)
  exact isIn_current hs (hin _ rfl)

/-- **Overrides are scoped.** Steps that pop the overrides they push and no other leave all overrides
as they were. What is in effect is what was if there was an override, and else the base set last, if
one was set. Each push among them has its pop, and at any time up to that the flags pushed and all
those in effect before the push are in effect. -/
theorem overrides_scoped (s : OptionStack) (steps : List Step) (h : Balanced steps) :
    (s.run steps).overrides = s.overrides ∧
    (s.run steps).current =
      (if 0 < s.depth then s.current else (lastBase? steps).getD s.base) ∧
    ∀ before flags rest, steps = before ++ .push flags :: rest → ∃ body after,
      rest = body ++ .pop :: after ∧ Balanced body ∧
      ∀ done left, body = done ++ left →
        flags.IsIn (s.run (before ++ .push flags :: done)).current ∧
        (s.run before).current.IsIn (s.run (before ++ .push flags :: done)).current := by
  refine ⟨overrides_run h, ?_, ?_⟩
  · rw [current, overrides_run h, base_run, current, depth]
    cases s.overrides <;> rfl
  · rintro before flags rest rfl
    obtain ⟨body, after, hrest, hbody⟩ := exists_matching h
    refine ⟨body, after, hrest, hbody, ?_⟩
    rintro done left rfl
    have hrun : s.run (before ++ .push flags :: done) = ((s.run before).push flags).run done :=
      run_append s before _
    have hin := isIn_run_push hbody (s.run before) flags
    rw [hrun]
    exact ⟨(Flags.isIn_union_right _ _).trans hin, (Flags.isIn_union_left _ _).trans hin⟩

/-- Two bases are set while overrides stand, one of them above the other. No override stood before,
so the base set last shows at the end. -/
theorem overrides_scoped_bases :
    let s : OptionStack := { base := Flags.errexit }
    let splice : Flags := { parseAt := true }
    let strict : Flags := { strictArray := true }
    let steps := [Step.push splice, .setBase strict, .push Flags.none, .setBase Flags.none, .pop,
      .pop]
    Balanced steps ∧ (s.run steps).overrides = [] ∧ (s.run steps).current = Flags.none ∧
      ∃ body after, steps = .push splice :: (body ++ .pop :: after) ∧ Balanced body ∧
        splice.IsIn (s.run (.push splice :: body)).current ∧
        Flags.errexit.IsIn (s.run (.push splice :: body)).current := by
  intro s splice strict steps
  have h : Balanced steps := by decide
  obtain ⟨hoverrides, hcurrent, hscope⟩ := overrides_scoped s steps h
  obtain ⟨body, after, hrest, hbody, hin⟩ := hscope [] splice _ rfl
  obtain ⟨hflags, hbefore⟩ := hin body [] (List.append_nil body).symm
  exact ⟨h, hoverrides, hcurrent, body, after, congrArg (Step.push splice :: ·) hrest, hbody,
    hflags, hbefore⟩

end OptionStack

end ShellExpr
