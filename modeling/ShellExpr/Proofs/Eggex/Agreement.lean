import ShellExpr.Proofs.Eggex.Substitution
import ShellExpr.Proofs.Eval.Canonical
import ShellExpr.Proofs.Eval.Classified

/-!
# Compiling and rendering agree

A tree that evaluation compiles is meant to be canonical, so that rendering meets nothing that is
still to be compiled. A debug build asserts that it is. Compilation alone does not see to it: a token
of a character class that spells no character passes. Where assertions are checked, evaluation panics
over it; where they are not, it gives a tree without a pattern.

* `Eggex.compileAsserting_isOk_iff`: which trees are compiled and pass the assertion.
* `Eggex.leftUncompiled_of_not_spelled`: which trees compilation panics over.
* `Eggex.error_of_not_isCompilable`: all others fail, with the error of a leaf.
* `compile_render_agree`: **what evaluation gives, and whether there is a pattern for it**.
-/

namespace ShellExpr

namespace Eggex

variable {scope : EggexScope} {debug : Bool} {t : Eggex}

/-- What passes the assertion: a tree that compiles, without tokens that spell nothing unless
nobody looks. -/
theorem compileAsserting_isOk_iff (hc : scope.Canonical) (t : Eggex) (debug : Bool) :
    (∃ c, t.compileAsserting debug scope = .ok c) ↔
      t.IsCompilable scope ∧ (t.Spelled ∨ debug = false) := by
  rw [← compile_isOk_iff hc]
  constructor
  · rintro ⟨c, h⟩
    obtain ⟨hcompile, hcanonical⟩ := compileAsserting_eq_ok_iff.mp h
    refine ⟨⟨c, hcompile⟩, ?_⟩
    cases debug with
    | true => exact .inl ((isCanonical_iff_spelled hc hcompile).mp (hcanonical rfl))
    | false => exact .inr rfl
  · rintro ⟨⟨c, hcompile⟩, hs⟩
    refine ⟨c, compileAsserting_eq_ok_iff.mpr ⟨hcompile, fun hdebug => ?_⟩⟩
    rcases hs with hs | hs
    · exact (isCanonical_iff_spelled hc hcompile).mpr hs
    · exact absurd (hdebug.symm.trans hs) (by decide)

/-- A tree that compiles and has a token that spells nothing does not pass it. -/
theorem leftUncompiled_of_not_spelled (hc : scope.Canonical) (ht : t.IsCompilable scope)
    (hs : ¬ t.Spelled) : t.compileAsserting true scope = .error leftUncompiled := by
  obtain ⟨c, hcompile⟩ := (compile_isOk_iff hc t).mpr ht
  have hcanonical : c.isCanonical = false :=
    Bool.eq_false_iff.mpr fun h => hs ((isCanonical_iff_spelled hc hcompile).mp h)
  exact compileAsserting_eq_error_iff.mpr (.inr ⟨rfl, rfl, c, hcompile, hcanonical⟩)

/-- A tree that does not compile fails with the error of a leaf, before anything is asserted. -/
theorem error_of_not_isCompilable (hc : scope.Canonical) (ht : ¬ t.IsCompilable scope) :
    ∃ e, t.compileAsserting debug scope = .error e ∧ ∃ l ∈ t.leaves, l.compile scope = .error e := by
  cases hcompile : t.compile scope with
  | ok c => exact absurd ((compile_isOk_iff hc t).mp ⟨c, hcompile⟩) ht
  | error e =>
    exact ⟨e, compileAsserting_eq_error_iff.mpr (.inl hcompile), error_of_compile hcompile⟩

end Eggex

open Eggex

/-- **Compilation and rendering agree** but for tokens of character classes that spell nothing. If
variables hold canonical eggexes, evaluation gives a tree exactly if each leaf is resolved or is such
a token, and there is none of these or assertions are not checked. With one, evaluation panics where
they are checked. With a leaf of any other kind that is not resolved, evaluation fails with the error
of a leaf, which is no panic unless the words report one.

Of the trees it gives, those without such tokens are canonical, and rendering meets nothing that is
still to be compiled. Those with one are not, and there is no pattern: a token like that is at fault,
or a feature that has none. -/
theorem compile_render_agree (host : Host) (w : World)
    (hw : (Eval.scopeOf host w.store).Canonical) (tree : Eggex) :
    let scope := Eval.scopeOf host w.store
    let result := ((evalEggex host tree).outcome w).1
    ((∃ c, result = .ok c) ↔ tree.IsCompilable scope ∧ (tree.Spelled ∨ host.debug = false)) ∧
    (tree.IsCompilable scope → ¬ tree.Spelled → host.debug = true →
      result = .error leftUncompiled ∧ leftUncompiled.fault.isPanic = true) ∧
    (¬ tree.IsCompilable scope → ∃ e, result = .error e ∧
      (∃ l ∈ tree.leaves, l.compile scope = .error e) ∧
      (e.fault.isPanic = true → host.words.Fails e)) ∧
    ∀ c, result = .ok c →
      (c.isCanonical = true ↔ tree.Spelled) ∧
      (tree.Spelled → ∀ node, c.render ≠ .error (ClassTerm.notCompiled node)) ∧
      (¬ tree.Spelled → ∃ f, c.render = .error f ∧
        (f = ClassTerm.notCompiled "CharLiteral" ∨ ∃ feature, f = .unsupported feature)) := by
  intro scope result
  have hresult : result = tree.compileAsserting host.debug scope :=
    congrArg Prod.fst (Eval.outcome_compileEggex host tree w)
  rw [hresult]
  refine ⟨compileAsserting_isOk_iff hw tree host.debug, fun ht hs hdebug => ?_, fun ht => ?_,
    fun c h => ?_⟩
  · rw [hdebug]
    exact ⟨leftUncompiled_of_not_spelled hw ht hs, rfl⟩
  · obtain ⟨e, he, l, hl, hleaf⟩ := error_of_not_isCompilable hw ht
    exact ⟨e, he, ⟨l, hl, hleaf⟩, (failsEggex_of_compile hleaf).fails_of_isPanic⟩
  · have hcompile : tree.compile scope = .ok c := (compileAsserting_eq_ok_iff.mp h).1
    refine ⟨isCanonical_iff_spelled hw hcompile, fun hs node hnode => ?_, fun hs => ?_⟩
    · have hcanonical := (isCanonical_iff_spelled hw hcompile).mpr hs
      obtain ⟨feature, hf⟩ := unsupported_of_render hcanonical hnode
      contradiction
    · obtain ⟨f, hf⟩ := error_of_not_spelled hcompile hs
      exact ⟨f, hf, fault_of_render hw hcompile hf⟩

/-- A splice, followed by a class with a letter and a number in it. -/
def numberClass : Eggex :=
  .seq [.splice ⟨.name, "x", .dummy⟩,
    .charClass false [.charLiteral ⟨.name, "d", .dummy⟩, .charLiteral ⟨.decInt, "5", .dummy⟩]]

theorem compile_render_agree_number :
    let host := ({} : Tables).host
    let release := { host with debug := false }
    (Eval.scopeOf host spliceWorld.store).Canonical ∧ ¬ numberClass.Spelled ∧
      ((evalEggex host numberClass).outcome spliceWorld).1 = .error leftUncompiled ∧
      leftUncompiled.fault.isPanic = true ∧
      ∃ c, ((evalEggex release numberClass).outcome spliceWorld).1 = .ok c ∧
        c.isCanonical = false ∧ ∃ f, c.render = .error f ∧
          (f = ClassTerm.notCompiled "CharLiteral" ∨ ∃ feature, f = .unsupported feature) := by
  intro host release
  have hstore : spliceWorld.store.Holds IsCanonical := by
    intro f hf e he
    rw [List.mem_singleton.mp hf] at he
    rw [List.mem_singleton.mp he]
    exact Value.holds_eggex.mpr rfl
  have hw := hstore.scope_canonical host
  have hs : ¬ numberClass.Spelled := by decide
  -- both builds compile alike, so that the one that goes on shows what the other stops at
  have hrelease := compile_render_agree release spliceWorld hw numberClass
  have hcompilable := (hrelease.1.mp ⟨_, rfl⟩).1
  have hpanic := (compile_render_agree host spliceWorld hw numberClass).2.1 hcompilable hs rfl
  have h := hrelease.2.2.2 _ rfl
  refine ⟨hw, hs, hpanic.1, hpanic.2, _, rfl, ?_, h.2.2 hs⟩
  exact Bool.eq_false_iff.mpr fun hc => hs (h.1.mp hc)

/-- A number in a class is refused neither way: evaluation panics over it, or gives it back, refused
as not compiled. -/
theorem number_passes_compilation : ({} : World).store.Holds IsCanonical ∧
    let host := ({} : Tables).host
    let tree : Eggex := .charClass false [.charLiteral ⟨.decInt, "5", ⟨1, 2⟩⟩]
    ((evalEggex host tree).outcome {}).1 = .error (Fault.panic "eggex left uncompiled").unplaced ∧
      ∃ c, ((evalEggex { host with debug := false } tree).outcome {}).1 = .ok c ∧
        c.render = .error (ClassTerm.notCompiled "CharLiteral") := by
  refine ⟨?_, rfl, _, rfl, rfl⟩
  intro f hf e he
  rw [List.mem_singleton.mp hf] at he
  contradiction

end ShellExpr
