import Mathlib.Data.List.Nodup
import ShellExpr.Pattern.Cache
import ShellExpr.Proofs.Basics

/-!
# The cache of a matcher does not show

A cache that starts empty only ever holds what its engine has read, so a matcher with one answers
each request as the engine does, whatever was asked before. This holds of every engine.

* `Matcher.Sound`: what the cache holds at any time.
* `Matcher.Sound.compile`: a request keeps it so.
* `Matcher.reply_eq`: a sound matcher answers as its engine does.
* `Matcher.answers_eq`: with the engine for regular expressions these are the verdicts of
  `Verdict.of`, which evaluation relies on.
* `Matcher.cache_invisible`: **answers do not depend on the cache**, over a whole history.
-/

namespace ShellExpr

open Assoc

namespace Matcher

variable {E : Engine} {m : Matcher E}

/-- What the cache holds: no more patterns than there is room for, each of them once and as the
engine reads it. -/
structure Sound (m : Matcher E) : Prop where
  length_le : m.cache.length ≤ m.capacity
  nodup : (m.cache.map Prod.fst).Nodup
  compiled : ∀ e ∈ m.cache, E.compile e.1 = .ok e.2

theorem sound_empty (capacity : Nat) : ({ capacity } : Matcher E).Sound :=
  ⟨Nat.zero_le _, List.nodup_nil, by simp⟩

/-! ### One request -/

/-- A pattern that is not there yet is added at the end, or to a cache that was emptied for it. -/
theorem cache_keep {text : String} {c : E.Compiled} (hnew : get? text m.cache = none) :
    (m.keep text c).cache = if m.capacity = 0 then m.cache
      else if m.capacity ≤ m.cache.length then [(text, c)] else m.cache ++ [(text, c)] := by
  unfold keep
  split
  · rfl
  · split
    · rfl
    · exact insert_of_get?_eq_none c hnew

theorem capacity_keep (text : String) (c : E.Compiled) :
    (m.keep text c).capacity = m.capacity := by
  unfold keep
  split
  · rfl
  · split <;> rfl

/-- Room is made before a pattern goes in. -/
theorem Sound.keep (h : m.Sound) {text : String} {c : E.Compiled} (hc : E.compile text = .ok c)
    (hnew : get? text m.cache = none) : (m.keep text c).Sound := by
  have hcache := cache_keep (c := c) hnew
  by_cases h0 : m.capacity = 0
  · have hsame : m.keep text c = m := if_pos h0
    rw [hsame]
    exact h
  rw [if_neg h0] at hcache
  by_cases hfull : m.capacity ≤ m.cache.length
  · rw [if_pos hfull] at hcache
    refine ⟨?_, ?_, ?_⟩
    · rw [hcache, capacity_keep, List.length_singleton]
      omega
    · rw [hcache]
      exact List.nodup_singleton text
    · intro e he
      rw [hcache] at he
      obtain rfl := List.mem_singleton.mp he
      exact hc
  · rw [if_neg hfull] at hcache
    refine ⟨?_, ?_, ?_⟩
    · rw [hcache, capacity_keep, List.length_append, List.length_singleton]
      omega
    · have hnot := not_mem_keys_of_get?_eq_none hnew
      rw [hcache, List.map_append]
      exact h.nodup.append (List.nodup_singleton text) (by simpa using hnot)
    · intro e he
      rw [hcache] at he
      rcases List.mem_append.mp he with he | he
      · exact h.compiled e he
      · obtain rfl := List.mem_singleton.mp he
        exact hc

theorem capacity_compile (m : Matcher E) (text : String) :
    (m.compile text).2.capacity = m.capacity := by
  unfold compile
  split
  · rfl
  · split
    · exact capacity_keep _ _
    · rfl

/-- A pattern from the cache is the one that the engine would read. -/
theorem compile_eq (h : m.Sound) (text : String) : (m.compile text).1 = E.compile text := by
  unfold compile
  split
  · rename_i c hc
    exact (h.compiled _ (mem_of_get? hc)).symm
  · split
    · rename_i c hc
      exact hc.symm
    · rename_i r hr
      exact hr.symm

/-- **A request keeps the cache sound.** -/
theorem Sound.compile (h : m.Sound) (text : String) : (m.compile text).2.Sound := by
  unfold Matcher.compile
  split
  · exact h
  · rename_i hnew
    split
    · rename_i c hc
      exact h.keep hc hnew
    · exact h

/-- A pattern that was accepted is in the cache then, if the cache keeps anything. -/
theorem mem_compile (h : m.Sound) (hpos : 0 < m.capacity) {text : String} {c : E.Compiled}
    (hc : E.compile text = .ok c) : (text, c) ∈ (m.compile text).2.cache := by
  unfold Matcher.compile
  split
  · rename_i c' hget
    have hmem := mem_of_get? hget
    have hsame : c' = c := by
      have hc' := h.compiled _ hmem
      rw [hc] at hc'
      exact (Except.ok.inj hc').symm
    exact hsame ▸ hmem
  · rename_i hnew
    simp only [hc]
    rw [cache_keep hnew, if_neg (by omega)]
    split <;> simp

/-- **A sound matcher answers as its engine does.** -/
theorem reply_eq (h : m.Sound) (pattern text : String) :
    (m.reply pattern text).1 = E.reply pattern text := by
  show ((m.compile pattern).1).map _ = _
  rw [compile_eq h]
  rfl

/-! ### A history of requests -/

theorem Sound.after (h : m.Sound) (requests : List (String × String)) :
    (m.after requests).Sound ∧ (m.after requests).capacity = m.capacity := by
  induction requests generalizing m with
  | nil => exact ⟨h, rfl⟩
  | cons r rest ih =>
    obtain ⟨hs, hcap⟩ := ih (h.compile r.1)
    exact ⟨hs, hcap.trans (m.capacity_compile r.1)⟩

theorem after_append (m : Matcher E) (before rest : List (String × String)) :
    m.after (before ++ rest) = (m.after before).after rest := by
  induction before generalizing m with
  | nil => rfl
  | cons r before ih => exact ih _

theorem replies_eq (h : m.Sound) (requests : List (String × String)) :
    m.replies requests = requests.map fun r => E.reply r.1 r.2 := by
  induction requests generalizing m with
  | nil => rfl
  | cons r rest ih =>
    have hrest := ih (h.compile r.1)
    rw [List.map_cons, ← reply_eq h, ← hrest]
    rfl

/-- Without the cache, the engine for regular expressions gives the verdicts of `Verdict.of`. -/
theorem ofReply_regular (pattern text : String) :
    Verdict.ofReply (Engine.regular.reply pattern text) = Verdict.of pattern text := by
  unfold Engine.reply Engine.regular Verdict.of
  simp only
  cases Pattern.parse? pattern.toList with
  | none => rfl
  | some p =>
    simp only [Except.map, Engine.groups?, Verdict.search, Pattern.find]
    cases p.captures text.toList with
    | none => rfl
    | some groups =>
      have htext : ∀ g : Option (List Char),
          (g.map String.ofList).getD "" = String.ofList (g.getD []) := by
        intro g
        cases g <;> rfl
      simp [Verdict.ofReply, htext]

/-- So whoever asks a matcher gets what `Verdict.of` says. -/
theorem answers_eq (capacity : Nat) (requests : List (String × String)) :
    ({ capacity } : Matcher).answers requests = requests.map fun r => Verdict.of r.1 r.2 := by
  unfold answers
  rw [replies_eq (sound_empty capacity), List.map_map]
  exact List.map_congr_left fun r _ => ofReply_regular r.1 r.2

/-- **The cache does not show.** For every engine, capacity and history of requests, each answer is
the one that the engine gives to that request alone. After each request the cache holds at most as
many patterns as there is room for, each once and as the engine reads it, so none that it rejects;
the pattern just accepted is among them, unless the capacity is zero. -/
theorem cache_invisible (E : Engine) (capacity : Nat) (requests : List (String × String)) :
    let m : Matcher E := { capacity }
    m.replies requests = requests.map (fun r => E.reply r.1 r.2) ∧
      ∀ before pattern text rest, requests = before ++ (pattern, text) :: rest →
        let cache := (m.after (before ++ [(pattern, text)])).cache
        cache.length ≤ capacity ∧ (cache.map Prod.fst).Nodup ∧
          (∀ e ∈ cache, E.compile e.1 = .ok e.2) ∧
          (0 < capacity → ∀ c, E.compile pattern = .ok c → (pattern, c) ∈ cache) := by
  intro m
  have hm : m.Sound := sound_empty capacity
  refine ⟨replies_eq hm requests, ?_⟩
  intro before pattern text rest _ cache
  obtain ⟨hs, hcap⟩ := hm.after before
  have hafter : m.after (before ++ [(pattern, text)]) = ((m.after before).compile pattern).2 := by
    rw [after_append]
    rfl
  have hs' := hs.compile pattern
  have hcap' : ((m.after before).compile pattern).2.capacity = capacity :=
    (capacity_compile _ pattern).trans hcap
  simp only [cache, hafter]
  refine ⟨hcap' ▸ hs'.length_le, hs'.nodup, hs'.compiled, fun hpos c hc => ?_⟩
  exact mem_compile hs (by rw [hcap]; exact hpos) hc

/-- Three patterns share one place, the second being malformed and the third having no match. -/
theorem cache_invisible_flush :
    let m : Matcher := { capacity := 1 }
    let requests := [("(a)|b", "xa"), ("(", "y"), ("b", "a"), ("(a)|b", "b")]
    (m.replies requests).map Verdict.ofReply =
        [.hit ["a", "a"], .rejected, .miss, .hit ["b", ""]] ∧
      (m.after requests).cache.length ≤ 1 ∧
      ∀ e ∈ (m.after requests).cache, Engine.regular.compile e.1 = .ok e.2 := by
  intro m requests
  obtain ⟨hreplies, hcache⟩ := cache_invisible .regular 1 requests
  obtain ⟨hlen, -, hcompiled, -⟩ := hcache requests.dropLast "(a)|b" "b" [] rfl
  refine ⟨?_, hlen, hcompiled⟩
  rw [hreplies]
  decide +kernel

end Matcher

end ShellExpr
