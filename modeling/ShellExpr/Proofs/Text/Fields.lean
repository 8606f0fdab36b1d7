import Mathlib.Data.List.Basic
import ShellExpr.Text.Fields

/-!
# Fields are the maximal runs

Splitting reads a text from left to right and keeps the field at hand. It gives the pieces between
separators, the empty ones left out. Two laws say all of it: a separator cuts a text into two that
are split on their own, and a text without separators is one field, or none if it is empty. Every
text is made up in this way, so all else follows by induction over its separators.

* `split_eq`: the pieces between separators, but for the empty ones.
* `split_cut`, `split_plain`: the two laws.
* `cut_induction`: induction over the separators of a text.
* `mem_split_iff`: the fields are the runs that no further character extends.
* `split_lawful`: **fields are the maximal runs**, and joining them loses nothing.
-/

namespace ShellExpr.Fields

variable {separators text field : List Char}

/-- No character of the text is a separator. -/
def IsPlain (separators text : List Char) : Prop := ∀ c ∈ text, c ∉ separators

/-- A field that stands in the text and cannot be longer at either end. -/
def IsRun (separators text field : List Char) : Prop :=
  ∃ before behind, text = before ++ field ++ behind ∧ field ≠ [] ∧ IsPlain separators field ∧
    (∀ c ∈ before.getLast?, c ∈ separators) ∧ ∀ c ∈ behind.head?, c ∈ separators

/-! ### The two laws -/

/-- The pieces between separators, the field at hand in front of the first one. -/
theorem splitFrom_eq (separators field text : List Char) : splitFrom separators field text =
    ((text.splitOnP separators.contains).modifyHead (field ++ ·)).filter fun f => !f.isEmpty := by
  induction text generalizing field with
  | nil => cases field <;> simp [splitFrom, close]
  | cons c rest ih =>
    rw [splitFrom, List.splitOnP_cons_eq_if_modifyHead]
    by_cases hc : separators.contains c = true
    · -- the field ends here, and the next one starts with nothing at hand
      have hrest : splitFrom separators [] rest =
          (rest.splitOnP separators.contains).filter fun f => !f.isEmpty := by
        rw [ih]
        congr 1
        exact congrFun List.modifyHead_id _
      rw [if_pos hc, if_pos hc, hrest, List.modifyHead_cons, List.append_nil, List.filter_cons]
      cases field <;> rfl
    · rw [if_neg hc, if_neg hc, ih, List.modifyHead_modifyHead]
      congr 2
      funext f
      simp

theorem split_eq (separators text : List Char) :
    split separators text = (text.splitOnP separators.contains).filter fun f => !f.isEmpty := by
  rw [split, splitFrom_eq]
  congr 1
  exact congrFun List.modifyHead_id _

/-- A separator cuts the text, and each side is split on its own. -/
theorem split_cut (a b : List Char) {c : Char} (hc : c ∈ separators) :
    split separators (a ++ c :: b) = split separators a ++ split separators b := by
  have hsep : separators.contains c = true := List.contains_iff_mem.mpr hc
  rw [split_eq, split_eq, split_eq, List.splitOnP_append_cons a b hsep, List.filter_append]

/-- Without separators a text is one field, unless it is empty. -/
theorem split_plain (h : IsPlain separators text) :
    split separators text = if text = [] then [] else [text] := by
  have hnone : ∀ c ∈ text, separators.contains c = false := by
    intro c hc
    have hnot : c ∉ separators := h c hc
    simpa using hnot
  rw [split_eq, List.splitOnP_eq_singleton hnone]
  cases text <;> rfl

/-! ### Induction over separators -/

theorem IsPlain.nil : IsPlain separators [] := by
  intro c hc
  cases hc

theorem IsPlain.snoc {c : Char} (h : IsPlain separators text) (hc : c ∉ separators) :
    IsPlain separators (text ++ [c]) := by
  intro d hd
  rcases List.mem_append.mp hd with hd | hd
  · exact h d hd
  · rw [List.mem_singleton.mp hd]
    exact hc

/-- A text is plain, or its first separator stands behind a plain text. -/
@[elab_as_elim]
theorem cut_induction (separators : List Char) {motive : List Char → Prop}
    (plain : ∀ a, IsPlain separators a → motive a)
    (cut : ∀ a c b, IsPlain separators a → c ∈ separators → motive b → motive (a ++ c :: b))
    (text : List Char) : motive text := by
  -- as in the reading itself, the plain text at hand grows up to the next separator
  have hfrom : ∀ text a : List Char, IsPlain separators a → motive (a ++ text) := by
    intro text
    induction text with
    | nil =>
      intro a ha
      rw [List.append_nil]
      exact plain a ha
    | cons c rest ih =>
      intro a ha
      by_cases hc : c ∈ separators
      · exact cut a c rest ha hc (ih [] .nil)
      · have hsnoc := ih (a ++ [c]) (ha.snoc hc)
        rwa [List.append_assoc, List.singleton_append] at hsnoc
  exact hfrom text [] .nil

/-! ### What the fields are -/

theorem mem_split_plain (h : IsPlain separators text) :
    field ∈ split separators text ↔ field = text ∧ text ≠ [] := by
  rw [split_plain h]
  by_cases hempty : text = []
  · simp [hempty]
  · simp [hempty]

theorem isPlain_of_mem_split (h : field ∈ split separators text) :
    field ≠ [] ∧ IsPlain separators field := by
  induction text using cut_induction separators with
  | plain a ha =>
    obtain ⟨rfl, hne⟩ := (mem_split_plain ha).mp h
    exact ⟨hne, ha⟩
  | cut a c b ha hc ih =>
    rw [split_cut a b hc] at h
    rcases List.mem_append.mp h with h | h
    · obtain ⟨rfl, hne⟩ := (mem_split_plain ha).mp h
      exact ⟨hne, ha⟩
    · exact ih h

/-- Nothing but the separators is lost. -/
theorem flatten_split (separators text : List Char) :
    (split separators text).flatten = text.filter fun c => c ∉ separators := by
  have hkeep : ∀ a, IsPlain separators a → a.filter (fun c => c ∉ separators) = a := by
    intro a ha
    refine List.filter_eq_self.mpr ?_
    intro c hc
    exact decide_eq_true (ha c hc)
  have hplain : ∀ a, IsPlain separators a → (split separators a).flatten = a := by
    intro a ha
    rw [split_plain ha]
    by_cases hempty : a = []
    · simp [hempty]
    · simp [hempty]
  induction text using cut_induction separators with
  | plain a ha => rw [hplain a ha, hkeep a ha]
  | cut a c b ha hc ih =>
    rw [split_cut a b hc, List.flatten_append, hplain a ha, ih, List.filter_append, hkeep a ha,
      List.filter_cons_of_neg (by simp [hc])]

/-- Fields with a separator between any two are split into the fields. -/
theorem split_intercalate {fields : List (List Char)} {c : Char} (hc : c ∈ separators)
    (h : ∀ field ∈ fields, field ≠ [] ∧ IsPlain separators field) :
    split separators ([c].intercalate fields) = fields := by
  induction fields with
  | nil => exact split_plain .nil
  | cons field rest ih =>
    obtain ⟨hfield, hrest⟩ := List.forall_mem_cons.mp h
    have hsingle : split separators field = [field] := by
      rw [split_plain hfield.2, if_neg hfield.1]
    cases rest with
    | nil => rw [List.intercalate_singleton, hsingle]
    | cons next rest =>
      rw [List.intercalate_cons_cons, List.append_assoc, List.singleton_append,
        split_cut field _ hc, hsingle, ih hrest]
      rfl

theorem mem_split_of_isRun (h : IsRun separators text field) : field ∈ split separators text := by
  obtain ⟨before, behind, rfl, hne, hplain, hbefore, hbehind⟩ := h
  have hlast : field ∈ split separators (field ++ behind) := by
    cases behind with
    | nil =>
      rw [List.append_nil]
      exact (mem_split_plain hplain).mpr ⟨rfl, hne⟩
    | cons c rest =>
      have hc : c ∈ separators := hbehind c rfl
      rw [split_cut field rest hc]
      exact List.mem_append_left _ ((mem_split_plain hplain).mpr ⟨rfl, hne⟩)
  rcases List.eq_nil_or_concat' before with rfl | ⟨init, c, rfl⟩
  · exact hlast
  · have hc : c ∈ separators := hbefore c (by simp)
    rw [List.append_assoc, List.append_assoc, List.singleton_append, split_cut init _ hc]
    exact List.mem_append_right _ hlast

theorem isRun_of_mem_split (h : field ∈ split separators text) : IsRun separators text field := by
  induction text using cut_induction separators with
  | plain a ha =>
    obtain ⟨rfl, hne⟩ := (mem_split_plain ha).mp h
    exact ⟨[], [], by simp, hne, ha, by simp, by simp⟩
  | cut a c b ha hc ih =>
    rw [split_cut a b hc] at h
    rcases List.mem_append.mp h with h | h
    · -- the plain text in front of the first separator
      obtain ⟨rfl, hne⟩ := (mem_split_plain ha).mp h
      exact ⟨[], c :: b, by simp, hne, ha, by simp, by simpa using hc⟩
    · obtain ⟨before, behind, rfl, hne, hplain, hbefore, hbehind⟩ := ih h
      refine ⟨a ++ c :: before, behind, by simp, hne, hplain, ?_, hbehind⟩
      intro d hd
      rcases List.eq_nil_or_concat' before with rfl | ⟨init, e, rfl⟩
      · have hdc : c = d := by simpa using hd
        exact hdc ▸ hc
      · have hend : a ++ c :: (init ++ [e]) = (a ++ c :: init) ++ [e] := by simp
        rw [hend, List.getLast?_concat] at hd
        exact hbefore d (by rw [List.getLast?_concat]; exact hd)

theorem mem_split_iff : field ∈ split separators text ↔ IsRun separators text field :=
  ⟨isRun_of_mem_split, mem_split_of_isRun⟩

/-- **Fields are the maximal runs.** A separator cuts a text into two that are split on their own;
without one a text is one field, or none if it is empty. So the fields are the runs of other
characters that cannot be longer, they hold all characters but the separators, and joined with a
separator they are split again into the same fields. -/
theorem split_lawful (separators : List Char) :
    (∀ a b c, c ∈ separators →
      split separators (a ++ c :: b) = split separators a ++ split separators b) ∧
    (∀ text, (∀ c ∈ text, c ∉ separators) →
      split separators text = if text = [] then [] else [text]) ∧
    ∀ text,
      (∀ field ∈ split separators text, field ≠ [] ∧ ∀ c ∈ field, c ∉ separators) ∧
      (∀ field, field ∈ split separators text ↔ IsRun separators text field) ∧
      (split separators text).flatten = text.filter (fun c => c ∉ separators) ∧
      ∀ c ∈ separators,
        split separators ([c].intercalate (split separators text)) = split separators text := by
  refine ⟨fun a b c hc => split_cut a b hc, fun text h => split_plain h, fun text => ?_⟩
  have hfields : ∀ field ∈ split separators text, field ≠ [] ∧ IsPlain separators field :=
    fun field hfield => isPlain_of_mem_split hfield
  exact ⟨hfields, fun field => mem_split_iff, flatten_split separators text,
    fun c hc => split_intercalate hc hfields⟩

/-- Colons at both ends and side by side, beside a separator that does not occur. -/
theorem split_lawful_colons :
    let separators := [':', 'é']
    ':' ∈ separators ∧ (∀ c ∈ "bin".toList, c ∉ separators) ∧
      split separators "bin".toList = ["bin".toList] ∧
      split separators (":a::".toList ++ ':' :: "bin".toList) = ["a".toList, "bin".toList] ∧
      split separators ('é' :: "bin".toList) = ["bin".toList] := by
  intro separators
  have hcolon : ':' ∈ separators := by decide
  have hplain : ∀ c ∈ "bin".toList, c ∉ separators := by simp [separators]
  obtain ⟨hcut, hwhole, -⟩ := split_lawful separators
  have hbin : split separators "bin".toList = ["bin".toList] := hwhole _ hplain
  refine ⟨hcolon, hplain, hbin, ?_, ?_⟩
  · rw [hcut _ _ ':' hcolon, hbin]
    rfl
  · rw [← List.nil_append ('é' :: _), hcut [] _ 'é' (by decide), hbin]
    rfl

end ShellExpr.Fields
