import Mathlib.Data.List.Basic
import ShellExpr.Assoc
import ShellExpr.Text.Bytes

/-!
# Results, lists, characters and maps

* `ok_of_isOk`, `ok_of_map`, `ok_of_bind`: where a result that is no error comes from.
* `error_of_map`, `error_of_bind`, `error_of_mapM`: where an error comes from.
* `mem_of_mapM`: what a row of computations gives, one by one.
* `drop_of_getElem?`, `getElem?_of_drop`, `drop_of_drop`: an item of a list and the rest from it on.
* `forall_head?_append`: the first item of two lists in a row.
* `Bytes.scalar?_eq_some_iff`: the character of a code point.
* `Assoc.forall_insert`: a property of all values of a map, after a write.
* `Assoc.insert_of_get?_eq_none`: a new key goes to the end.
-/

namespace ShellExpr

section Results

variable {α β ε δ : Type}

theorem ok_of_isOk {x : Except ε α} (h : x.isOk = true) : ∃ a, x = .ok a := by
  cases x with
  | error e => cases h
  | ok a => exact ⟨a, rfl⟩

theorem ok_of_map {x : Except ε α} {f : α → β} {b : β} (h : x.map f = .ok b) :
    ∃ a, x = .ok a ∧ f a = b := by
  cases x with
  | error e => cases h
  | ok a => exact ⟨a, rfl, Except.ok.inj h⟩

theorem ok_of_bind {x : Except ε α} {f : α → Except ε β} {b : β} (h : x.bind f = .ok b) :
    ∃ a, x = .ok a ∧ f a = .ok b := by
  cases x with
  | error e => cases h
  | ok a => exact ⟨a, rfl, h⟩

theorem error_of_map {x : Except ε α} {f : α → β} {e : ε} (h : x.map f = .error e) :
    x = .error e := by
  cases x with
  | error e' => exact congrArg _ (Except.error.inj h)
  | ok a => cases h

theorem error_of_bind {x : Except ε α} {f : α → Except ε β} {e : ε} (h : x.bind f = .error e) :
    x = .error e ∨ ∃ a, x = .ok a ∧ f a = .error e := by
  cases x with
  | error e' => exact .inl (congrArg _ (Except.error.inj h))
  | ok a => exact .inr ⟨a, rfl, h⟩

/-- Of several computations in a row, one has failed. -/
theorem error_of_mapM {f : α → Except ε β} {xs : List α} {e : ε} (h : xs.mapM f = .error e) :
    ∃ x ∈ xs, f x = .error e := by
  induction xs with
  | nil => cases h
  | cons x rest ih =>
    rw [List.mapM_cons] at h
    rcases error_of_bind h with h | ⟨y, -, h⟩
    · exact ⟨x, List.mem_cons_self, h⟩
    rcases error_of_bind h with h | ⟨ys, -, h⟩
    · obtain ⟨x', hx, hf⟩ := ih h
      exact ⟨x', List.mem_cons_of_mem _ hx, hf⟩
    · cases h

/-- If a row of computations gives results, each computation gives one of them, and each of them is
given by one. -/
theorem mem_of_mapM {f : α → Except ε β} {xs : List α} {ys : List β} (h : xs.mapM f = .ok ys) :
    (∀ x ∈ xs, ∃ y ∈ ys, f x = .ok y) ∧ ∀ y ∈ ys, ∃ x ∈ xs, f x = .ok y := by
  induction xs generalizing ys with
  | nil =>
    obtain rfl := Except.ok.inj h
    simp
  | cons x rest ih =>
    rw [List.mapM_cons] at h
    obtain ⟨y, hy, h⟩ := ok_of_bind h
    obtain ⟨ys', hys, h⟩ := ok_of_bind h
    obtain rfl := Except.ok.inj h
    obtain ⟨hleft, hright⟩ := ih hys
    constructor
    · refine List.forall_mem_cons.mpr ⟨⟨y, List.mem_cons_self, hy⟩, fun x' hx => ?_⟩
      obtain ⟨y', hy', hf⟩ := hleft x' hx
      exact ⟨y', List.mem_cons_of_mem _ hy', hf⟩
    · refine List.forall_mem_cons.mpr ⟨⟨x, List.mem_cons_self, hy⟩, fun y' hy' => ?_⟩
      obtain ⟨x', hx, hf⟩ := hright y' hy'
      exact ⟨x', List.mem_cons_of_mem _ hx, hf⟩

theorem ok_of_mapError {x : Except ε α} {f : ε → δ} {a : α} (h : x.mapError f = .ok a) :
    x = .ok a := by
  cases x with
  | error e => cases h
  | ok b => exact congrArg _ (Except.ok.inj h)

theorem error_of_mapError {x : Except ε α} {f : ε → δ} {e : δ} (h : x.mapError f = .error e) :
    ∃ e', x = .error e' ∧ f e' = e := by
  cases x with
  | error e' => exact ⟨e', rfl, Except.error.inj h⟩
  | ok a => cases h

theorem mapError_mapError {ζ : Type} (f : ε → δ) (g : δ → ζ) (x : Except ε α) :
    (x.mapError f).mapError g = x.mapError fun e => g (f e) := by
  cases x <;> rfl

end Results

section Lists

variable {α : Type} {xs ys : List α} {i : Nat} {x : α}

theorem drop_of_getElem? (h : xs[i]? = some x) : xs.drop i = x :: xs.drop (i + 1) := by
  obtain ⟨hi, rfl⟩ := List.getElem?_eq_some_iff.mp h
  exact List.drop_eq_getElem_cons hi

theorem getElem?_of_drop (h : xs.drop i = ys) (k : Nat) : xs[i + k]? = ys[k]? := by
  rw [← h, List.getElem?_drop]

theorem drop_of_drop (h : xs.drop i = x :: ys) : xs.drop (i + 1) = ys := by
  rw [← List.drop_drop, h, List.drop_one, List.tail_cons]

/-- The first item of two lists is the first of one of them. -/
theorem forall_head?_append {p : α → Prop} (h : ∀ y ∈ xs.head?, p y) (h' : ∀ y ∈ ys.head?, p y) :
    ∀ y ∈ (xs ++ ys).head?, p y := by
  intro y hy
  rw [List.head?_append] at hy
  rcases Option.or_eq_some_iff.mp hy with hy | ⟨-, hy⟩
  · exact h y hy
  · exact h' y hy

theorem head?_append_ne (h : ∀ y ∈ xs.head?, y ≠ x) (h' : ys.head? ≠ some x) :
    (xs ++ ys).head? ≠ some x :=
  fun he => forall_head?_append h (fun _ hy hyx => h' (hyx ▸ hy)) x he rfl

end Lists

section Characters

theorem Bytes.scalar?_eq_some_iff {code : Nat} {c : Char} :
    Bytes.scalar? code = some c ↔ c.toNat = code := by
  unfold Bytes.scalar?
  split
  · rename_i h
    rw [Option.some.injEq, Char.ofNat, dif_pos h, ← Char.toNat_inj]
    exact eq_comm
  · rename_i h
    constructor
    · intro hn
      contradiction
    · rintro rfl
      exact absurd c.valid h

end Characters

namespace Assoc

variable {κ α : Type} [DecidableEq κ] {p : α → Prop}

/-- What holds of all values of a map and of a new one holds after the write. -/
theorem forall_insert {k : κ} {v : α} {entries : List (κ × α)} (hv : p v)
    (h : ∀ e ∈ entries, p e.2) : ∀ e ∈ insert k v entries, p e.2 := by
  induction entries with
  | nil => simpa [insert] using hv
  | cons e rest ih =>
    obtain ⟨k', v'⟩ := e
    rw [List.forall_mem_cons] at h
    unfold insert
    split
    · exact List.forall_mem_cons.mpr ⟨hv, h.2⟩
    · exact List.forall_mem_cons.mpr ⟨h.1, ih h.2⟩

theorem forall_insertAll {entries pairs : List (κ × α)} (h : ∀ e ∈ entries, p e.2)
    (h' : ∀ e ∈ pairs, p e.2) : ∀ e ∈ insertAll entries pairs, p e.2 := by
  induction pairs generalizing entries with
  | nil => exact h
  | cons e rest ih =>
    rw [List.forall_mem_cons] at h'
    exact ih (forall_insert h'.1 h) h'.2

theorem mem_of_get? {k : κ} {v : α} {entries : List (κ × α)} (hv : get? k entries = some v) :
    (k, v) ∈ entries := by
  induction entries with
  | nil => simp [get?] at hv
  | cons e rest ih =>
    obtain ⟨k', v'⟩ := e
    unfold get? at hv
    split at hv
    · rename_i hk
      obtain rfl := Option.some.inj hv
      exact hk ▸ List.mem_cons_self
    · exact List.mem_cons_of_mem _ (ih hv)

theorem of_get? {k : κ} {v : α} {entries : List (κ × α)} (hv : get? k entries = some v)
    (h : ∀ e ∈ entries, p e.2) : p v := h _ (mem_of_get? hv)

theorem not_mem_keys_of_get?_eq_none {k : κ} {entries : List (κ × α)}
    (h : get? k entries = none) : k ∉ entries.map Prod.fst := by
  induction entries with
  | nil => simp
  | cons e rest ih =>
    obtain ⟨k', v'⟩ := e
    unfold get? at h
    split at h
    · contradiction
    · rename_i hk
      rw [List.map_cons, List.mem_cons, not_or]
      exact ⟨Ne.symm hk, ih h⟩

/-- A key that is not there yet goes to the end. -/
theorem insert_of_get?_eq_none {k : κ} (v : α) {entries : List (κ × α)}
    (h : get? k entries = none) : insert k v entries = entries ++ [(k, v)] := by
  induction entries with
  | nil => rfl
  | cons e rest ih =>
    obtain ⟨k', v'⟩ := e
    unfold get? at h
    split at h
    · contradiction
    · rename_i hk
      rw [insert, if_neg hk, ih h]
      rfl

end Assoc

end ShellExpr
