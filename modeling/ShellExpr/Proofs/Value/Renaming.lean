import Mathlib.Order.Monotone.Basic
import ShellExpr.Proofs.Basics
import ShellExpr.Value.Key
import ShellExpr.Value.Printer

/-!
# Renumbering allocations

Which number an allocation has does not matter to a value: its type, its truth, its text and the key
it is are the same under other numbers.

* `raiseFrom`: higher numbers from some number on.
* `Handle.rename`, `Value.rename`: other numbers for the allocations.
* `Value.handles`: the allocations that a value holds.
* `Value.rename_eq_self`: the value is as before just if these keep their numbers.
-/

namespace ShellExpr

/-! ### Maps -/

namespace Assoc

variable {κ α β : Type}

/-- The map with a function applied to its values. -/
def mapValues (f : α → β) (entries : List (κ × α)) : List (κ × β) :=
  entries.map fun e => (e.1, f e.2)

@[simp] theorem mapValues_nil (f : α → β) : mapValues f ([] : List (κ × α)) = [] := rfl

@[simp] theorem mapValues_cons (f : α → β) (e : κ × α) (rest : List (κ × α)) :
    mapValues f (e :: rest) = (e.1, f e.2) :: mapValues f rest := rfl

variable [DecidableEq κ]

@[simp] theorem get?_mapValues (f : α → β) (key : κ) (entries : List (κ × α)) :
    get? key (mapValues f entries) = (get? key entries).map f := by
  induction entries with
  | nil => rfl
  | cons e rest ih =>
    rw [mapValues_cons, get?, get?, ih]
    split <;> rfl

@[simp] theorem contains_mapValues (f : α → β) (key : κ) (entries : List (κ × α)) :
    contains key (mapValues f entries) = contains key entries := by
  simp [contains]

theorem mapValues_insert (f : α → β) (key : κ) (v : α) (entries : List (κ × α)) :
    mapValues f (insert key v entries) = insert key (f v) (mapValues f entries) := by
  induction entries with
  | nil => rfl
  | cons e rest ih =>
    rw [mapValues_cons, insert, insert]
    split
    · rfl
    · rw [mapValues_cons, ih]

theorem mapValues_insertAll (f : α → β) (entries pairs : List (κ × α)) :
    mapValues f (insertAll entries pairs) =
      insertAll (mapValues f entries) (mapValues f pairs) := by
  induction pairs generalizing entries with
  | nil => rfl
  | cons p rest ih =>
    show mapValues f (insertAll (insert p.1 p.2 entries) rest) = _
    rw [ih, mapValues_insert]
    rfl

end Assoc

open Assoc

/-! ### Numbers -/

/-- The numbers below `m` as before, those from `m` on as the numbers from `k` on. -/
def raiseFrom (ρ : Nat → Nat) (m k n : Nat) : Nat := if n < m then ρ n else k + (n - m)

section Raise

variable {ρ : Nat → Nat} {m k n : Nat}

theorem raiseFrom_of_lt (h : n < m) : raiseFrom ρ m k n = ρ n := if_pos h

theorem raiseFrom_add (i : Nat) : raiseFrom ρ m k (m + i) = k + i := by
  unfold raiseFrom
  rw [if_neg (by omega), Nat.add_sub_cancel_left]

theorem strictMono_raiseFrom (hρ : StrictMono ρ) (hk : ρ m ≤ k) :
    StrictMono (raiseFrom ρ m k) := by
  intro a b hab
  by_cases hb : b < m
  · rw [raiseFrom_of_lt (by omega), raiseFrom_of_lt hb]
    exact hρ hab
  · obtain ⟨j, rfl⟩ : ∃ j, b = m + j := ⟨b - m, by omega⟩
    rw [raiseFrom_add]
    by_cases ha : a < m
    · -- what is not raised stays below what is
      have hlt : ρ a < ρ m := hρ ha
      rw [raiseFrom_of_lt ha]
      omega
    · obtain ⟨i, rfl⟩ : ∃ i, a = m + i := ⟨a - m, by omega⟩
      rw [raiseFrom_add]
      omega

end Raise

/-! ### Handles -/

namespace Handle

/-- The path with another number for the allocation, which stands last. -/
def renamePath (ρ : Nat → Nat) : List Nat → List Nat
  | [] => []
  | [n] => [ρ n]
  | i :: j :: rest => i :: renamePath ρ (j :: rest)

/-- The handle with another number for its allocation. -/
def rename (ρ : Nat → Nat) (h : Handle) : Handle := ⟨renamePath ρ h.path⟩

/-- Whether the handle belongs to an allocation. -/
def IsProper (h : Handle) : Prop := h.path ≠ []

/-- Whether the number of the allocation is below a bound. -/
def Below (n : Nat) (h : Handle) : Prop := ∀ r ∈ h.path.getLast?, r < n

variable {ρ : Nat → Nat}

theorem rename_child {h : Handle} (hp : h.IsProper) (i : Nat) :
    (h.child i).rename ρ = (h.rename ρ).child i := by
  obtain ⟨path⟩ := h
  cases path with
  | nil => exact absurd rfl hp
  | cons n rest => rfl

theorem renamePath_injective (hρ : Function.Injective ρ) : Function.Injective (renamePath ρ) := by
  intro p q h
  induction p using renamePath.induct generalizing q with
  | case1 => rcases q with - | ⟨m, - | ⟨k, q⟩⟩ <;> simp_all [renamePath]
  | case2 n =>
    rcases q with - | ⟨m, - | ⟨k, - | ⟨l, q⟩⟩⟩ <;> simp_all [renamePath]
    exact hρ h
  | case3 i j rest ih =>
    rcases q with - | ⟨m, - | ⟨k, q⟩⟩
    · simp [renamePath] at h
    · cases rest <;> simp [renamePath] at h
    · simp only [renamePath, List.cons.injEq] at h
      rw [h.1, ih h.2]

theorem rename_inj (hρ : Function.Injective ρ) {h k : Handle} :
    h.rename ρ = k.rename ρ ↔ h = k := by
  refine ⟨fun hk => ?_, fun hk => hk ▸ rfl⟩
  exact congrArg Handle.mk (renamePath_injective hρ (congrArg Handle.path hk))

theorem decide_rename (hρ : Function.Injective ρ) (h k : Handle) :
    decide (h.rename ρ = k.rename ρ) = decide (h = k) :=
  decide_eq_decide.mpr (rename_inj hρ)

/-- A handle is as before if the number of its allocation is. -/
theorem rename_of_below {n : Nat} (hρ : ∀ i < n, ρ i = i) {h : Handle} (hb : h.Below n) :
    h.rename ρ = h := by
  obtain ⟨path⟩ := h
  refine congrArg Handle.mk ?_
  induction path using renamePath.induct with
  | case1 => rfl
  | case2 m => exact congrArg (· :: []) (hρ m (hb m rfl))
  | case3 i j rest ih => exact congrArg (i :: ·) (ih hb)

/-- A handle that stays as it is when all numbers from a bound on are raised is below it. -/
theorem below_of_rename {n : Nat} {h : Handle} (hh : h.rename (raiseFrom id n (n + 1)) = h) :
    h.Below n := by
  obtain ⟨path⟩ := h
  have hp : renamePath (raiseFrom id n (n + 1)) path = path := congrArg Handle.path hh
  clear hh
  induction path using renamePath.induct with
  | case1 => simp [Below]
  | case2 m =>
    intro r hr
    obtain rfl : m = r := Option.some.inj hr
    have hm : raiseFrom id n (n + 1) m = m := List.singleton_inj.mp hp
    by_contra hn
    rw [raiseFrom, if_neg hn] at hm
    omega
  | case3 i j rest ih => exact ih (List.cons.inj hp).2

theorem rename_id (h : Handle) : h.rename id = h := by
  obtain ⟨path⟩ := h
  refine congrArg Handle.mk ?_
  induction path using renamePath.induct with
  | case1 => rfl
  | case2 m => rfl
  | case3 i j rest ih => exact congrArg (i :: ·) ih

end Handle

/-! ### Values -/

namespace Value

mutual

/-- The value with other numbers for its allocations. -/
def rename (ρ : Nat → Nat) : Value → Value
  | str h s => str (h.rename ρ) s
  | strArray h slots => strArray (h.rename ρ) slots
  | assocArray h es => assocArray (h.rename ρ) es
  | list h xs => list (h.rename ρ) (renameAll ρ xs)
  | tuple h xs => tuple (h.rename ρ) (renameAll ρ xs)
  | dict h es => dict (h.rename ρ) (renameEntries ρ es)
  | func h name => func (h.rename ρ) name
  | eggex h e => eggex (h.rename ρ) e
  | object h type attrs => object (h.rename ρ) type (renameAttrs ρ attrs)
  | null => null
  | bool b => bool b
  | int n => int n
  | float x => float x
  | range r => range r
  | slice s => slice s

/-- The same for several values. -/
def renameAll (ρ : Nat → Nat) : List Value → List Value
  | [] => []
  | v :: rest => v.rename ρ :: renameAll ρ rest

/-- The same for the values of a dict. -/
def renameEntries (ρ : Nat → Nat) : List (Key × Value) → List (Key × Value)
  | [] => []
  | (k, v) :: rest => (k, v.rename ρ) :: renameEntries ρ rest

/-- The same for the members of an object. -/
def renameAttrs (ρ : Nat → Nat) : List (String × Value) → List (String × Value)
  | [] => []
  | (k, v) :: rest => (k, v.rename ρ) :: renameAttrs ρ rest

end

mutual

/-- The handles inside a value. -/
def handles : Value → List Handle
  | list h xs => h :: handlesAll xs
  | tuple h xs => h :: handlesAll xs
  | dict h es => h :: handlesEntries es
  | object h _ attrs => h :: handlesAttrs attrs
  | str h _ | strArray h _ | assocArray h _ | func h _ | eggex h _ => [h]
  | null | bool _ | int _ | float _ | range _ | slice _ => []

/-- The same for several values. -/
def handlesAll : List Value → List Handle
  | [] => []
  | v :: rest => v.handles ++ handlesAll rest

/-- The same for the values of a dict. -/
def handlesEntries : List (Key × Value) → List Handle
  | [] => []
  | (_, v) :: rest => v.handles ++ handlesEntries rest

/-- The same for the members of an object. -/
def handlesAttrs : List (String × Value) → List Handle
  | [] => []
  | (_, v) :: rest => v.handles ++ handlesAttrs rest

end

variable {ρ : Nat → Nat}

@[simp] theorem renameAll_eq (xs : List Value) : renameAll ρ xs = xs.map (rename ρ) := by
  induction xs with
  | nil => rfl
  | cons v rest ih => rw [renameAll, ih]; rfl

@[simp] theorem renameEntries_eq (es : List (Key × Value)) :
    renameEntries ρ es = mapValues (rename ρ) es := by
  induction es with
  | nil => rfl
  | cons e rest ih => rw [renameEntries, ih]; rfl

@[simp] theorem renameAttrs_eq (attrs : List (String × Value)) :
    renameAttrs ρ attrs = mapValues (rename ρ) attrs := by
  induction attrs with
  | nil => rfl
  | cons e rest ih => rw [renameAttrs, ih]; rfl

mutual

/-- A value stays as it is just if all its handles do. -/
theorem rename_eq_self : (v : Value) → (v.rename ρ = v ↔ ∀ h ∈ v.handles, h.rename ρ = h)
  | str h s => by simp [rename, handles]
  | strArray h slots => by simp [rename, handles]
  | assocArray h es => by simp [rename, handles]
  | func h name => by simp [rename, handles]
  | eggex h e => by simp [rename, handles]
  | list h xs => by
    rw [rename, handles, List.forall_mem_cons, list.injEq, renameAll_eq_self xs]
  | tuple h xs => by
    rw [rename, handles, List.forall_mem_cons, tuple.injEq, renameAll_eq_self xs]
  | dict h es => by
    rw [rename, handles, List.forall_mem_cons, dict.injEq, renameEntries_eq_self es]
  | object h type attrs => by
    rw [rename, handles, List.forall_mem_cons, object.injEq, renameAttrs_eq_self attrs]
    exact and_congr_right fun _ => and_iff_right rfl
  | null => by simp [rename, handles]
  | bool _ => by simp [rename, handles]
  | int _ => by simp [rename, handles]
  | float _ => by simp [rename, handles]
  | range _ => by simp [rename, handles]
  | slice _ => by simp [rename, handles]

theorem renameAll_eq_self : (xs : List Value) →
    (renameAll ρ xs = xs ↔ ∀ h ∈ handlesAll xs, h.rename ρ = h)
  | [] => by simp [renameAll, handlesAll]
  | v :: rest => by
    rw [renameAll, handlesAll, List.forall_mem_append, List.cons.injEq, rename_eq_self v,
      renameAll_eq_self rest]

theorem renameEntries_eq_self : (es : List (Key × Value)) →
    (renameEntries ρ es = es ↔ ∀ h ∈ handlesEntries es, h.rename ρ = h)
  | [] => by simp [renameEntries, handlesEntries]
  | (k, v) :: rest => by
    rw [renameEntries, handlesEntries, List.forall_mem_append, List.cons.injEq, Prod.mk.injEq,
      rename_eq_self v, renameEntries_eq_self rest]
    exact and_congr_left fun _ => and_iff_right rfl

theorem renameAttrs_eq_self : (attrs : List (String × Value)) →
    (renameAttrs ρ attrs = attrs ↔ ∀ h ∈ handlesAttrs attrs, h.rename ρ = h)
  | [] => by simp [renameAttrs, handlesAttrs]
  | (k, v) :: rest => by
    rw [renameAttrs, handlesAttrs, List.forall_mem_append, List.cons.injEq, Prod.mk.injEq,
      rename_eq_self v, renameAttrs_eq_self rest]
    exact and_congr_left fun _ => and_iff_right rfl

end

theorem rename_of_fixes (v : Value) (h : ∀ k ∈ v.handles, k.rename ρ = k) : v.rename ρ = v :=
  v.rename_eq_self.mpr h

theorem rename_id : rename id = id := funext fun v => rename_of_fixes v fun h _ => h.rename_id

@[simp] theorem typeName_rename (v : Value) : (v.rename ρ).typeName = v.typeName := by
  cases v <;> rfl

@[simp] theorem number?_rename (v : Value) : (v.rename ρ).number? = v.number? := by
  cases v <;> rfl

@[simp] theorem str?_rename (v : Value) : (v.rename ρ).str? = v.str? := by
  cases v <;> rfl

@[simp] theorem eggex?_rename (v : Value) : (v.rename ρ).eggex? = v.eggex? := by
  cases v <;> rfl

@[simp] theorem isTruthy_rename (v : Value) : (v.rename ρ).isTruthy = v.isTruthy := by
  cases v <;> simp [rename, isTruthy, mapValues]

mutual

theorem write_rename : (v : Value) → (v.rename ρ).write = v.write
  | list _ xs => congrArg (fun ts => '[' :: joinWith comma ts ++ [']']) (writeAll_rename xs)
  | tuple _ xs => congrArg writeTuple (writeAll_rename xs)
  | dict _ es =>
    congrArg (fun ts => '\x7b' :: joinWith comma ts ++ ['\x7d']) (writeEntries_rename es)
  | str .. => rfl
  | strArray .. => rfl
  | assocArray .. => rfl
  | func .. => rfl
  | eggex .. => rfl
  | object .. => rfl
  | null => rfl
  | bool _ => rfl
  | int _ => rfl
  | float _ => rfl
  | range _ => rfl
  | slice _ => rfl

theorem writeAll_rename : (xs : List Value) → writeAll (renameAll ρ xs) = writeAll xs
  | [] => rfl
  | v :: rest => congrArg₂ List.cons (write_rename v) (writeAll_rename rest)

theorem writeEntries_rename : (es : List (Key × Value)) →
    writeEntries (renameEntries ρ es) = writeEntries es
  | [] => rfl
  | (k, v) :: rest =>
    congrArg₂ List.cons (congrArg (k.write ++ colon ++ ·) (write_rename v))
      (writeEntries_rename rest)

end

/-- A value is printed without its allocation. -/
@[simp] theorem text_rename (v : Value) : (v.rename ρ).text = v.text :=
  congrArg String.ofList (write_rename v)

mutual

/-- A value is the key it was. -/
theorem ofValue?_rename : (v : Value) → Key.ofValue? (v.rename ρ) = Key.ofValue? v
  | tuple h xs => by simp only [rename, Key.ofValue?, ofValues?_rename xs]
  | list .. => rfl
  | dict .. => rfl
  | str .. => rfl
  | strArray .. => rfl
  | assocArray .. => rfl
  | func .. => rfl
  | eggex .. => rfl
  | object .. => rfl
  | null => rfl
  | bool _ => rfl
  | int _ => rfl
  | float _ => rfl
  | range _ => rfl
  | slice _ => rfl

theorem ofValues?_rename : (xs : List Value) → Key.ofValues? (renameAll ρ xs) = Key.ofValues? xs
  | [] => rfl
  | v :: rest => by simp only [renameAll, Key.ofValues?, ofValue?_rename v, ofValues?_rename rest]

end

end Value

end ShellExpr
