/-!
# Maps in order of insertion

A map is its list of entries, each key once, in the order in which the keys were first given. A key
given again keeps its place and takes the new value.

* `Assoc.get?_insert`: reading after a write.
* `Assoc.keys_insert`: a write adds its key at the end, or nothing if the key is there.
-/

namespace ShellExpr.Assoc

variable {κ : Type u} {α : Type v} [DecidableEq κ]

/-- The value at a key. -/
def get? (key : κ) : List (κ × α) → Option α
  | [] => none
  | (k, v) :: rest => if k = key then some v else get? key rest

def contains (key : κ) (entries : List (κ × α)) : Bool := (get? key entries).isSome

/-- The map with `value` at `key`. -/
def insert (key : κ) (value : α) : List (κ × α) → List (κ × α)
  | [] => [(key, value)]
  | (k, v) :: rest => if k = key then (k, value) :: rest else (k, v) :: insert key value rest

/-- The map with all the given entries written to it, in order. -/
def insertAll (entries : List (κ × α)) (pairs : List (κ × α)) : List (κ × α) :=
  pairs.foldl (fun m p => insert p.1 p.2 m) entries

/-- The map of the given entries; of entries with one key the last value counts. -/
def ofPairs (pairs : List (κ × α)) : List (κ × α) := insertAll [] pairs

theorem get?_insert (key k : κ) (v : α) (entries : List (κ × α)) :
    get? key (insert k v entries) = if k = key then some v else get? key entries := by
  induction entries with
  | nil => simp [insert, get?]
  | cons e rest ih =>
    obtain ⟨k', v'⟩ := e
    by_cases h : k' = k
    · subst h; by_cases hk : k' = key <;> simp [insert, get?, hk]
    · by_cases hk : k' = key
      · subst hk; simp [insert, get?, h, Ne.symm h]
      · simp [insert, get?, h, hk, ih]

theorem keys_insert (k : κ) (v : α) (entries : List (κ × α)) :
    (insert k v entries).map Prod.fst =
      if k ∈ entries.map Prod.fst then entries.map Prod.fst
      else entries.map Prod.fst ++ [k] := by
  induction entries with
  | nil => simp [insert]
  | cons e rest ih =>
    obtain ⟨k', v'⟩ := e
    by_cases h : k' = k
    · simp [insert, h]
    · by_cases hr : k ∈ rest.map Prod.fst
      · rw [insert, if_neg h, List.map_cons, ih, if_pos hr, if_pos (by simp [hr])]; rfl
      · have h' : k ∉ ((k', v') :: rest).map Prod.fst := by simp [Ne.symm h, List.mem_map] at *; exact hr
        rw [insert, if_neg h, List.map_cons, ih, if_neg hr, if_neg h']; rfl

end ShellExpr.Assoc
