import Mathlib.Data.List.Forall2
import Mathlib.Data.List.Induction
import Mathlib.Data.List.Nodup
import Mathlib.Data.List.Perm.Subperm
import ShellExpr.Proofs.Basics

/-!
# Maps compared and built

A map keeps each key once, so two maps of one size in which every entry of the first has its
counterpart in the second are the same up to order. A map built from pairs has the keys of the
pairs in the order of their first occurrence, each with the value of its last pair.

* `Assoc.Distinct`: each key is there once.
* `Assoc.Matches`: two maps with the same keys and related values, in any order.
* `Assoc.Matches.symm`: entries that all have a counterpart leave none over on the other side.
* `Assoc.distinct_ofPairs`, `Assoc.keys_ofPairs`, `Assoc.get?_ofPairs`: the map of some pairs.
* `Assoc.insertAll_ofPairs`: pairs written to a map, at once or through another map.
-/

namespace ShellExpr

section Rows

variable {α β γ : Type} {R : α → β → Prop} {S : β → γ → Prop} {T : α → γ → Prop}
  {xs : List α} {ys : List β} {zs : List γ}

/-- Rows related element by element are related by what follows for elements of the two rows. -/
theorem forall₂_of_mem {R' : α → β → Prop} (h : List.Forall₂ R xs ys)
    (hR : ∀ x ∈ xs, ∀ y ∈ ys, R x y → R' x y) : List.Forall₂ R' xs ys := by
  rw [List.forall₂_iff_zip] at h ⊢
  refine ⟨h.1, fun {a b} hab => ?_⟩
  obtain ⟨ha, hb⟩ := List.of_mem_zip hab
  exact hR a ha b hb (h.2 hab)

theorem forall₂_trans (h : List.Forall₂ R xs ys) (h' : List.Forall₂ S ys zs)
    (hT : ∀ x ∈ xs, ∀ y ∈ ys, ∀ z ∈ zs, R x y → S y z → T x z) : List.Forall₂ T xs zs := by
  induction h generalizing zs with
  | nil =>
    cases h'
    exact .nil
  | cons hxy hrest ih =>
    cases h' with
    | cons hyz hrest' =>
      refine .cons (hT _ (by simp) _ (by simp) _ (by simp) hxy hyz) (ih hrest' ?_)
      exact fun x hx y hy z hz =>
        hT x (List.mem_cons_of_mem _ hx) y (List.mem_cons_of_mem _ hy) z (List.mem_cons_of_mem _ hz)

end Rows

namespace Assoc

variable {κ α β γ : Type} [DecidableEq κ] {k : κ} {v : α}

/-- Each key is there once. -/
def Distinct (entries : List (κ × α)) : Prop := (entries.map Prod.fst).Nodup

instance (entries : List (κ × α)) : Decidable (Distinct entries) :=
  inferInstanceAs (Decidable (entries.map Prod.fst).Nodup)

theorem get?_eq_some_iff {entries : List (κ × α)} (hd : Distinct entries) :
    get? k entries = some v ↔ (k, v) ∈ entries := by
  refine ⟨mem_of_get?, fun hm => ?_⟩
  induction entries with
  | nil => cases hm
  | cons e rest ih =>
    obtain ⟨k', v'⟩ := e
    obtain ⟨hnew, hrest⟩ := List.nodup_cons.mp hd
    rcases List.mem_cons.mp hm with he | hm
    · obtain ⟨rfl, rfl⟩ := Prod.mk.inj he
      exact if_pos rfl
    · have hk : k ∈ rest.map Prod.fst := List.mem_map_of_mem hm
      have hne : k' ≠ k := fun he => hnew (he ▸ hk)
      rw [get?, if_neg hne]
      exact ih hrest hm

theorem get?_of_mem {entries : List (κ × α)} (hd : Distinct entries) {e : κ × α}
    (he : e ∈ entries) : get? e.1 entries = some e.2 := (get?_eq_some_iff hd).mpr he

theorem contains_iff {entries : List (κ × α)} :
    contains k entries = true ↔ k ∈ entries.map Prod.fst := by
  unfold contains
  refine ⟨fun h => ?_, fun h => ?_⟩
  · obtain ⟨v, hv⟩ := Option.isSome_iff_exists.mp h
    exact List.mem_map_of_mem (mem_of_get? hv)
  · by_contra hnone
    exact not_mem_keys_of_get?_eq_none (Option.not_isSome_iff_eq_none.mp hnone) h

/-! ### Maps compared -/

/-- Two maps of one size; each entry of the first has one with its key and a related value in the
second. -/
structure Matches (R : α → β → Prop) (as : List (κ × α)) (bs : List (κ × β)) : Prop where
  length_eq : as.length = bs.length
  related : ∀ e ∈ as, ∃ w, get? e.1 bs = some w ∧ R e.2 w

namespace Matches

variable {R : α → β → Prop} {S : β → γ → Prop} {as : List (κ × α)} {bs : List (κ × β)}
  {cs : List (κ × γ)}

theorem imp {R' : α → β → Prop} (h : Matches R as bs)
    (hR : ∀ e ∈ as, ∀ f ∈ bs, R e.2 f.2 → R' e.2 f.2) : Matches R' as bs where
  length_eq := h.length_eq
  related e he := by
    obtain ⟨w, hw, hr⟩ := h.related e he
    exact ⟨w, hw, hR e he (e.1, w) (mem_of_get? hw) hr⟩

/-- A map with the entries of another, in any order. -/
theorem of_perm {R : α → α → Prop} {as bs : List (κ × α)} (hp : as.Perm bs) (hd : Distinct as)
    (hR : ∀ e ∈ as, R e.2 e.2) : Matches R as bs where
  length_eq := hp.length_eq
  related e he :=
    ⟨e.2, get?_of_mem ((hp.map Prod.fst).nodup_iff.mp hd) (hp.mem_iff.mp he), hR e he⟩

theorem trans {T : α → γ → Prop} (h : Matches R as bs) (h' : Matches S bs cs)
    (hT : ∀ e ∈ as, ∀ f ∈ bs, ∀ g ∈ cs, R e.2 f.2 → S f.2 g.2 → T e.2 g.2) :
    Matches T as cs where
  length_eq := h.length_eq.trans h'.length_eq
  related e he := by
    obtain ⟨w, hw, hr⟩ := h.related e he
    have hf : (e.1, w) ∈ bs := mem_of_get? hw
    obtain ⟨u, hu, hs⟩ := h'.related (e.1, w) hf
    exact ⟨u, hu, hT e he (e.1, w) hf (e.1, u) (mem_of_get? hu) hr hs⟩

/-- The keys of the first map are those of the second, since they are as many. -/
theorem keys_perm (h : Matches R as bs) (hd : Distinct as) :
    (as.map Prod.fst).Perm (bs.map Prod.fst) := by
  have hsub : as.map Prod.fst ⊆ bs.map Prod.fst := by
    intro k hk
    obtain ⟨e, he, rfl⟩ := List.mem_map.mp hk
    obtain ⟨w, hw, -⟩ := h.related e he
    exact List.mem_map_of_mem (mem_of_get? hw)
  exact (List.Nodup.subperm hd hsub).perm_of_length_le (by simp [h.length_eq])

/-- Each entry of the second map is the counterpart of one of the first. -/
theorem symm (h : Matches R as bs) (ha : Distinct as) (hb : Distinct bs) :
    Matches (fun w v => R v w) bs as where
  length_eq := h.length_eq.symm
  related f hf := by
    have hk : f.1 ∈ as.map Prod.fst := (h.keys_perm ha).mem_iff.mpr (List.mem_map_of_mem hf)
    obtain ⟨e, he, hkey⟩ := List.mem_map.mp hk
    obtain ⟨w, hw, hr⟩ := h.related e he
    -- the counterpart of that entry is `f`, as there is no other with its key
    rw [hkey, get?_of_mem hb hf] at hw
    obtain rfl := Option.some.inj hw
    exact ⟨e.2, hkey ▸ get?_of_mem ha he, hr⟩

end Matches

/-! ### Maps built -/

theorem distinct_insert {entries : List (κ × α)} (h : Distinct entries) :
    Distinct (insert k v entries) := by
  unfold Distinct at h ⊢
  rw [keys_insert]
  split
  · exact h
  · rename_i hk
    exact List.nodup_append.mpr ⟨h, List.nodup_singleton k, by
      intro a ha b hb
      rw [List.mem_singleton.mp hb]
      exact fun he => hk (he ▸ ha)⟩

theorem ofPairs_append (pairs : List (κ × α)) (p : κ × α) :
    ofPairs (pairs ++ [p]) = insert p.1 p.2 (ofPairs pairs) := by
  simp [ofPairs, insertAll]

theorem distinct_ofPairs (pairs : List (κ × α)) : Distinct (ofPairs pairs) := by
  induction pairs using List.reverseRecOn with
  | nil => exact List.nodup_nil
  | append_singleton pairs p ih =>
    rw [ofPairs_append]
    exact distinct_insert ih

/-- The keys stand in the order of their first occurrence. -/
theorem keys_ofPairs (pairs : List (κ × α)) :
    (ofPairs pairs).map Prod.fst = (pairs.map Prod.fst).eraseDups := by
  induction pairs using List.reverseRecOn with
  | nil => rfl
  | append_singleton pairs p ih =>
    rw [ofPairs_append, keys_insert, ih, List.map_append, List.eraseDups_append]
    simp only [List.mem_eraseDups]
    by_cases hk : p.1 ∈ pairs.map Prod.fst
    · simp [hk, List.removeAll]
    · simp [hk, List.removeAll, List.eraseDups_cons]

/-- A key has the value of the last pair with it. -/
theorem get?_ofPairs (k : κ) (pairs : List (κ × α)) :
    get? k (ofPairs pairs) = ((pairs.filter fun p => p.1 = k).getLast?).map Prod.snd := by
  induction pairs using List.reverseRecOn with
  | nil => rfl
  | append_singleton pairs p ih =>
    rw [ofPairs_append, get?_insert, ih, List.filter_append, List.getLast?_append]
    by_cases hk : p.1 = k <;> simp [hk]

/-! ### Maps written to maps -/

theorem insert_insert_self (k : κ) (v w : α) (entries : List (κ × α)) :
    insert k v (insert k w entries) = insert k v entries := by
  induction entries with
  | nil => simp [insert]
  | cons e rest ih =>
    by_cases h : e.1 = k
    · simp [insert, h]
    · simp [insert, h, ih]

/-- A key that has its place keeps it, whatever is written to others before or after. -/
theorem insert_comm_of_mem {k k' : κ} (hne : k ≠ k') (v w : α) {entries : List (κ × α)}
    (hk : k ∈ entries.map Prod.fst) :
    insert k v (insert k' w entries) = insert k' w (insert k v entries) := by
  induction entries with
  | nil => cases hk
  | cons e rest ih =>
    obtain ⟨a, b⟩ := e
    by_cases ha : a = k
    · subst ha
      simp [insert, hne]
    · have hrest : k ∈ rest.map Prod.fst := by simpa [Ne.symm ha] using hk
      by_cases ha' : a = k'
      · simp [insert, ha', hne.symm]
      · simp [insert, ha, ha', ih hrest]

theorem insert_insertAll_of_mem {pairs entries : List (κ × α)} (v : α)
    (hnew : k ∉ pairs.map Prod.fst) (hk : k ∈ entries.map Prod.fst) :
    insert k v (insertAll entries pairs) = insertAll (insert k v entries) pairs := by
  induction pairs generalizing entries with
  | nil => rfl
  | cons p rest ih =>
    rw [List.map_cons, List.mem_cons, not_or] at hnew
    have hk' : k ∈ (insert p.1 p.2 entries).map Prod.fst := by
      rw [keys_insert]
      split
      · exact hk
      · exact List.mem_append_left _ hk
    show insert k v (insertAll (insert p.1 p.2 entries) rest) = _
    rw [ih hnew.2 hk', insert_comm_of_mem hnew.1 v p.2 hk]
    rfl

/-- A last write to a map shows when the map is written to another. -/
theorem insertAll_insert {pairs : List (κ × α)} (hd : Distinct pairs) (k : κ) (v : α)
    (entries : List (κ × α)) :
    insertAll entries (insert k v pairs) = insert k v (insertAll entries pairs) := by
  induction pairs generalizing entries with
  | nil => rfl
  | cons p rest ih =>
    obtain ⟨a, b⟩ := p
    obtain ⟨hnew, hrest⟩ := List.nodup_cons.mp hd
    rw [insert]
    split
    · rename_i ha
      subst ha
      have hmem : a ∈ (insert a b entries).map Prod.fst := by
        rw [keys_insert]
        split
        · assumption
        · simp
      show insertAll (insert a v entries) rest = insert a v (insertAll (insert a b entries) rest)
      rw [insert_insertAll_of_mem v hnew hmem, insert_insert_self]
    · exact ih hrest _

/-- **Pairs may be written to a map through another map.** Each key comes to stand where it was
first given, with the value given last. -/
theorem insertAll_ofPairs (entries pairs : List (κ × α)) :
    insertAll entries (ofPairs pairs) = insertAll entries pairs := by
  induction pairs using List.reverseRecOn with
  | nil => rfl
  | append_singleton pairs p ih =>
    have hlast : insertAll entries (pairs ++ [p]) = insert p.1 p.2 (insertAll entries pairs) := by
      simp [insertAll]
    rw [ofPairs_append, insertAll_insert (distinct_ofPairs pairs), ih, hlast]

/-- The map with other names for its keys. -/
def mapKeys {κ' : Type} (f : κ → κ') (entries : List (κ × α)) : List (κ' × α) :=
  entries.map fun e => (f e.1, e.2)

theorem mapKeys_insert {κ' : Type} [DecidableEq κ'] {f : κ → κ'} (hf : Function.Injective f)
    (k : κ) (v : α) (entries : List (κ × α)) :
    mapKeys f (insert k v entries) = insert (f k) v (mapKeys f entries) := by
  induction entries with
  | nil => rfl
  | cons e rest ih =>
    by_cases h : e.1 = k
    · simp [mapKeys, insert, h]
    · have hne : f e.1 ≠ f k := fun he => h (hf he)
      simpa [mapKeys, insert, h, hne] using ih

theorem mapKeys_ofPairs {κ' : Type} [DecidableEq κ'] {f : κ → κ'} (hf : Function.Injective f)
    (pairs : List (κ × α)) : mapKeys f (ofPairs pairs) = ofPairs (mapKeys f pairs) := by
  induction pairs using List.reverseRecOn with
  | nil => rfl
  | append_singleton pairs p ih =>
    have hlast : mapKeys f (pairs ++ [p]) = mapKeys f pairs ++ [(f p.1, p.2)] := by simp [mapKeys]
    rw [hlast, ofPairs_append, ofPairs_append, mapKeys_insert hf, ih]

end Assoc

end ShellExpr
