import ShellExpr.Proofs.Value.Keys

/-!
# Keys and back

A dict gives back its keys as values. What it gives is not always the value that the key was made
of, since an integral float has the key of an integer, but it has the same key and is equal.

* `Value.Reaches`: the values in a tuple, at any depth of its tuples.
* `Key.ofValue?_eq_none_iff`: a value has no key just if it reaches a value other than null, a truth
  value, a number or a string.
* `Key.round_trip`: **keys survive the round trip**.
-/

namespace ShellExpr

namespace Value

/-- Null, a truth value, a number or a string. -/
def IsBasic : Value → Prop
  | null | bool _ | int _ | float _ | str _ _ => True
  | _ => False

/-- The value is no tuple and reached from the other through tuples only. -/
inductive Reaches : Value → Value → Prop where
  | here {v : Value} (h : ∀ g xs, v ≠ tuple g xs) : Reaches v v
  | item {g : Handle} {xs : List Value} {x u : Value} (hx : x ∈ xs) (h : Reaches x u) :
    Reaches (tuple g xs) u

/-- A value other than a tuple reaches itself only. -/
theorem reaches_iff_eq {v u : Value} (h : ∀ g xs, v ≠ tuple g xs) : v.Reaches u ↔ u = v := by
  constructor
  · intro hr
    cases hr with
    | here => rfl
    | item => exact absurd rfl (h _ _)
  · rintro rfl
    exact .here h

theorem reaches_tuple {g : Handle} {xs : List Value} {u : Value} :
    (tuple g xs).Reaches u ↔ ∃ x ∈ xs, x.Reaches u := by
  constructor
  · intro hr
    cases hr with
    | here h => exact absurd rfl (h g xs)
    | item hx h => exact ⟨_, hx, h⟩
  · rintro ⟨x, hx, h⟩
    exact .item hx h

end Value

namespace Key

open Value

theorem ofValues?_eq_none_iff {vs : List Value} :
    ofValues? vs = none ↔ ∃ v ∈ vs, ofValue? v = none := by
  induction vs with
  | nil => simp [ofValues?]
  | cons v rest ih =>
    rw [ofValues?]
    cases hv : ofValue? v with
    | none => simp [hv]
    | some k => simp [hv, ih]

/-- **What keys are made of.** A value has no key just if it is, or reaches through tuples, a value
other than null, a truth value, a number or a string. -/
theorem ofValue?_eq_none_iff {v : Value} :
    ofValue? v = none ↔ ∃ u, v.Reaches u ∧ ¬ u.IsBasic := by
  induction v using induct_children with
  | step v ih =>
    cases v with
    | tuple g xs =>
      -- a tuple has no key just if one of its items has none
      rw [ofValue?, Option.map_eq_none_iff, ofValues?_eq_none_iff]
      constructor
      · rintro ⟨x, hx, hn⟩
        obtain ⟨u, hr, ha⟩ := (ih x hx).mp hn
        exact ⟨u, .item hx hr, ha⟩
      · rintro ⟨u, hr, ha⟩
        obtain ⟨x, hx, hr⟩ := reaches_tuple.mp hr
        exact ⟨x, hx, (ih x hx).mpr ⟨u, hr, ha⟩⟩
    | _ => simp [ofValue?, reaches_iff_eq, IsBasic]

/-- The value of a key is equal to the values that have the key, as far as they are equal to
themselves. -/
theorem equal_of_ofValue? {v : Value} {k : Key} (hk : ofValue? v = some k) (hn : v.Each NotNaN)
    (h : Handle) : (k.toValue h).equal v = true :=
  equal_of_alike ((eq_iff_alike hn (ofValue?_toValue h hk) hk).mp rfl).1

/-- **Keys survive the round trip.** The value of a key has this key and is equal to the value that
the key was made of, unless that has a NaN in it. All values have keys but those that reach a value
other than null, a truth value, a number or a string. -/
theorem round_trip (v : Value) :
    (∀ k, ofValue? v = some k → ∀ h, ofValue? (k.toValue h) = some k ∧
      (v.Each NotNaN → (k.toValue h).equal v = true)) ∧
    (ofValue? v = none ↔ ∃ u, v.Reaches u ∧ ¬ u.IsBasic) :=
  ⟨fun _ hk h => ⟨ofValue?_toValue h hk, fun hn => equal_of_ofValue? hk hn h⟩,
    ofValue?_eq_none_iff⟩

/-- A negative zero, the float after the integers and a fraction, in tuples. -/
theorem round_trip_floats :
    let v := Value.tuple ⟨[0]⟩ [.float (Double.ofParts true 0),
      .tuple ⟨[1]⟩ [.float (Double.ofParts false (1086 * 2 ^ 52)), .str ⟨[2]⟩ "x"],
      .float (Double.ofParts false (1023 * 2 ^ 52 + 2 ^ 51))]
    let k := Key.tuple [.int 0, .tuple [.int Int64.maxValue, .str "x"],
      .float (Double.ofParts false (1023 * 2 ^ 52 + 2 ^ 51))]
    ofValue? v = some k ∧ v.Each NotNaN ∧ ofValue? (k.toValue ⟨[3]⟩) = some k ∧
      (k.toValue ⟨[3]⟩).equal v = true := by
  intro v k
  have hfloat : ∀ x : Double, x.isNaN = false → (Value.float x).Each NotNaN := fun x hx =>
    .intro (fun _ h => Value.float.inj h ▸ hx) (by simp [children])
  have hstr : (Value.str ⟨[2]⟩ "x").Each NotNaN :=
    .intro (by simp [NotNaN]) (by simp [children])
  have htuple : ∀ g xs, (∀ x ∈ xs, x.Each NotNaN) → (Value.tuple g xs).Each NotNaN :=
    fun _ _ hxs => .intro (by simp [NotNaN]) hxs
  have hpair := htuple ⟨[1]⟩ [.float (Double.ofParts false (1086 * 2 ^ 52)), .str ⟨[2]⟩ "x"] <| by
    simpa using ⟨hfloat _ rfl, hstr⟩
  have hn : v.Each NotNaN := htuple _ _ <| by
    simpa using ⟨hfloat _ rfl, hpair, hfloat _ rfl⟩
  have hk : ofValue? v = some k := by decide +kernel
  obtain ⟨hback, hequal⟩ := (round_trip v).1 k hk ⟨[3]⟩
  exact ⟨hk, hn, hback, hequal hn⟩

end Key

end ShellExpr
