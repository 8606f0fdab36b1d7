import ShellExpr.Proofs.Value.Equality
import ShellExpr.Proofs.Value.Renaming

/-!
# Renumbered copies

A value at other allocations is an equal copy of the value: equality by content tells the two apart
only by the allocations of callables and host objects, so if these stay, it does not.

* `Value.identity?`: the allocation that is all that equality sees.
* `Value.alike_rename`: the copy is equal to the same values.
-/

namespace ShellExpr.Value

open Assoc

variable {ρ : Nat → Nat}

/-- The allocation of a callable or a host object, which it is compared by. -/
def identity? : Value → Option Handle
  | func h _ | object h _ _ => some h
  | _ => none

/-- Whether equality by content sees no allocation from a number on. -/
def KnownBelow (n : Nat) (v : Value) : Prop := v.Each fun u => ∀ h ∈ u.identity?, h.Below n

/-- Whether a value is compared by an allocation that stays as it is, if by any. -/
def Stands (ρ : Nat → Nat) (v : Value) : Prop := ∀ h ∈ v.identity?, h.rename ρ = h

theorem KnownBelow.stands {n : Nat} {v : Value} (h : v.KnownBelow n) (hρ : ∀ i < n, ρ i = i) :
    v.Each (Stands ρ) :=
  h.imp fun _ hu k hk => Handle.rename_of_below hρ (hu k hk)

mutual

/-- A copy is equal to the values that the value is equal to. -/
theorem alike_rename : (a b : Value) → b.Each (Stands ρ) → a.alike (b.rename ρ) = a.alike b
  | list h xs, b, hb => by
    cases b with
    | list k ys => exact allAlike_rename xs ys fun y hy => hb.child hy
    | _ => rfl
  | tuple h xs, b, hb => by
    cases b with
    | tuple k ys => exact allAlike_rename xs ys fun y hy => hb.child hy
    | _ => rfl
  | dict h es, b, hb => by
    cases b with
    | dict k fs =>
      have hlen : (renameEntries ρ fs).length = fs.length := by simp [mapValues]
      have hentries := entriesAlike_rename es fs fun e he => hb.child (List.mem_map_of_mem he)
      simp only [alike, rename, equalBy, hlen, hentries]
    | _ => rfl
  | func h name, b, hb => by
    cases b with
    | func k name' =>
      have hk : k.rename ρ = k := hb.here k rfl
      simp only [alike, rename, equalBy, hk]
    | _ => rfl
  | object h type attrs, b, hb => by
    cases b with
    | object k type' attrs' =>
      have hk : k.rename ρ = k := hb.here k rfl
      simp only [alike, rename, equalBy, hk]
    | _ => rfl
  | str .., b, _ => by cases b <;> rfl
  | strArray .., b, _ => by cases b <;> rfl
  | assocArray .., b, _ => by cases b <;> rfl
  | eggex .., b, _ => by cases b <;> rfl
  | null, b, _ => by cases b <;> rfl
  | bool _, b, _ => by cases b <;> rfl
  | int _, b, _ => by cases b <;> rfl
  | float _, b, _ => by cases b <;> rfl
  | range _, b, _ => by cases b <;> rfl
  | slice _, b, _ => by cases b <;> rfl

theorem allAlike_rename : (xs ys : List Value) → (∀ y ∈ ys, y.Each (Stands ρ)) →
    allEqualBy (fun _ _ => false) xs (renameAll ρ ys) = allEqualBy (fun _ _ => false) xs ys
  | [], ys, _ => by cases ys <;> rfl
  | _ :: _, [], _ => rfl
  | x :: xs, y :: ys, h => by
    rw [List.forall_mem_cons] at h
    exact congrArg₂ and (alike_rename x y h.1) (allAlike_rename xs ys h.2)

theorem entriesAlike_rename : (es fs : List (Key × Value)) → (∀ e ∈ fs, e.2.Each (Stands ρ)) →
    entriesEqualBy (fun _ _ => false) es (renameEntries ρ fs) =
      entriesEqualBy (fun _ _ => false) es fs
  | [], _, _ => rfl
  | (k, v) :: rest, fs, h => by
    have hrest := entriesAlike_rename rest fs h
    rw [entriesEqualBy, entriesEqualBy, hrest, renameEntries_eq, get?_mapValues]
    cases hw : get? k fs with
    | none => rfl
    | some w =>
      exact congrArg (· && entriesEqualBy _ rest fs) (alike_rename v w (h _ (mem_of_get? hw)))

end

end ShellExpr.Value
