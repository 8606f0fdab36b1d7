import ShellExpr.Eval.Place
import ShellExpr.Host.Tables
import ShellExpr.Proofs.Value.Renaming

/-!
# Operations on renumbered values

Operators, comparisons and access compare allocations and hand them on, and look no further. So
operands with their allocations renumbered give results with their allocations renumbered, as long
as different ones keep different numbers.

* `binary_rename`, `compareValues_rename`, `subscript_rename`: the operations.
* `Host.Commutes`: the callables of a host do not look at the numbers either.
* `Tables.host_commutes`: those of the tables do not.
-/

namespace ShellExpr

open Assoc

open Value

variable {ρ : Nat → Nat}

/-! ### Operators -/

/-- Results without allocations do not change. -/
theorem map_rename_map {ε α : Type} (f : α → Value) (hf : ∀ a, (f a).handles = [])
    (r : Except ε α) : (r.map f).map (Value.rename ρ) = r.map f := by
  cases r with
  | error e => rfl
  | ok a => exact congrArg Except.ok (rename_of_fixes _ (by simp [hf a]))

theorem constant_rename (h : Handle) (tok : Token) :
    Literal.constant (h.rename ρ) tok = (Literal.constant h tok).map (Value.rename ρ) := by
  unfold Literal.constant
  split
  case h_12 => exact (map_rename_map _ (fun _ => rfl) _).symm
  all_goals first
    | rfl
    | (cases Literal.integer tok.kind tok.text <;> rfl)
    | (cases Literal.float tok.text <;> rfl)

theorem unary_rename (op : UnaryOp) (v : Value) :
    unary op (v.rename ρ) = (unary op v).map (Value.rename ρ) := by
  have hneg : ∀ n : Option Int64, Arithmetic.checked "negation" n =
      (Arithmetic.checked "negation" n).map (Value.rename ρ) := by
    intro n
    cases n <;> rfl
  cases op with
  | not => exact congrArg (fun b : Bool => Except.ok (Value.bool !b)) (isTruthy_rename v)
  | neg =>
    cases v with
    | int n => exact hneg _
    | _ => rfl
  | bitNot => cases v <;> rfl

namespace Arithmetic

@[simp] theorem mismatch_rename (op : BinaryOp) (l r : Value) :
    mismatch op (l.rename ρ) (r.rename ρ) = mismatch op l r := by
  simp [mismatch]

theorem checked_rename (operation : String) (n : Option Int64) :
    (checked operation n).map (Value.rename ρ) = checked operation n := by
  cases n <;> rfl

theorem onInts?_rename (a b : Int64) (op : BinaryOp) :
    (onInts? a b op).map (Except.map (Value.rename ρ)) = onInts? a b op := by
  cases op
  case pow =>
    refine congrArg some ?_
    unfold power
    split
    · rfl
    · exact checked_rename _ _
  case shiftLeft =>
    refine congrArg some ?_
    unfold shiftLeft
    split
    · rfl
    · exact checked_rename _ _
  case shiftRight =>
    refine congrArg some ?_
    unfold shiftRight
    split <;> rfl
  all_goals first
    | rfl
    | exact congrArg some (checked_rename _ _)

theorem onNumbers?_rename (a b : Number) (op : BinaryOp) :
    (onNumbers? a b op).map (Except.map (Value.rename ρ)) = onNumbers? a b op := by
  unfold onNumbers?
  split
  · rfl
  split
  · rfl
  split
  · exact onInts?_rename _ _ _
  · cases onDoubles? a.toDouble b.toDouble op <;> rfl

theorem getD_onNumbers?_rename (a b : Number) (op : BinaryOp) (f : Fault) :
    ((onNumbers? a b op).getD (.error f)).map (Value.rename ρ) =
      (onNumbers? a b op).getD (.error f) := by
  have h := onNumbers?_rename (ρ := ρ) a b op
  cases hr : onNumbers? a b op with
  | none => rfl
  | some r =>
    rw [hr] at h
    exact Option.some.inj h

/-- Copies of renumbered elements are renumbered copies. -/
theorem sequence_rename (size : Nat) (xs : List Value) (n : Nat) :
    Repetition.sequence size (xs.map (Value.rename ρ)) n =
      (Repetition.sequence size xs n).map (List.map (Value.rename ρ)) := by
  unfold Repetition.sequence
  split
  · rfl
  split
  · rfl
  · simp [Except.map]

theorem repetition_rename (h : Handle) (n : Int64) (v : Value) :
    Repetition.value? (h.rename ρ) n (v.rename ρ) =
      (Repetition.value? h n v).map (Except.map (Value.rename ρ)) := by
  cases v with
  | str _ s =>
    simp only [Value.rename, Repetition.value?]
    cases Repetition.sequence s.utf8ByteSize s.toList (Repetition.copies n) <;> rfl
  | list _ xs =>
    simp only [Value.rename, Repetition.value?, renameAll_eq, List.length_map, sequence_rename]
    cases Repetition.sequence xs.length xs (Repetition.copies n) <;>
      simp [Except.map, Value.rename]
  | tuple _ xs =>
    simp only [Value.rename, Repetition.value?, renameAll_eq, List.length_map, sequence_rename]
    cases Repetition.sequence xs.length xs (Repetition.copies n) <;>
      simp [Except.map, Value.rename]
  | _ => rfl

theorem getD_repetition_rename (h : Handle) (n : Int64) (v : Value) (f : Fault) :
    (Repetition.value? (h.rename ρ) n (v.rename ρ)).getD (.error f) =
      ((Repetition.value? h n v).getD (.error f)).map (Value.rename ρ) := by
  rw [repetition_rename]
  cases Repetition.value? h n v <;> rfl

theorem onSequences_rename (h : Handle) (op : BinaryOp) (l r : Value) :
    onSequences (h.rename ρ) op (l.rename ρ) (r.rename ρ) =
      (onSequences h op l r).map (Value.rename ρ) := by
  have hm := mismatch_rename (ρ := ρ) op l r
  generalize hx : onSequences h op l r = x
  unfold onSequences at hx
  split at hx <;> subst hx
  · simp only [Value.rename, onSequences] at hm ⊢
    split <;> simp [Except.map, hm, Value.rename]
  · simp only [Value.rename, onSequences, renameAll_eq] at hm ⊢
    split <;> simp [Except.map, hm, Value.rename]
  · simp only [Value.rename, onSequences, renameAll_eq] at hm ⊢
    split <;> simp [Except.map, hm, Value.rename]
  · rename_i n
    have heq : onSequences (h.rename ρ) op (l.rename ρ) (.int n) = if op = .mul then
        (Repetition.value? (h.rename ρ) n (l.rename ρ)).getD (.error (mismatch op l (.int n)))
        else .error (mismatch op l (.int n)) := by
      rw [← hm]
      cases l <;> rfl
    rw [Value.rename, heq]
    split
    · exact getD_repetition_rename _ _ _ _
    · rfl
  · rename_i n hr
    have heq : onSequences (h.rename ρ) op (.int n) (r.rename ρ) = if op = .mul then
        (Repetition.value? (h.rename ρ) n (r.rename ρ)).getD (.error (mismatch op (.int n) r))
        else .error (mismatch op (.int n) r) := by
      rw [← hm]
      cases r with
      | int m => exact (hr m rfl).elim
      | _ => rfl
    rw [Value.rename, heq]
    split
    · exact getD_repetition_rename _ _ _ _
    · rfl
  · rename_i hl hr hstr hlist htuple
    -- what is no integer or no two sequences of a kind is none after the renaming either
    have hl' : ∀ n, l.rename ρ = .int n → False := by
      intro n hn
      cases l <;> cases hn
      exact hl n rfl
    have hr' : ∀ n, r.rename ρ = .int n → False := by
      intro n hn
      cases r <;> cases hn
      exact hr n rfl
    have hstr' : ∀ h a k b, l.rename ρ = .str h a → r.rename ρ = .str k b → False := by
      intro h a k b ha hb
      cases l <;> cases ha
      cases r <;> cases hb
      exact hstr _ _ _ _ rfl rfl
    have hlist' : ∀ h a k b, l.rename ρ = .list h a → r.rename ρ = .list k b → False := by
      intro h a k b ha hb
      cases l <;> cases ha
      cases r <;> cases hb
      exact hlist _ _ _ _ rfl rfl
    have htuple' : ∀ h a k b, l.rename ρ = .tuple h a → r.rename ρ = .tuple k b → False := by
      intro h a k b ha hb
      cases l <;> cases ha
      cases r <;> cases hb
      exact htuple _ _ _ _ rfl rfl
    simp only [onSequences, hm]
    rfl

end Arithmetic

open Arithmetic in
theorem binary_rename (h : Handle) (op : BinaryOp) (l r : Value) :
    binary (h.rename ρ) op (l.rename ρ) (r.rename ρ) = (binary h op l r).map (Value.rename ρ) := by
  generalize hx : binary h op l r = x
  unfold binary at hx
  split at hx
  · subst hx
    simp only [binary, isTruthy_rename]
    split <;> rfl
  · subst hx
    simp only [binary, isTruthy_rename]
    split <;> rfl
  · subst hx
    simp only [binary, Value.rename, *]
    split
    · rfl
    · exact (getD_onNumbers?_rename _ _ _ _).symm
  · rename_i hand hor hbool
    subst hx
    have hbool' : ∀ a b, l.rename ρ = .bool a → r.rename ρ = .bool b → False := by
      intro a b ha hb
      cases l <;> cases ha
      cases r <;> cases hb
      exact hbool _ _ rfl rfl
    simp only [binary, number?_rename]
    split
    · rw [mismatch_rename]
      exact (getD_onNumbers?_rename _ _ _ _).symm
    · exact onSequences_rename h op l r

/-! ### Comparison -/

namespace Value

theorem isSame_rename (hρ : Function.Injective ρ) (a b : Value) :
    (a.rename ρ).isSame (b.rename ρ) = a.isSame b := by
  -- only two values of one kind can be one
  cases a <;> cases b <;> first
    | rfl
    | exact Handle.decide_rename hρ _ _

mutual

theorem equalBy_rename {share : Handle → Handle → Bool} (hρ : Function.Injective ρ)
    (hs : ∀ h k, share (h.rename ρ) (k.rename ρ) = share h k) :
    (a b : Value) → equalBy share (a.rename ρ) (b.rename ρ) = equalBy share a b
  | list h xs, b => by
    cases b with
    | list k ys => simp only [rename, equalBy, hs, allEqualBy_rename hρ hs xs ys]
    | _ => rfl
  | tuple h xs, b => by
    cases b with
    | tuple k ys => simp only [rename, equalBy, hs, allEqualBy_rename hρ hs xs ys]
    | _ => rfl
  | dict h es, b => by
    cases b with
    | dict k fs =>
      have hl : ∀ es : List (Key × Value), (renameEntries ρ es).length = es.length := by
        simp [mapValues]
      simp only [rename, equalBy, hs, entriesEqualBy_rename hρ hs es fs, hl]
    | _ => rfl
  | str h s, b => by
    cases b with
    | str k t => simp only [rename, equalBy, hs]
    | _ => rfl
  | strArray h s, b => by
    cases b with
    | strArray k t => simp only [rename, equalBy, hs]
    | _ => rfl
  | assocArray h s, b => by
    cases b with
    | assocArray k t => simp only [rename, equalBy, hs]
    | _ => rfl
  | eggex h s, b => by
    cases b with
    | eggex k t => simp only [rename, equalBy, hs]
    | _ => rfl
  | func h s, b => by
    cases b with
    | func k t => exact Handle.decide_rename hρ h k
    | _ => rfl
  | object h s as, b => by
    cases b with
    | object k t bs => exact Handle.decide_rename hρ h k
    | _ => rfl
  | null, b => by cases b <;> rfl
  | bool _, b => by cases b <;> rfl
  | int _, b => by cases b <;> rfl
  | float _, b => by cases b <;> rfl
  | range _, b => by cases b <;> rfl
  | slice _, b => by cases b <;> rfl

theorem allEqualBy_rename {share : Handle → Handle → Bool} (hρ : Function.Injective ρ)
    (hs : ∀ h k, share (h.rename ρ) (k.rename ρ) = share h k) :
    (xs ys : List Value) →
      allEqualBy share (renameAll ρ xs) (renameAll ρ ys) = allEqualBy share xs ys
  | [], [] => rfl
  | [], _ :: _ => rfl
  | _ :: _, [] => rfl
  | x :: xs, y :: ys => by
    simp only [renameAll, allEqualBy, equalBy_rename hρ hs x y, allEqualBy_rename hρ hs xs ys]

theorem entriesEqualBy_rename {share : Handle → Handle → Bool} (hρ : Function.Injective ρ)
    (hs : ∀ h k, share (h.rename ρ) (k.rename ρ) = share h k) :
    (es fs : List (Key × Value)) →
      entriesEqualBy share (renameEntries ρ es) (renameEntries ρ fs) = entriesEqualBy share es fs
  | [], _ => rfl
  | (k, v) :: rest, fs => by
    have hv := fun w => equalBy_rename hρ hs v w
    simp only [renameEntries, entriesEqualBy, entriesEqualBy_rename hρ hs rest fs]
    simp only [renameEntries_eq, get?_mapValues]
    cases get? k fs with
    | none => rfl
    | some w => exact congrArg (· && entriesEqualBy share rest fs) (hv w)

end

theorem equal_rename (hρ : Function.Injective ρ) (a b : Value) :
    (a.rename ρ).equal (b.rename ρ) = a.equal b :=
  equalBy_rename hρ (fun h k => by simp [Handle.rename_inj hρ]) a b

end Value

mutual

theorem order_rename (hρ : Function.Injective ρ) (op : CompareOp) : (a b : Value) →
    order op (a.rename ρ) (b.rename ρ) = order op a b
  | list h xs, b => by
    cases b with
    | list k ys => simp only [Value.rename, order, orderItems_rename hρ op xs ys]
    | _ => rfl
  | tuple h xs, b => by
    cases b with
    | tuple k ys => simp only [Value.rename, order, orderItems_rename hρ op xs ys]
    | _ => rfl
  | str .., b => by cases b <;> rfl
  | strArray .., b => by cases b <;> rfl
  | assocArray .., b => by cases b <;> rfl
  | dict .., b => by cases b <;> rfl
  | func .., b => by cases b <;> rfl
  | eggex .., b => by cases b <;> rfl
  | object .., b => by cases b <;> rfl
  | null, b => by cases b <;> rfl
  | .bool _, b => by cases b <;> rfl
  | int _, b => by cases b <;> rfl
  | float _, b => by cases b <;> rfl
  | range _, b => by cases b <;> rfl
  | slice _, b => by cases b <;> rfl

theorem orderItems_rename (hρ : Function.Injective ρ) (op : CompareOp) : (xs ys : List Value) →
    orderItems op (renameAll ρ xs) (renameAll ρ ys) = orderItems op xs ys
  | [], [] => rfl
  | [], _ :: _ => rfl
  | _ :: _, [] => rfl
  | x :: xs, y :: ys => by
    simp only [renameAll, orderItems, equal_rename hρ, order_rename hρ op x y,
      orderItems_rename hρ op xs ys]

end

theorem contains_rename (hρ : Function.Injective ρ) (container item : Value) :
    contains (container.rename ρ) (item.rename ρ) = contains container item := by
  have hany : ∀ xs : List Value, (renameAll ρ xs).any (fun x => x.equal (item.rename ρ)) =
      xs.any fun x => x.equal item := by
    intro xs
    simp [List.any_map, Function.comp_def, equal_rename hρ]
  cases container with
  | str _ s => cases item <;> rfl
  | list h xs => simp only [Value.rename, contains, hany]
  | tuple h xs => simp only [Value.rename, contains, hany]
  | dict h es =>
    simp only [Value.rename, contains, ofValue?_rename, typeName_rename, renameEntries_eq,
      contains_mapValues]
  | range r => simp only [Value.rename, contains, number?_rename]
  | strArray h slots => simp only [Value.rename, contains, str?_rename]
  | assocArray h es => simp only [Value.rename, contains, str?_rename]
  | _ => rfl

theorem approxEqual_rename (l r : Value) :
    approxEqual (l.rename ρ) (r.rename ρ) = approxEqual l r := by
  cases l with
  | str h s => cases r <;> rfl
  | _ => rfl

/-- A comparison has the same answer for renumbered operands, identity included. -/
theorem compareValues_rename (hρ : Function.Injective ρ) (op : CompareOp) (l r : Value) :
    compareValues op (l.rename ρ) (r.rename ρ) = compareValues op l r := by
  cases op <;> simp only [compareValues, equal_rename hρ, isSame_rename hρ, contains_rename hρ,
    approxEqual_rename, order_rename hρ]

/-! ### Access -/

namespace Access

theorem index_rename (container v : Value) :
    index (container.rename ρ) (v.rename ρ) = index container v := by
  have ht := typeName_rename (ρ := ρ) container
  cases v <;> simp only [Value.rename, index, ht] <;> rfl

theorem slot_rename (h : Handle) (s : Option String) :
    (slot h s).rename ρ = slot (h.rename ρ) s := by
  cases s <;> rfl

theorem element_map {α β : Type} (f : α → β) (xs : List α) (i : Int) :
    element (xs.map f) i = (element xs i).map f := by
  simp only [element, List.length_map, List.getElem?_map]
  generalize (if i < 0 then i + (xs.length : Int) else i) = j
  by_cases hj : j < 0
  · simp only [hj, if_true]
    rfl
  · simp only [hj, if_false]
    cases xs[j.toNat]? <;> rfl

theorem select_map {α β : Type} (f : α → β) (s : Slice) (xs : List α) :
    s.select (xs.map f) = (s.select xs).map f := by
  simp only [Slice.select, List.length_map, List.map_drop, List.map_take]

/-- An element or piece of renumbered elements. -/
theorem sequence_rename {α β : Type} (container v : Value) (xs : List α) (f : α → β)
    (one : α → Value) (many : List α → Value) (one' : β → Value) (many' : List β → Value)
    (h1 : ∀ x, one' (f x) = (one x).rename ρ)
    (h2 : ∀ ys, many' (ys.map f) = (many ys).rename ρ) :
    sequence (container.rename ρ) (v.rename ρ) (xs.map f) one' many' =
      (sequence container v xs one many).map (Value.rename ρ) := by
  unfold sequence
  rw [index_rename]
  cases index container v with
  | error e => rfl
  | ok i =>
    cases i with
    | position i =>
      show (element (xs.map f) i).bind _ = _
      rw [element_map]
      cases hx : element xs i with
      | error e => simp [hx, bind, Except.bind, Except.map]
      | ok x => simp [hx, bind, Except.bind, Except.map, pure, Except.pure, h1]
    | piece s =>
      refine congrArg Except.ok ?_
      rw [select_map, h2]

end Access

theorem Access.entry_rename (v : Option Value) :
    entry (v.map (Value.rename ρ)) = (entry v).map (Value.rename ρ) := by
  cases v <;> rfl

open Access in
theorem subscript_rename (h : Handle) (obj v : Value) :
    subscript (h.rename ρ) (obj.rename ρ) (v.rename ρ) =
      (subscript h obj v).map (Value.rename ρ) := by
  cases obj with
  | dict k es =>
    simp only [Value.rename, renameEntries_eq, subscript, ofValue?_rename, typeName_rename,
      get?_mapValues]
    cases Key.ofValue? v with
    | none => rfl
    | some k => exact entry_rename _
  | assocArray k es =>
    cases v with
    | str _ key =>
      have he := entry_rename (ρ := ρ) ((get? key es).map (Value.str h))
      rw [Option.map_map] at he
      exact he
    | _ => rfl
  | list k xs =>
    have hs := Access.sequence_rename (.list k xs) v xs (Value.rename ρ) id (.list h) id
      (.list (h.rename ρ)) (fun x => rfl) (fun ys => by rw [Value.rename, renameAll_eq])
    simp only [Value.rename, renameAll_eq] at hs ⊢
    exact hs
  | tuple k xs =>
    have hs := Access.sequence_rename (.tuple k xs) v xs (Value.rename ρ) id (.tuple h) id
      (.tuple (h.rename ρ)) (fun x => rfl) (fun ys => by rw [Value.rename, renameAll_eq])
    simp only [Value.rename, renameAll_eq] at hs ⊢
    exact hs
  | strArray k slots =>
    have hs := Access.sequence_rename (.strArray k slots) v slots id (slot h) (.strArray h)
      (slot (h.rename ρ)) (.strArray (h.rename ρ)) (fun s => (slot_rename h s).symm)
      (fun ys => by rw [List.map_id]; rfl)
    rw [List.map_id] at hs
    exact hs
  | str k s =>
    have hs := Access.sequence_rename (ρ := ρ) (.str k s) v s.toList id
      (fun c => .str h (String.ofList [c])) (fun cs => .str h (.ofList cs))
      (fun c => .str (h.rename ρ) (String.ofList [c])) (fun cs => .str (h.rename ρ) (.ofList cs))
      (fun c => rfl) (fun cs => by rw [List.map_id]; rfl)
    rw [List.map_id] at hs
    exact hs
  | _ => rfl

theorem member_rename (obj : Value) (name : String) :
    member (obj.rename ρ) name = (member obj name).map (Value.rename ρ) := by
  cases obj with
  | object h type attrs =>
    simp only [Value.rename, member, renameAttrs_eq, get?_mapValues]
    cases get? name attrs <;> rfl
  | _ => rfl

/-! ### Steps without results on the heap -/

namespace Eval

@[simp] theorem rangeOf_rename (lower upper : Value) (span : Span) :
    rangeOf (lower.rename ρ) (upper.rename ρ) span = rangeOf lower upper span := by
  have ht := typeName_rename (ρ := ρ) upper
  cases lower with
  | int a => cases upper <;> rfl
  | _ => exact congrArg (fun t => fail ((Fault.mismatch (.operands ":" _ t)).near span)) ht

@[simp] theorem sliceBound_rename (span : Span) (v : Value) :
    sliceBound span (v.rename ρ) = sliceBound span v := by
  cases v <;> rfl

@[simp] theorem keyOf_rename (key : Value) (span : Span) :
    keyOf (key.rename ρ) span = keyOf key span := by
  simp [keyOf, ofValue?_rename]

@[simp] theorem implicitValue_rename (key : Value) (span : Span) :
    implicitValue (key.rename ρ) span = implicitValue key span := by
  cases key <;> rfl

theorem globMatch_rename (op : CompareOp) (opSpan : Span) (l r : Value) :
    globMatch op opSpan (l.rename ρ) (r.rename ρ) = globMatch op opSpan l r := by
  have ht := typeName_rename (ρ := ρ) r
  cases l with
  | str h text => cases r <;> rfl
  | _ => exact congrArg (fun t => fail ((Fault.mismatch (.operands op.symbol _ t)).near opSpan)) ht

theorem patternOf_rename (opSpan : Span) (r : Value) :
    patternOf opSpan (r.rename ρ) = patternOf opSpan r := by
  have ht := text_rename (ρ := ρ) r
  cases r with
  | str h s => rfl
  | eggex h e => rfl
  | _ => exact congrArg (fun s => fail ((Fault.invalidRegex s).placed opSpan)) ht

theorem regexMatch_rename (keepGroups : Bool) (opSpan : Span) (l r : Value) :
    regexMatch keepGroups opSpan (l.rename ρ) (r.rename ρ) =
      regexMatch keepGroups opSpan l r := by
  unfold regexMatch
  rw [patternOf_rename, text_rename, typeName_rename, typeName_rename]
  cases l <;> rfl

/-- A link of a comparison chain decides the same for renumbered operands. -/
theorem link_rename (hρ : Function.Injective ρ) (op : CompareOp) (opSpan : Span) (l r : Value) :
    link op opSpan (l.rename ρ) (r.rename ρ) = link op opSpan l r := by
  unfold link
  rw [globMatch_rename, approxEqual_rename, regexMatch_rename, regexMatch_rename,
    compareValues_rename hρ]

end Eval

/-! ### Arguments -/

/-- The arguments with other numbers for their allocations. -/
def Arguments.rename (ρ : Nat → Nat) (args : Arguments) : Arguments :=
  ⟨args.positional.map (Value.rename ρ), mapValues (Value.rename ρ) args.named⟩

/-- The place with other numbers for the allocations of its object and index. -/
def Place.rename (ρ : Nat → Nat) : Place → Place
  | named name => named name
  | item obj i => item (obj.rename ρ) (i.rename ρ)
  | attr obj name => attr (obj.rename ρ) name

namespace Eval

/-- The new elements of a spread array have handles below a proper one. -/
theorem spreadItems_rename {h : Handle} (hp : h.IsProper) (v : Value) :
    spreadItems (h.rename ρ) (v.rename ρ) = (spreadItems h v).map (List.map (Value.rename ρ)) := by
  cases v with
  | list _ xs => simp only [Value.rename, spreadItems, renameAll_eq, Except.map]
  | tuple _ xs => simp only [Value.rename, spreadItems, renameAll_eq, Except.map]
  | strArray _ slots =>
    refine congrArg Except.ok (List.mapIdx_eq_iff.mpr fun i => ?_)
    rw [List.getElem?_map, List.getElem?_mapIdx, Option.map_map]
    refine congrArg (Option.map · slots[i]?) (funext fun s => ?_)
    rw [Function.comp_apply, Access.slot_rename, Handle.rename_child hp]
  | range r =>
    refine congrArg Except.ok ?_
    rw [List.map_map]
    rfl
  | _ => rfl

theorem mergeEntries_rename (named : List (String × Value)) (es : List (Key × Value)) :
    mergeEntries (mapValues (Value.rename ρ) named) (mapValues (Value.rename ρ) es) =
      (mergeEntries named es).map (mapValues (Value.rename ρ)) := by
  induction es generalizing named with
  | nil => rfl
  | cons e rest ih =>
    obtain ⟨k, v⟩ := e
    cases k with
    | str name =>
      rw [mapValues_cons, mergeEntries, mergeEntries, ← mapValues_insert]
      exact ih _
    | _ => rfl

theorem mergeNamed_rename {h : Handle} (hp : h.IsProper) (named : List (String × Value))
    (v : Value) :
    mergeNamed (h.rename ρ) (mapValues (Value.rename ρ) named) (v.rename ρ) =
      (mergeNamed h named v).map (mapValues (Value.rename ρ)) := by
  cases v with
  | dict _ es =>
    simp only [Value.rename, renameEntries_eq, mergeNamed]
    exact mergeEntries_rename named es
  | assocArray _ es =>
    refine congrArg Except.ok ?_
    rw [mapValues_insertAll]
    refine congrArg (insertAll _) (List.mapIdx_eq_iff.mpr fun i => ?_)
    rw [mapValues, List.getElem?_map, List.getElem?_mapIdx, Option.map_map]
    refine congrArg (Option.map · es[i]?) (funext fun e => ?_)
    rw [Function.comp_apply, Value.rename, Handle.rename_child hp]
  | _ => rfl

end Eval

/-! ### Hosts -/

/-- Whether the callables of a host give renumbered results for renumbered arguments. -/
def Host.Commutes (ρ : Nat → Nat) (host : Host) : Prop :=
  ∀ (h : Handle) (name : String) (args : Arguments), h.IsProper →
    host.call (h.rename ρ) name (args.rename ρ) = (host.call h name args).map (Value.rename ρ)

/-- Whether the callables of a host tell allocations apart and otherwise do not look at them. Those
with numbers below a bound may be the host's own. -/
def Host.IsUniform (host : Host) (bound : Nat) : Prop :=
  ∀ ρ, Function.Injective ρ → (∀ n < bound, ρ n = n) → host.Commutes ρ

theorem Arguments.rename_id (args : Arguments) : args.rename id = args := by
  obtain ⟨ps, ns⟩ := args
  simp [Arguments.rename, mapValues, Value.rename_id]

/-- Any host does if the numbers stay. -/
theorem Host.commutes_id (host : Host) : host.Commutes id := by
  intro h name args _
  rw [h.rename_id, args.rename_id, Value.rename_id]
  cases host.call h name args <;> rfl

theorem Callables.dictOf_rename (h : Handle) (named : List (String × Value)) :
    (dictOf h named).rename ρ = dictOf (h.rename ρ) (mapValues (Value.rename ρ) named) := by
  simp [dictOf, Value.rename, mapValues]

theorem Callables.message_rename (args : Arguments) : message (args.rename ρ) = message args := by
  obtain ⟨ps, ns⟩ := args
  cases ps with
  | nil => rfl
  | cons p rest => simp [message, Arguments.rename]

/-- The callables of the tables do not look at allocations at all. -/
theorem Tables.host_commutes (t : Tables) (ρ : Nat → Nat) : t.host.Commutes ρ := by
  intro h name args hp
  show Callables.call _ _ _ = (Callables.call _ _ _).map _
  unfold Callables.call
  rw [Callables.message_rename]
  split
  · simp [Except.map, Value.rename, Arguments.rename]
  · simp [Except.map, Callables.dictOf_rename, Arguments.rename]
  · simp [Except.map, Value.rename, Callables.dictOf_rename, Handle.rename_child hp,
      Arguments.rename]
  · cases hps : args.positional <;> simp [Except.map, Arguments.rename, hps, Value.rename]
  · rfl
  · rfl
  · rfl
  · rfl

theorem Tables.host_isUniform (t : Tables) (bound : Nat) : t.host.IsUniform bound :=
  fun ρ _ _ => t.host_commutes ρ

end ShellExpr
