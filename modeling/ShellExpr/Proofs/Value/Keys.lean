import ShellExpr.Operation.Access
import ShellExpr.Operation.Comparison
import ShellExpr.Proofs.Number.Integer
import ShellExpr.Proofs.Value.Equality
import ShellExpr.Proofs.Value.Renaming

/-!
# Keys and equality

A dict finds an entry by its key. Values with one key are equal, but equality identifies more than
keys do: a truth value equals a number, and an integer equals every float that is nearest to it. So
two values have one key just if they are equal and no such pair faces each other in them.

* `Value.agreesInKind`: truth values face truth values, integers the floats they are the keys of.
* `Key.eq_iff_alike`: **keys agree with equality** of what agrees in kind.
* `Key.nearest_of_small`: an integer up to `2 ^ 53` stands for the floats that equal it.
* `Key.contains_iff_equal`: a dict finds a value just if the value of some key equals it.
* `Value.key_eq_iff_equal`: the same of values as programs compare them.
-/

namespace ShellExpr

namespace Value

mutual

/-- Whether in two values, at any depth of their tuples, no truth value faces a number and no
integer a float that it is not the key of. -/
def agreesInKind : Value → Value → Bool
  | bool _, bool _ => true
  | bool _, _ | _, bool _ => false
  | int n, float x | float x, int n => x.toInt?.map Integer.clamp = some n
  | tuple _ xs, tuple _ ys => allAgreeInKind xs ys
  | _, _ => true

/-- The same for two rows of values. -/
def allAgreeInKind : List Value → List Value → Bool
  | x :: xs, y :: ys => agreesInKind x y && allAgreeInKind xs ys
  | _, _ => true

end

/-- Neither a truth value nor an integer that is too large to be a float exactly. -/
structure Faithful (v : Value) : Prop where
  notBool : ∀ p, v ≠ bool p
  small : ∀ n, v = int n → n.toInt.natAbs ≤ 2 ^ 53

/-- The type of a value, all numbers being of one. -/
def kind? (v : Value) : Option String := if v.number?.isSome then none else some v.typeName

theorem AlikeBy.kind?_eq {R : Value → Value → Prop} {a b : Value} (h : AlikeBy R a b) :
    a.kind? = b.kind? := by
  cases h with
  | numbers hm hn => simp [kind?, hm, hn]
  | plain ha hb =>
    cases a <;> cases ha <;> cases b <;> first | rfl | cases hb
  | _ => rfl

end Value

namespace Key

open Value

/-! ### Keys of floats -/

section Floats

variable {x y : Double} {n : Int64}

theorem ofDouble_eq_int_iff : ofDouble x = int n ↔
    x.toInt?.map Integer.clamp = some n ∧ (Double.ofInt n.toInt).equal x = true := by
  unfold ofDouble
  cases x.toInt? with
  | none => simp
  | some i =>
    dsimp only [Option.map_some]
    rw [Option.some.injEq]
    split
    next hnear =>
      rw [int.injEq]
      exact ⟨fun h => ⟨h, h ▸ hnear⟩, And.left⟩
    next hfar =>
      refine ⟨nofun, fun ⟨h, hnear⟩ => ?_⟩
      exact absurd (h ▸ hnear) hfar

theorem ofDouble_cases (x : Double) : (∃ n, ofDouble x = int n) ∨ ofDouble x = float x := by
  unfold ofDouble
  split
  · dsimp only
    split
    · exact .inl ⟨_, rfl⟩
    · exact .inr rfl
  · exact .inr rfl

theorem ofDouble_ne_bool {b : Bool} : ofDouble x ≠ bool b := by
  obtain ⟨n, hn⟩ | hx := ofDouble_cases x <;> simp [*]

theorem ofDouble_of_float (h : ofDouble x = float y) : x = y := by
  obtain ⟨n, hn⟩ | hx := ofDouble_cases x
  · cases hn.symm.trans h
  · exact float.inj (hx.symm.trans h)

theorem ofDouble_of_zero (h : x.magnitude = 0) : ofDouble x = int 0 := by
  have hnan : x.isNaN = false := by simp [Double.isNaN, h]
  have hrank : x.rank = 0 := by simp [Double.rank, h]
  refine ofDouble_eq_int_iff.mpr ⟨by rw [Double.toInt?_of_zero h]; rfl, ?_⟩
  exact Double.equal_iff.mpr ⟨rfl, hnan, hrank.symm⟩

/-- Floats have one key just if they are equal. -/
theorem ofDouble_inj (hy : y.isNaN = false) : ofDouble x = ofDouble y ↔ x.equal y = true := by
  refine ⟨fun h => ?_, fun h => ?_⟩
  · obtain ⟨n, hn⟩ | hx := ofDouble_cases x
    · obtain ⟨-, hx⟩ := ofDouble_eq_int_iff.mp hn
      obtain ⟨-, hy⟩ := ofDouble_eq_int_iff.mp (h.symm.trans hn)
      exact Double.equal_trans (Double.equal_comm _ _ ▸ hx) hy
    · obtain rfl := ofDouble_of_float (h.symm.trans hx)
      exact Double.equal_self.mpr hy
  · obtain rfl | ⟨hx, hy⟩ := Double.eq_or_zeros_of_equal h
    · rfl
    · rw [ofDouble_of_zero hx, ofDouble_of_zero hy]

end Floats

/-! ### Keys of tuples -/

theorem ofValues?_eq_some_iff {vs : List Value} {ks : List Key} :
    ofValues? vs = some ks ↔ List.Forall₂ (fun v k => ofValue? v = some k) vs ks := by
  induction vs generalizing ks with
  | nil => cases ks <;> simp [ofValues?]
  | cons v rest ih =>
    rw [ofValues?]
    cases hv : ofValue? v with
    | none => cases ks <;> simp [hv]
    | some k => cases ks <;> simp [hv, ih, and_comm]

/-! ### Keys agree with equality -/

section Agree

variable {a b : Value} {k l : Key}

/-- A key stands for a value of the kind that it is made of. -/
theorem kind?_toValue (h : Handle) (hk : ofValue? a = some k) : (k.toValue h).kind? = a.kind? := by
  cases a with
  | float x =>
    obtain rfl := Option.some.inj hk
    obtain ⟨n, hn⟩ | hx := ofDouble_cases x
    · rw [hn]
      rfl
    · rw [hx]
      rfl
  | tuple g xs =>
    obtain ⟨ks, -, rfl⟩ := Option.map_eq_some_iff.mp hk
    rfl
  | _ =>
    cases hk
    all_goals rfl

/-- Numbers have one key just if they are equal and of kinds that a key does not tell apart. -/
theorem number_eq_iff {m n : Number} (hm : a.number? = some m) (hn : b.number? = some n)
    (hb : b.NotNaN) (hk : ofValue? a = some k) (hl : ofValue? b = some l) :
    k = l ↔ m.equal n = true ∧ a.agreesInKind b = true := by
  cases a with
  | bool p =>
    cases hm
    cases hk
    cases b with
    | bool q =>
      cases hn
      cases hl
      cases p <;> cases q <;> decide
    | int _ | float _ =>
      cases hl
      simp [agreesInKind, ofDouble_ne_bool.symm]
    | _ => cases hn
  | int i =>
    cases hm
    cases hk
    cases b with
    | bool _ =>
      cases hl
      simp [agreesInKind]
    | int j =>
      cases hn
      cases hl
      simp [agreesInKind, Number.equal]
    | float y =>
      cases hn
      cases hl
      rw [eq_comm, ofDouble_eq_int_iff, and_comm]
      simp only [agreesInKind, Number.equal, Number.toDouble, decide_eq_true_eq]
    | _ => cases hn
  | float x =>
    cases hm
    cases hk
    cases b with
    | bool _ =>
      cases hl
      simp [agreesInKind, ofDouble_ne_bool]
    | int j =>
      cases hn
      cases hl
      rw [ofDouble_eq_int_iff, Double.equal_comm, and_comm]
      simp only [agreesInKind, Number.equal, Number.toDouble, decide_eq_true_eq]
    | float y =>
      cases hn
      cases hl
      rw [ofDouble_inj (hb y rfl)]
      simp [agreesInKind, Number.equal, Number.toDouble]
    | _ => cases hn
  | _ => cases hm

/-- Two rows have the same keys if what faces each other has. -/
theorem rows_eq_iff {xs ys : List Value} {ks ls : List Key} (hks : ofValues? xs = some ks)
    (hls : ofValues? ys = some ls)
    (h : ∀ x ∈ xs, ∀ y ∈ ys, ∀ k l, ofValue? x = some k → ofValue? y = some l →
      (k = l ↔ x.alike y = true ∧ x.agreesInKind y = true)) :
    ks = ls ↔
      List.Forall₂ (fun x y => x.alike y = true) xs ys ∧ allAgreeInKind xs ys = true := by
  rw [ofValues?_eq_some_iff] at hks hls
  induction hks generalizing ys ls with
  | nil => cases hls <;> simp [allAgreeInKind]
  | cons hk _ ih =>
    cases hls with
    | nil => simp
    | cons hl hls =>
      rw [List.cons.injEq, List.forall₂_cons, allAgreeInKind, Bool.and_eq_true,
        h _ (by simp) _ (by simp) _ _ hk hl,
        ih hls fun x hx y hy => h x (List.mem_cons_of_mem _ hx) y (List.mem_cons_of_mem _ hy)]
      exact and_and_and_comm

/-- **Keys agree with equality** of what agrees in kind. -/
theorem eq_iff_alike (hb : b.Each NotNaN) (hk : ofValue? a = some k) (hl : ofValue? b = some l) :
    k = l ↔ a.alike b = true ∧ a.agreesInKind b = true := by
  induction hb generalizing a k l with
  | @intro b here inside ih =>
    rw [alike_iff]
    by_cases hkind : a.kind? = b.kind?
    case neg =>
      -- values of two kinds are not alike, and no key stands for both
      refine iff_of_false (fun h => hkind ?_) fun h => hkind h.1.kind?_eq
      rw [← kind?_toValue ⟨[]⟩ hk, ← kind?_toValue ⟨[]⟩ hl, h]
    cases b with
    | null =>
      cases a <;> simp [kind?, number?, Value.typeName] at hkind
      cases hk
      cases hl
      exact iff_of_true rfl ⟨.plain rfl rfl, rfl⟩
    | str h t =>
      cases a <;> simp [kind?, number?, Value.typeName] at hkind
      cases hk
      cases hl
      rw [str.injEq, AlikeBy.str_iff]
      exact (and_iff_left rfl).symm
    | tuple h ys =>
      cases a <;> simp [kind?, number?, Value.typeName] at hkind
      case tuple g xs =>
      obtain ⟨ks, hks, rfl⟩ := Option.map_eq_some_iff.mp hk
      obtain ⟨ls, hls, rfl⟩ := Option.map_eq_some_iff.mp hl
      rw [tuple.injEq, AlikeBy.tuple_iff]
      exact rows_eq_iff hks hls fun x _ y hy k l hk hl => ih y hy hk hl
    | bool _ | int _ | float _ =>
      cases hm : a.number? with
      | none =>
        rw [kind?, hm] at hkind
        cases hkind
      | some m =>
        rw [AlikeBy.number_iff hm rfl]
        exact number_eq_iff hm rfl here hk hl
    | _ => cases hl

/-! ### Where equality is all -/

/-- An integer that its nearest float represents agrees with every float that it equals. -/
theorem nearest_of_small {n : Int64} {x : Double} (hn : n.toInt.natAbs ≤ 2 ^ 53)
    (h : (Double.ofInt n.toInt).equal x = true) : x.toInt?.map Integer.clamp = some n := by
  rw [← Double.toInt?_eq_of_equal h, Double.toInt?_ofInt hn, Option.map_some, Integer.clamp_toInt]

theorem allAgreeInKind_of_forall₂ {xs ys : List Value}
    (h : List.Forall₂ (fun x y => x.agreesInKind y = true) xs ys) :
    allAgreeInKind xs ys = true := by
  induction h with
  | nil => rfl
  | cons hxy _ ih => rw [allAgreeInKind, hxy, ih]; rfl

theorem agreesInKind_of_faithful (ha : a.Each Faithful) (hb : b.Each Faithful)
    (h : a.alike b = true) : a.agreesInKind b = true := by
  induction ha generalizing b with
  | @intro a here inside ih =>
    rw [alike_iff] at h
    cases h with
    | tuples hitems =>
      exact allAgreeInKind_of_forall₂
        (forall₂_of_mem hitems fun x hx y hy hxy => ih x hx (hb.child hy) hxy)
    | numbers hm hn heq =>
      cases a with
      | int n =>
        cases b with
        | int _ => rfl
        | float x =>
          cases hm
          cases hn
          exact decide_eq_true (nearest_of_small (here.small n rfl) heq)
        | bool p => exact absurd rfl (hb.here.notBool p)
        | _ => cases hn
      | float x =>
        cases b with
        | int n =>
          cases hm
          cases hn
          refine decide_eq_true (nearest_of_small (hb.here.small n rfl) ?_)
          exact Double.equal_comm _ _ ▸ heq
        | float _ => rfl
        | bool p => exact absurd rfl (hb.here.notBool p)
        | _ => cases hn
      | bool p => exact absurd rfl (here.notBool p)
      | _ => cases hm
    | plain hp hq =>
      cases a <;> cases hp <;> cases b <;> first | rfl | cases hq
    | _ => rfl

end Agree

/-! ### The value that a key stands for -/

mutual

/-- A key is the key of the value that it stands for. -/
theorem ofValue?_toValue (h : Handle) : ∀ {v : Value} {k : Key}, ofValue? v = some k →
    ofValue? (k.toValue h) = some k
  | .null, _, hk => by cases hk; rfl
  | .bool _, _, hk => by cases hk; rfl
  | .int _, _, hk => by cases hk; rfl
  | .str _ _, _, hk => by cases hk; rfl
  | .float x, _, hk => by
    obtain rfl := Option.some.inj hk
    obtain ⟨n, hn⟩ | hx := ofDouble_cases x
    · rw [hn]
      rfl
    · rw [hx]
      exact congrArg some hx
  | .tuple g xs, _, hk => by
    obtain ⟨ks, hks, rfl⟩ := Option.map_eq_some_iff.mp hk
    rw [toValue, ofValue?, ofValues?_toValues h 0 hks]
    rfl

theorem ofValues?_toValues (h : Handle) (i : Nat) : ∀ {vs : List Value} {ks : List Key},
    ofValues? vs = some ks → ofValues? (toValues h i ks) = some ks
  | [], _, hks => by cases hks; rfl
  | v :: vs, ks, hks => by
    rw [ofValues?_eq_some_iff] at hks
    cases hks with
    | cons hk hrest =>
      rw [toValues, ofValues?, ofValue?_toValue _ hk,
        ofValues?_toValues h (i + 1) (ofValues?_eq_some_iff.mpr hrest)]
      rfl

end

mutual

/-- Equality of a newly made value with one that has none of its allocations goes by content. -/
theorem equal_toValue (h : Handle) : ∀ (k : Key) (b : Value),
    (∀ g ∈ (k.toValue h).handles, g ∉ b.handles) → (k.toValue h).equal b = (k.toValue h).alike b
  | null, b, _ | bool _, b, _ | int _, b, _ | float _, b, _ => by cases b <;> rfl
  | str s, b, hnew => by
    cases b with
    | str g t =>
      have hne : h ≠ g := fun he => hnew h (by simp [toValue, handles]) (by simp [handles, he])
      simp [toValue, equal, alike, equalBy, hne]
    | _ => rfl
  | tuple ks, b, hnew => by
    cases b with
    | tuple g ys =>
      have hne : h ≠ g := fun he => hnew h (by simp [toValue, handles]) (by simp [handles, he])
      have hrow := allEqualBy_toValues h 0 ks ys fun f hf hf' =>
        hnew f (by simp [toValue, handles, hf]) (by simp [handles, hf'])
      simp [toValue, equal, alike, equalBy, hne, hrow]
    | _ => rfl

theorem allEqualBy_toValues (h : Handle) (i : Nat) : ∀ (ks : List Key) (ys : List Value),
    (∀ g ∈ handlesAll (toValues h i ks), g ∉ handlesAll ys) →
      allEqualBy (fun h k => h = k) (toValues h i ks) ys =
        allEqualBy (fun _ _ => false) (toValues h i ks) ys
  | [], ys, _ => by cases ys <;> rfl
  | k :: ks, [], _ => rfl
  | k :: ks, y :: ys, hnew => by
    have hhead := equal_toValue (h.child i) k y fun g hg hg' =>
      hnew g (by simp [toValues, handlesAll, hg]) (by simp [handlesAll, hg'])
    have hrest := allEqualBy_toValues h (i + 1) ks ys fun g hg hg' =>
      hnew g (by simp [toValues, handlesAll, hg]) (by simp [handlesAll, hg'])
    rw [toValues, allEqualBy, allEqualBy, hrest]
    exact congrArg (· && _) hhead

end

/-! ### Looking up -/

section Found

variable {a : Value} {k : Key} (d h : Handle) (es : List (Key × Value))

theorem contains_dict (hk : ofValue? a = some k) :
    contains (dict d es) a = .ok (Assoc.contains k es) := by
  rw [contains, hk]

theorem subscript_dict (hk : ofValue? a = some k) :
    subscript h (dict d es) a = Access.entry (Assoc.get? k es) := by
  rw [subscript, hk]

/-- A value is in a dict just if it has an entry there. -/
theorem contains_iff_subscript (hk : ofValue? a = some k) :
    contains (dict d es) a = .ok true ↔ ∃ v, subscript h (dict d es) a = .ok v := by
  rw [contains_dict d es hk, subscript_dict d h es hk, Except.ok.injEq, Assoc.contains]
  cases Assoc.get? k es <;> simp [Access.entry]

/-- **A dict finds an entry** just if the value of some key equals the one looked up and agrees with
it in kind. -/
theorem contains_iff_equal (hkeys : ∀ e ∈ es, ∃ v, ofValue? v = some e.1)
    (hnew : ∀ e ∈ es, ∀ g ∈ (e.1.toValue h).handles, g ∉ a.handles) (hn : a.Each NotNaN)
    (hk : ofValue? a = some k) :
    contains (dict d es) a = .ok true ↔
      ∃ e ∈ es, (e.1.toValue h).equal a = true ∧ (e.1.toValue h).agreesInKind a = true := by
  have hentry : ∀ e ∈ es, (e.1 = k ↔
      (e.1.toValue h).equal a = true ∧ (e.1.toValue h).agreesInKind a = true) := by
    intro e he
    obtain ⟨v, hv⟩ := hkeys e he
    rw [equal_toValue h e.1 a (hnew e he)]
    exact eq_iff_alike hn (ofValue?_toValue h hv) hk
  rw [contains_dict d es hk, Except.ok.injEq, Assoc.contains_iff, List.mem_map]
  exact exists_congr fun e => and_congr_right (hentry e)

end Found

end Key

namespace Value

/-- **Keys agree with equality** of values that agree in kind. Two values have one key just if they
are equal and agree in kind, as they do without truth values and large integers, and a dict finds a
value just if that holds for the value of one of its keys. -/
theorem key_eq_iff_equal {heap : Handle → Value} {a b : Value} {k l : Key}
    (ha : a.Each (KeptIn heap)) (hb : b.Each (KeptIn heap)) (hna : a.Each NotNaN)
    (hnb : b.Each NotNaN) (hk : Key.ofValue? a = some k) (hl : Key.ofValue? b = some l) :
    (k = l ↔ a.equal b = true ∧ a.agreesInKind b = true) ∧
      (a.Each Faithful → b.Each Faithful → (k = l ↔ a.equal b = true)) ∧
      ∀ (d h h' : Handle) (es : List (Key × Value)), (∀ e ∈ es, ∃ v, Key.ofValue? v = some e.1) →
        (∀ e ∈ es, ∀ g ∈ (e.1.toValue h).handles, g ∉ b.handles) →
        ∃ found, contains (dict d es) b = .ok found ∧
          (found = true ↔ ∃ v, subscript h' (dict d es) b = .ok v) ∧
          (found = true ↔ ∃ e ∈ es,
            (e.1.toValue h).equal b = true ∧ (e.1.toValue h).agreesInKind b = true) := by
  have hequal : k = l ↔ a.equal b = true ∧ a.agreesInKind b = true := by
    rw [equal_iff_alike ha hb hna]
    exact Key.eq_iff_alike hnb hk hl
  refine ⟨hequal, fun hfa hfb => ?_, fun d h h' es hkeys hnew => ?_⟩
  · rw [hequal]
    refine and_iff_left_of_imp fun he => ?_
    exact Key.agreesInKind_of_faithful hfa hfb ((equal_iff_alike ha hb hna).mp he)
  · have hok := Key.contains_dict d es hl
    refine ⟨_, hok, ?_, ?_⟩
    · rw [← Key.contains_iff_subscript d h' es hl, hok, Except.ok.injEq]
    · rw [← Key.contains_iff_equal d h es hkeys hnew hnb hl, hok, Except.ok.injEq]

/-- Tuples of one key, in which integers face floats. -/
theorem key_eq_iff_equal_tuples :
    let two := Double.ofParts false (1024 * 2 ^ 52)
    let a := tuple ⟨[0]⟩ [float Double.one, str ⟨[1]⟩ "x", tuple ⟨[2]⟩ [int 2]]
    let b := tuple ⟨[3]⟩ [int 1, str ⟨[1]⟩ "x", tuple ⟨[4]⟩ [float two]]
    let k := Key.tuple [.int 1, .str "x", .tuple [.int 2]]
    let es := [(Key.float Double.inventedNaN, null), (k, range ⟨0, 3⟩)]
    ∃ heap, a.Each (KeptIn heap) ∧ b.Each (KeptIn heap) ∧ a.Each NotNaN ∧ b.Each NotNaN ∧
      a.Each Faithful ∧ b.Each Faithful ∧ Key.ofValue? a = some k ∧ Key.ofValue? b = some k ∧
      a.equal b = true ∧ a.agreesInKind b = true ∧ contains (dict ⟨[5]⟩ es) b = .ok true ∧
      ∃ v, subscript ⟨[6]⟩ (dict ⟨[5]⟩ es) b = .ok v := by
  intro two a b k es
  let x := str ⟨[1]⟩ "x"
  let c := tuple ⟨[2]⟩ [int 2]
  let d := tuple ⟨[4]⟩ [float two]
  let heap : Handle → Value := fun h =>
    if h = ⟨[0]⟩ then a else if h = ⟨[1]⟩ then x else if h = ⟨[2]⟩ then c
    else if h = ⟨[3]⟩ then b else d
  let P : Value → Prop := fun v => v.KeptIn heap ∧ v.NotNaN ∧ v.Faithful
  have htuple : ∀ h xs, heap h = tuple h xs → (∀ v ∈ xs, v.Each P) → (tuple h xs).Each P := by
    intro h xs hh hxs
    refine .intro ⟨⟨trivial, by simpa [content?] using hh⟩, ?_, ⟨?_, ?_⟩⟩ hxs
    all_goals simp [NotNaN]
  have hstr : x.Each P := by
    refine .intro ⟨⟨trivial, by simp [content?, heap, x]⟩, ?_, ⟨?_, ?_⟩⟩ ?_
    all_goals simp [x, NotNaN, children]
  have hint : ∀ n : Int64, n.toInt.natAbs ≤ 2 ^ 53 → (int n).Each P := by
    intro n hn
    refine .intro ⟨⟨trivial, by simp [content?]⟩, ?_, ⟨?_, ?_⟩⟩ ?_
    all_goals simp [NotNaN, children, hn]
  have hfloat : ∀ y : Double, y.isNaN = false → (float y).Each P := by
    intro y hy
    refine .intro ⟨⟨trivial, by simp [content?]⟩, ?_, ⟨?_, ?_⟩⟩ ?_
    all_goals simp [NotNaN, children, hy]
  have hc : c.Each P := htuple _ _ rfl (by simpa using hint 2 (by decide))
  have hd : d.Each P := htuple _ _ rfl (by simpa using hfloat two (by decide))
  have ha : a.Each P :=
    htuple _ _ rfl (by simpa using ⟨hfloat Double.one (by decide), hstr, hc⟩)
  have hb : b.Each P := htuple _ _ rfl (by simpa using ⟨hint 1 (by decide), hstr, hd⟩)
  have hka : Key.ofValue? a = some k := by decide +kernel
  have hkb : Key.ofValue? b = some k := by decide +kernel
  obtain ⟨hequal, hfaithful, hfound⟩ := key_eq_iff_equal (ha.imp fun _ => And.left)
    (hb.imp fun _ => And.left) (ha.imp fun _ hv => hv.2.1) (hb.imp fun _ hv => hv.2.1) hka hkb
  have hkeys : ∀ e ∈ es, ∃ v, Key.ofValue? v = some e.1 := by
    simpa [es] using ⟨⟨float Double.inventedNaN, by decide +kernel⟩, a, hka⟩
  have hnew : ∀ e ∈ es, ∀ g ∈ (e.1.toValue ⟨[7]⟩).handles, g ∉ b.handles := by
    decide
  obtain ⟨found, hin, hsub, hmem⟩ := hfound ⟨[5]⟩ ⟨[7]⟩ ⟨[6]⟩ es hkeys hnew
  have hfaithful' := (hfaithful (ha.imp fun _ hv => hv.2.2) (hb.imp fun _ hv => hv.2.2)).mp rfl
  obtain rfl : found = true :=
    hmem.mpr ⟨(k, range ⟨0, 3⟩), by simp [es], by decide +kernel, by decide +kernel⟩
  exact ⟨heap, ha.imp fun _ => And.left, hb.imp fun _ => And.left, ha.imp fun _ hv => hv.2.1,
    hb.imp fun _ hv => hv.2.1, ha.imp fun _ hv => hv.2.2, hb.imp fun _ hv => hv.2.2, hka, hkb,
    hfaithful', (hequal.mp rfl).2, hin, hsub.mp rfl⟩

/-- Without agreement in kind equal values have different keys: `true` and `1`, and the float
`2 ^ 53` and the integer after it. -/
theorem equal_values_of_two_keys :
    let large := Double.ofParts false (1076 * 2 ^ 52)
    let d := dict ⟨[0]⟩ [(.bool true, null)]
    (bool true).equal (int 1) = true ∧ Key.ofValue? (bool true) ≠ Key.ofValue? (int 1) ∧
      contains d (int 1) = .ok false ∧ subscript ⟨[1]⟩ d (int 1) = .error (.exprEval .noEntry) ∧
      (int (2 ^ 53 + 1)).equal (float large) = true ∧
      Key.ofValue? (int (2 ^ 53 + 1)) ≠ Key.ofValue? (float large) :=
  ⟨rfl, by decide, rfl, rfl, by decide +kernel, by decide⟩

end Value

end ShellExpr
