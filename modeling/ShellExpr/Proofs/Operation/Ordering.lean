import Mathlib.Order.Compare
import ShellExpr.Operation.Comparison
import ShellExpr.Proofs.Value.Equality

/-!
# Ordering is lawful

Two sequences are ordered by their first unequal elements: equality skips what they have in common,
order decides what follows. The two fit together where equality is an equivalence. Then equal values
are ordered alike, of two values that can be ordered exactly one is less unless they are equal, and
order is transitive, whether or not other elements of the sequences can be ordered.

* `OrdersBy`: two values that can be ordered, one level deep.
* `order_swap`: the order from the other side.
* `order_eq_ok`: there is one, and it says equal just of equal values.
* `order_congr`: equal values are ordered alike.
* `order_trans`: order is transitive.
* `order_lawful`: **the ordering operators are lawful**.
-/

namespace ShellExpr

open Value

/-! ### Texts -/

theorem compareTexts_eq_compareLex (as bs : List Char) :
    compareTexts as bs = List.compareLex compare as bs := by
  induction as generalizing bs with
  | nil => cases bs <;> rfl
  | cons a as ih =>
    cases bs with
    | nil => rfl
    | cons b bs =>
      have hab : compare a b = if a < b then .lt else if a = b then .eq else .gt := rfl
      rw [compareTexts, ih, List.compareLex_cons_cons, hab]
      by_cases hlt : a < b
      · simp [hlt]
      by_cases heq : a = b
      · simp [heq]
      · have hgt : b < a := Std.lt_of_le_of_ne (Std.not_lt.mp hlt) (Ne.symm heq)
        simp [hlt, heq, hgt]

theorem compareTexts_swap (as bs : List Char) :
    compareTexts as bs = (compareTexts bs as).swap := by
  rw [compareTexts_eq_compareLex, compareTexts_eq_compareLex]
  exact Std.OrientedCmp.eq_swap

theorem compareTexts_eq_iff {as bs : List Char} : compareTexts as bs = .eq ↔ as = bs := by
  rw [compareTexts_eq_compareLex]
  exact Std.LawfulEqCmp.compare_eq_iff_eq

theorem compareTexts_trans {as bs cs : List Char} (h : compareTexts as bs = .lt)
    (h' : compareTexts bs cs = .lt) : compareTexts as cs = .lt := by
  rw [compareTexts_eq_compareLex] at h h' ⊢
  exact Std.TransCmp.lt_trans h h'

/-! ### One level of order -/

/-- Values that can be ordered: two texts, two sequences of one kind, or two numbers. -/
inductive OrdersBy (R : List Value → List Value → Option Ordering → Prop) :
    Value → Value → Option Ordering → Prop where
  | texts {h k : Handle} {s t : String} :
      OrdersBy R (str h s) (str k t) (some (compareTexts s.toList t.toList))
  | lists {h k : Handle} {xs ys : List Value} {r : Option Ordering} (hitems : R xs ys r) :
      OrdersBy R (list h xs) (list k ys) r
  | tuples {h k : Handle} {xs ys : List Value} {r : Option Ordering} (hitems : R xs ys r) :
      OrdersBy R (tuple h xs) (tuple k ys) r
  | numbers {a b : Value} {m n : Number} (hm : a.number? = some m) (hn : b.number? = some n) :
      OrdersBy R a b (m.compare? n)

section

variable {op op' : CompareOp} {a b c : Value} {r : Option Ordering} {xs ys zs : List Value}

theorem order_ok_iff : order op a b = .ok r ↔
    OrdersBy (fun xs ys r => orderItems op xs ys = .ok r) a b r := by
  constructor
  · intro h
    unfold order at h
    split at h
    · exact Except.ok.inj h ▸ .texts
    · exact .lists h
    · exact .tuples h
    · split at h
      · rename_i m n hm hn
        exact Except.ok.inj h ▸ .numbers hm hn
      · cases h
  · intro h
    cases h with
    | texts => simp [order]
    | lists hitems => simpa [order] using hitems
    | tuples hitems => simpa [order] using hitems
    | numbers hm hn =>
      cases a <;> cases hm <;> cases b <;> cases hn <;> simp [order, number?]

namespace OrdersBy

variable {R : List Value → List Value → Option Ordering → Prop}

theorem of_str {h : Handle} {s : String} (hl : OrdersBy R (str h s) b r) :
    ∃ k t, b = str k t ∧ r = some (compareTexts s.toList t.toList) := by
  cases hl with
  | texts => exact ⟨_, _, rfl, rfl⟩
  | numbers hm => cases hm

theorem of_list {h : Handle} (hl : OrdersBy R (list h xs) b r) :
    ∃ k ys, b = list k ys ∧ R xs ys r := by
  cases hl with
  | lists hitems => exact ⟨_, _, rfl, hitems⟩
  | numbers hm => cases hm

theorem of_tuple {h : Handle} (hl : OrdersBy R (tuple h xs) b r) :
    ∃ k ys, b = tuple k ys ∧ R xs ys r := by
  cases hl with
  | tuples hitems => exact ⟨_, _, rfl, hitems⟩
  | numbers hm => cases hm

theorem of_number {m : Number} (hl : OrdersBy R a b r) (hm : a.number? = some m) :
    ∃ n, b.number? = some n ∧ r = m.compare? n := by
  cases hl with
  | numbers hm' hn =>
    obtain rfl := Option.some.inj (hm.symm.trans hm')
    exact ⟨_, hn, rfl⟩
  | _ => cases hm

end OrdersBy

theorem orderItems_cons {x y : Value} : orderItems op (x :: xs) (y :: ys) =
    if x.equal y then orderItems op xs ys else order op x y := by
  rw [orderItems]

theorem orderItems_nil_nil : orderItems op [] [] = .ok (some .eq) := by rw [orderItems]

theorem orderItems_nil_cons {y : Value} : orderItems op [] (y :: ys) = .ok (some .lt) := by
  rw [orderItems]

theorem orderItems_cons_nil {x : Value} : orderItems op (x :: xs) [] = .ok (some .gt) := by
  rw [orderItems]

theorem Number.compare?_swap (m n : Number) :
    n.compare? m = (m.compare? n).map Ordering.swap := by
  have hdouble : ∀ x y : Double, y.compare? x = (x.compare? y).map Ordering.swap := by
    intro x y
    unfold Double.compare?
    cases x.isNaN <;> cases y.isNaN <;> simp [Int.compare_swap]
  cases m <;> cases n
  case int.int => simp [Number.compare?, Int.compare_swap]
  all_goals exact hdouble _ _

/-! ### The order from the other side -/

variable {heap : Handle → Value}

theorem orderItems_swap (hxs : ∀ x ∈ xs, x.Exact heap) (hys : ∀ y ∈ ys, y.Exact heap)
    (hswap : ∀ x ∈ xs, ∀ y r, y.Exact heap → order op x y = .ok r →
      order op' y x = .ok (r.map Ordering.swap))
    (h : orderItems op xs ys = .ok r) : orderItems op' ys xs = .ok (r.map Ordering.swap) := by
  induction xs generalizing ys with
  | nil =>
    cases ys with
    | nil =>
      rw [orderItems_nil_nil] at h
      exact Except.ok.inj h ▸ orderItems_nil_nil
    | cons y ys =>
      rw [orderItems_nil_cons] at h
      exact Except.ok.inj h ▸ orderItems_cons_nil
  | cons x xs ih =>
    cases ys with
    | nil =>
      rw [orderItems_cons_nil] at h
      exact Except.ok.inj h ▸ orderItems_nil_cons
    | cons y ys =>
      obtain ⟨hx, hxs⟩ := List.forall_mem_cons.mp hxs
      obtain ⟨hy, hys⟩ := List.forall_mem_cons.mp hys
      obtain ⟨hswapx, hswap⟩ := List.forall_mem_cons.mp hswap
      rw [orderItems_cons] at h ⊢
      rw [hy.equal_comm hx]
      split at h <;> rename_i hxy
      · rw [if_pos hxy]
        exact ih hxs hys hswap h
      · rw [if_neg hxy]
        exact hswapx y r hy h

/-- Values are ordered from one side just as from the other, and by each operator as by the
others. -/
theorem order_swap (op' : CompareOp) (ha : a.Exact heap) (hb : b.Exact heap)
    (h : order op a b = .ok r) : order op' b a = .ok (r.map Ordering.swap) := by
  induction a, ha using Exact.induct generalizing b r with
  | step v hv ih =>
    have hin : ∀ x ∈ v.children, ∀ y r, y.Exact heap → order op x y = .ok r →
        order op' y x = .ok (r.map Ordering.swap) := fun x hx y r hy => ih x hx hy
    rw [order_ok_iff] at h ⊢
    cases h with
    | @texts h k s t =>
      rw [Option.map_some, ← compareTexts_swap]
      exact .texts
    | lists h => exact .lists (orderItems_swap (fun _ => hv.child) (fun _ => hb.child) hin h)
    | tuples h => exact .tuples (orderItems_swap (fun _ => hv.child) (fun _ => hb.child) hin h)
    | numbers hm hn => exact Number.compare?_swap _ _ ▸ .numbers hn hm

/-! ### Order and equality -/

theorem Value.NotFloat.compare?_eq {m n : Number} (ha : a.NotFloat) (hb : b.NotFloat)
    (hm : a.number? = some m) (hn : b.number? = some n) :
    ∃ o, m.compare? n = some o ∧ (o = .eq ↔ m.equal n = true) := by
  obtain ⟨i, rfl⟩ := ha.isInt hm
  obtain ⟨j, rfl⟩ := hb.isInt hn
  refine ⟨compare i.toInt j.toInt, rfl, ?_⟩
  rw [Int.compare_eq_eq, Int64.toInt_inj]
  exact (decide_eq_true_iff).symm

/-- Sequences that can be ordered are of one order with nothing but equal ones. -/
theorem orderItems_eq_ok
    (heq : ∀ x ∈ xs, ∀ y ∈ ys, ∀ r, order op x y = .ok r →
      ∃ o, r = some o ∧ (o = .eq ↔ x.equal y = true))
    (h : orderItems op xs ys = .ok r) :
    ∃ o, r = some o ∧ (o = .eq ↔ List.Forall₂ (fun x y => x.equal y = true) xs ys) := by
  induction xs generalizing ys with
  | nil =>
    cases ys with
    | nil =>
      rw [orderItems_nil_nil] at h
      exact ⟨.eq, (Except.ok.inj h).symm, by simp⟩
    | cons y ys =>
      rw [orderItems_nil_cons] at h
      exact ⟨.lt, (Except.ok.inj h).symm, by simp⟩
  | cons x xs ih =>
    cases ys with
    | nil =>
      rw [orderItems_cons_nil] at h
      exact ⟨.gt, (Except.ok.inj h).symm, by simp⟩
    | cons y ys =>
      rw [orderItems_cons] at h
      split at h <;> rename_i hxy
      · obtain ⟨o, hr, ho⟩ := ih (fun u hu w hw => heq u (.tail _ hu) w (.tail _ hw)) h
        exact ⟨o, hr, ho.trans (by simp [hxy])⟩
      · obtain ⟨o, hr, ho⟩ := heq x (by simp) y (by simp) r h
        exact ⟨o, hr, ho.trans (by simp [hxy])⟩

/-- Values that can be ordered have an order, and it says equal just of equal values. -/
theorem order_eq_ok (ha : a.Exact heap) (hb : b.Exact heap) (h : order op a b = .ok r) :
    ∃ o, r = some o ∧ (o = .eq ↔ a.equal b = true) := by
  induction a, ha using Exact.induct generalizing b r with
  | step v hv ih =>
    have hin : ∀ x ∈ v.children, ∀ y ∈ b.children, ∀ r, order op x y = .ok r →
        ∃ o, r = some o ∧ (o = .eq ↔ x.equal y = true) :=
      fun x hx y hy r => ih x hx (hb.child hy)
    rw [order_ok_iff] at h
    rw [hv.equal_iff hb]
    cases h with
    | texts =>
      exact ⟨_, rfl, by rw [AlikeBy.str_iff, compareTexts_eq_iff, String.toList_inj]⟩
    | lists h =>
      rw [AlikeBy.list_iff]
      exact orderItems_eq_ok hin h
    | tuples h =>
      rw [AlikeBy.tuple_iff]
      exact orderItems_eq_ok hin h
    | numbers hm hn =>
      rw [AlikeBy.number_iff hm hn]
      exact hv.noFloat.here.compare?_eq hb.noFloat.here hm hn

/-! ### Equal values -/

theorem orderItems_congr (hxs : ∀ x ∈ xs, x.Exact heap) (hys : ∀ y ∈ ys, y.Exact heap)
    (hzs : ∀ z ∈ zs, z.Exact heap)
    (hcongr : ∀ x ∈ xs, ∀ y z r, y.Exact heap → z.Exact heap → y.equal z = true →
      order op x y = .ok r → order op x z = .ok r)
    (heq : List.Forall₂ (fun y z => y.equal z = true) ys zs)
    (h : orderItems op xs ys = .ok r) : orderItems op xs zs = .ok r := by
  induction heq generalizing xs with
  | nil => exact h
  | @cons y z ys zs hyz _ ih =>
    cases xs with
    | nil =>
      rw [orderItems_nil_cons] at h ⊢
      exact h
    | cons x xs =>
      obtain ⟨hx, hxs⟩ := List.forall_mem_cons.mp hxs
      obtain ⟨hy, hys⟩ := List.forall_mem_cons.mp hys
      obtain ⟨hz, hzs⟩ := List.forall_mem_cons.mp hzs
      obtain ⟨hcongrx, hcongr⟩ := List.forall_mem_cons.mp hcongr
      rw [orderItems_cons] at h ⊢
      rw [← hx.equal_congr_right hy hz hyz]
      split at h <;> rename_i hxy
      · rw [if_pos hxy]
        exact ih hxs hys hzs hcongr h
      · rw [if_neg hxy]
        exact hcongrx y z r hy hz hyz h

/-- What can be ordered with a value can be ordered with its equals, and alike. -/
theorem order_congr (ha : a.Exact heap) (hb : b.Exact heap) (hc : c.Exact heap)
    (heq : b.equal c = true) (h : order op a b = .ok r) : order op a c = .ok r := by
  induction a, ha using Exact.induct generalizing b c r with
  | step v hv ih =>
    have hin : ∀ x ∈ v.children, ∀ y z r, y.Exact heap → z.Exact heap → y.equal z = true →
        order op x y = .ok r → order op x z = .ok r := fun x hx y z r hy hz => ih x hx hy hz
    rw [order_ok_iff] at h ⊢
    rw [hb.equal_iff hc] at heq
    cases h with
    | texts =>
      obtain ⟨k, rfl⟩ := heq.of_str
      exact .texts
    | lists h =>
      obtain ⟨k, zs, rfl, hitems⟩ := heq.of_list
      exact .lists (orderItems_congr (fun _ => hv.child) (fun _ => hb.child) (fun _ => hc.child)
        hin hitems h)
    | tuples h =>
      obtain ⟨k, zs, rfl, hitems⟩ := heq.of_tuple
      exact .tuples (orderItems_congr (fun _ => hv.child) (fun _ => hb.child) (fun _ => hc.child)
        hin hitems h)
    | @numbers _ _ m n hm hn =>
      obtain ⟨n', hn', hnn⟩ := heq.of_number hn
      obtain ⟨i, rfl⟩ := hb.noFloat.here.isInt hn
      obtain ⟨j, rfl⟩ := hc.noFloat.here.isInt hn'
      obtain rfl := of_decide_eq_true hnn
      exact .numbers hm hn'

theorem order_congr_left (ha : a.Exact heap) (hb : b.Exact heap) (hc : c.Exact heap)
    (heq : a.equal b = true) (h : order op a c = .ok r) : order op b c = .ok r := by
  have hswap : order op c b = .ok (r.map Ordering.swap) :=
    order_congr hc ha hb heq (order_swap op ha hc h)
  simpa [Function.comp_def] using order_swap op hc hb hswap

/-! ### Three values -/

theorem not_equal_of_order_lt (ha : a.Exact heap) (hb : b.Exact heap)
    (h : order op a b = .ok (some .lt)) : ¬ a.equal b = true := by
  obtain ⟨o, ho, heq⟩ := order_eq_ok ha hb h
  obtain rfl := Option.some.inj ho
  exact fun hab => Ordering.noConfusion (heq.mpr hab)

theorem orderItems_trans (hxs : ∀ x ∈ xs, x.Exact heap) (hys : ∀ y ∈ ys, y.Exact heap)
    (hzs : ∀ z ∈ zs, z.Exact heap)
    (htrans : ∀ x ∈ xs, ∀ y z, y.Exact heap → z.Exact heap → order op x y = .ok (some .lt) →
      order op y z = .ok (some .lt) → order op x z = .ok (some .lt))
    (h : orderItems op xs ys = .ok (some .lt)) (h' : orderItems op ys zs = .ok (some .lt)) :
    orderItems op xs zs = .ok (some .lt) := by
  induction xs generalizing ys zs with
  | nil =>
    cases zs with
    | nil => cases ys <;> simp [orderItems] at h h'
    | cons z zs => exact orderItems_nil_cons
  | cons x xs ih =>
    cases ys with
    | nil => simp [orderItems_cons_nil] at h
    | cons y ys =>
    cases zs with
    | nil => simp [orderItems_cons_nil] at h'
    | cons z zs =>
      obtain ⟨hx, hxs⟩ := List.forall_mem_cons.mp hxs
      obtain ⟨hy, hys⟩ := List.forall_mem_cons.mp hys
      obtain ⟨hz, hzs⟩ := List.forall_mem_cons.mp hzs
      obtain ⟨htransx, htrans⟩ := List.forall_mem_cons.mp htrans
      rw [orderItems_cons] at h h' ⊢
      -- the first difference of the outer two is the earlier one of the two differences
      by_cases hxy : x.equal y = true
      · rw [if_pos hxy] at h
        rw [hx.equal_congr hy hz hxy]
        split at h' <;> rename_i hyz
        · rw [if_pos hyz]
          exact ih hxs hys hzs htrans h h'
        · rw [if_neg hyz]
          exact order_congr_left hy hx hz (hx.equal_symm hy hxy) h'
      · rw [if_neg hxy] at h
        split at h' <;> rename_i hyz
        · rw [← hx.equal_congr_right hy hz hyz, if_neg hxy]
          exact order_congr hx hy hz hyz h
        · have hxz : order op x z = .ok (some .lt) := htransx y z hy hz h h'
          rw [if_neg (not_equal_of_order_lt hx hz hxz)]
          exact hxz

/-- Order is transitive. -/
theorem order_trans (ha : a.Exact heap) (hb : b.Exact heap) (hc : c.Exact heap)
    (h : order op a b = .ok (some .lt)) (h' : order op b c = .ok (some .lt)) :
    order op a c = .ok (some .lt) := by
  induction a, ha using Exact.induct generalizing b c with
  | step v hv ih =>
    have hin : ∀ x ∈ v.children, ∀ y z, y.Exact heap → z.Exact heap →
        order op x y = .ok (some .lt) → order op y z = .ok (some .lt) →
        order op x z = .ok (some .lt) := fun x hx y z hy hz => ih x hx hy hz
    rw [order_ok_iff] at h h' ⊢
    obtain ⟨r, hr, h⟩ : ∃ r, r = some Ordering.lt ∧
      OrdersBy (fun xs ys r => orderItems op xs ys = .ok r) v b r := ⟨_, rfl, h⟩
    cases h with
    | texts =>
      obtain ⟨l, u, rfl, hr'⟩ := h'.of_str
      rw [← compareTexts_trans (Option.some.inj hr) (Option.some.inj hr').symm]
      exact .texts
    | lists hitems =>
      obtain ⟨l, zs, rfl, hitems'⟩ := h'.of_list
      exact .lists (orderItems_trans (fun _ => hv.child) (fun _ => hb.child) (fun _ => hc.child)
        hin (hr ▸ hitems) hitems')
    | tuples hitems =>
      obtain ⟨l, zs, rfl, hitems'⟩ := h'.of_tuple
      exact .tuples (orderItems_trans (fun _ => hv.child) (fun _ => hb.child) (fun _ => hc.child)
        hin (hr ▸ hitems) hitems')
    | numbers hm hn =>
      obtain ⟨k, hk, hr'⟩ := h'.of_number hn
      obtain ⟨i, rfl⟩ := hv.noFloat.here.isInt hm
      obtain ⟨j, rfl⟩ := hb.noFloat.here.isInt hn
      obtain ⟨l, rfl⟩ := hc.noFloat.here.isInt hk
      have hij : i.toInt < j.toInt := Int.compare_eq_lt.mp (Option.some.inj hr)
      have hjl : j.toInt < l.toInt := Int.compare_eq_lt.mp (Option.some.inj hr').symm
      rw [← Int.compare_eq_lt.mpr (Int.lt_trans hij hjl)]
      exact .numbers hm hk

/-! ### The operators -/

/-- The operators that order their operands. -/
def CompareOp.orderings : List CompareOp := [.lt, .le, .gt, .ge]

/-- The operator that is true of operands in an order and in no other. -/
def CompareOp.ofOrdering : Ordering → CompareOp
  | .lt => .lt
  | .eq => .eq
  | .gt => .gt

/-- A link of a comparison is true. -/
def Value.Compares (op : CompareOp) (a b : Value) : Prop := compareValues op a b = .ok true

theorem compareValues_eq_map (hop : op ∈ CompareOp.orderings) (a b : Value) :
    compareValues op a b = (order op a b).map fun o => o.any op.holds := by
  simp only [CompareOp.orderings, List.mem_cons, List.not_mem_nil, or_false] at hop
  rcases hop with rfl | rfl | rfl | rfl <;> rfl

theorem isOk_compareValues (hop : op ∈ CompareOp.orderings) (a b : Value) :
    (compareValues op a b).isOk = (order op a b).isOk := by
  rw [compareValues_eq_map hop]
  cases order op a b <;> rfl

theorem compares_lt_iff : a.Compares .lt b ↔ order .lt a b = .ok (some .lt) := by
  unfold Compares
  rw [compareValues_eq_map (by decide)]
  rcases order .lt a b with f | r
  · exact ⟨nofun, nofun⟩
  · rcases r with - | o
    · exact ⟨nofun, nofun⟩
    · cases o <;> simp [Except.map, CompareOp.holds]

theorem isOk_order_comm (op op' : CompareOp) (ha : a.Exact heap) (hb : b.Exact heap) :
    (order op a b).isOk = (order op' b a).isOk := by
  rw [Bool.eq_iff_iff]
  refine ⟨fun h => ?_, fun h => ?_⟩
  · obtain ⟨r, hr⟩ := ok_of_isOk h
    rw [order_swap op' ha hb hr]
    rfl
  · obtain ⟨r, hr⟩ := ok_of_isOk h
    rw [order_swap op hb ha hr]
    rfl

theorem isOk_order (op op' : CompareOp) (ha : a.Exact heap) (hb : b.Exact heap) :
    (order op a b).isOk = (order op' a b).isOk :=
  (isOk_order_comm op op ha hb).trans (isOk_order_comm op op' hb ha)

/-- Two values that can be ordered have one order, which answers all operators on them. -/
theorem exists_ordering (ha : a.Exact heap) (hb : b.Exact heap) (h : (order op a b).isOk = true) :
    ∃ o : Ordering, (o = .eq ↔ a.equal b = true) ∧ ∀ op' ∈ CompareOp.orderings,
      compareValues op' a b = .ok (op'.holds o) ∧ compareValues op' b a = .ok (op'.holds o.swap) := by
  obtain ⟨r, hr⟩ := ok_of_isOk h
  obtain ⟨o, rfl, ho⟩ := order_eq_ok ha hb hr
  refine ⟨o, ho, fun op' hop => ?_⟩
  have hba : order op' b a = .ok (some o.swap) := order_swap op' ha hb hr
  have hab : order op' a b = .ok (some o) := by
    simpa using order_swap op' hb ha hba
  rw [compareValues_eq_map hop, compareValues_eq_map hop, hab, hba]
  exact ⟨rfl, rfl⟩

/-- **The ordering operators are lawful.** Of values as a heap holds them, without floats: whether
two of them can be ordered depends neither on the operator nor on the side; if so, exactly one of
`a < b`, `a === b` and `a > b` is true, and the other operators say what these say; and `<` is
transitive. -/
theorem order_lawful (ha : a.Exact heap) (hb : b.Exact heap) (hc : c.Exact heap) :
    (∀ op ∈ CompareOp.orderings,
        (compareValues op a b).isOk = (compareValues .lt a b).isOk ∧
        (compareValues op b a).isOk = (compareValues .lt a b).isOk) ∧
      ((compareValues .lt a b).isOk = true →
        (∃! op, op ∈ [CompareOp.lt, .eq, .gt] ∧ a.Compares op b) ∧
        (a.Compares .lt b ↔ b.Compares .gt a) ∧
        (a.Compares .le b ↔ a.Compares .lt b ∨ a.Compares .eq b)) ∧
      (a.Compares .lt b → b.Compares .lt c → a.Compares .lt c) := by
  refine ⟨fun op hop => ?_, fun h => ?_, fun h h' => ?_⟩
  · rw [isOk_compareValues hop, isOk_compareValues hop, isOk_compareValues (by decide)]
    exact ⟨isOk_order _ _ ha hb, isOk_order_comm _ _ hb ha⟩
  · rw [isOk_compareValues (by decide)] at h
    obtain ⟨o, heq, hops⟩ := exists_ordering ha hb h
    have hab : ∀ op ∈ CompareOp.orderings, (a.Compares op b ↔ op.holds o = true) :=
      fun op hop => by simp [Compares, (hops op hop).1]
    have hba : b.Compares .gt a ↔ o.swap = .gt := by
      simp [Compares, (hops .gt (by decide)).2, CompareOp.holds]
    have heq : a.Compares .eq b ↔ o = .eq := by simp [Compares, compareValues, heq]
    have hlt : a.Compares .lt b ↔ o = .lt := by simp [hab .lt (by decide), CompareOp.holds]
    have hle : a.Compares .le b ↔ o ≠ .gt := by simp [hab .le (by decide), CompareOp.holds]
    have hgt : a.Compares .gt b ↔ o = .gt := by simp [hab .gt (by decide), CompareOp.holds]
    refine ⟨⟨.ofOrdering o, ?_, ?_⟩, ?_, ?_⟩
    · cases o <;> simp [CompareOp.ofOrdering, heq, hlt, hgt]
    · simp only [List.mem_cons, List.not_mem_nil, or_false]
      rintro op ⟨rfl | rfl | rfl, h⟩
      · rw [hlt.mp h]; rfl
      · rw [heq.mp h]; rfl
      · rw [hgt.mp h]; rfl
    · rw [hlt, hba]
      cases o <;> decide
    · rw [hle, hlt, heq]
      cases o <;> decide
  · rw [compares_lt_iff] at h h' ⊢
    exact order_trans ha hb hc h h'

end

/-- Lists of different lengths with elements that cannot be ordered. What the lists have in common
is skipped, be it `null` or `true` beside `1`. -/
theorem order_lawful_lists :
    let a := list ⟨[0]⟩ [null, tuple ⟨[1]⟩ [bool true]]
    let b := list ⟨[2]⟩ [null, tuple ⟨[3]⟩ [int 1], null]
    let c := list ⟨[4]⟩ [null, tuple ⟨[5]⟩ [int 1, str ⟨[6]⟩ "z"]]
    ∃ heap, a.Exact heap ∧ b.Exact heap ∧ c.Exact heap ∧ (compareValues .lt a b).isOk = true ∧
      (compareValues .ge b a).isOk = true ∧ b.Compares .gt a ∧ a.Compares .le b ∧
      (∃! op, op ∈ [CompareOp.lt, .eq, .gt] ∧ a.Compares op b) ∧ a.Compares .lt c := by
  intro a b c
  let heap : Handle → Value := fun h =>
    if h = ⟨[0]⟩ then a else if h = ⟨[1]⟩ then tuple ⟨[1]⟩ [bool true]
    else if h = ⟨[2]⟩ then b else if h = ⟨[3]⟩ then tuple ⟨[3]⟩ [int 1]
    else if h = ⟨[4]⟩ then c else if h = ⟨[5]⟩ then tuple ⟨[5]⟩ [int 1, str ⟨[6]⟩ "z"]
    else str ⟨[6]⟩ "z"
  have ha : a.Exact heap :=
    .ofList rfl (by simpa using ⟨.ofNull, .ofTuple rfl (by simpa using .ofBool true)⟩)
  have hb : b.Exact heap :=
    .ofList rfl (by simpa using ⟨.ofNull, .ofTuple rfl (by simpa using .ofInt 1), .ofNull⟩)
  have hc : c.Exact heap :=
    .ofList rfl (by simpa using ⟨.ofNull, .ofTuple rfl (by simpa using ⟨.ofInt 1, .ofStr rfl⟩)⟩)
  have hab : a.Compares .lt b := rfl
  have hbc : b.Compares .lt c := rfl
  obtain ⟨hok, hlaws, htrans⟩ := order_lawful ha hb hc
  obtain ⟨hone, hgt, hle⟩ := hlaws rfl
  exact ⟨heap, ha, hb, hc, rfl, (hok .ge (by decide)).2, hgt.mp hab, hle.mpr (.inl hab), hone,
    htrans hab hbc⟩

end ShellExpr
