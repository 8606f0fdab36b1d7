import ShellExpr.Proofs.Number.Double
import ShellExpr.Proofs.Value.Maps
import ShellExpr.Value.Equality

/-!
# Equality is an equivalence

Equality compares values of one kind by what they hold. It looks inside lists, tuples and dicts, and
at one allocation it does not look at all. Where an allocation holds one content, no map has a key
twice and no float stands anywhere, equality is an equivalence, and the shortcut for shared
allocations changes no answer.

* `Value.Each`: a property of a value and of all values that equality may come to inside it.
* `Value.Exact`: a value as a heap holds it, without floats.
* `Value.AlikeBy`: two values of one kind with related content, one level deep.
* `Value.equalBy_iff`: equality is sharing, or that with equal values inside.
* `Value.equal_iff_alike`: the shortcut changes no answer.
* `Value.equal_lawful`: **equality is an equivalence** by content alone.
-/

namespace ShellExpr

/-! ### Trees and numbers -/

namespace Eggex

mutual

theorem same_iff_eq : ∀ a b : Eggex, same a b = true ↔ a = b
  | speck .., b => by cases b <;> simp [same]
  | token _, b => by cases b <;> simp [same]
  | word _, b => by cases b <;> simp [same]
  | splice _, b => by cases b <;> simp [same]
  | posix .., b => by cases b <;> simp [same]
  | perl .., b => by cases b <;> simp [same]
  | seq xs, b => by cases b <;> simp [same, allSame_iff_eq xs]
  | alt xs, b => by cases b <;> simp [same, allSame_iff_eq xs]
  | rep x _, b => by cases b <;> simp [same, same_iff_eq x, and_comm]
  | group x, b => by cases b <;> simp [same, same_iff_eq x]
  | capture x _, b => by cases b <;> simp [same, same_iff_eq x, and_comm]
  | charClass .., b => by cases b <;> simp [same]
  | primitive .., b => by cases b <;> simp [same]
  | literal .., b => by cases b <;> simp [same]

theorem allSame_iff_eq : ∀ xs ys : List Eggex, allSame xs ys = true ↔ xs = ys
  | [], ys => by cases ys <;> simp [allSame]
  | x :: xs, ys => by cases ys <;> simp [allSame, same_iff_eq x, allSame_iff_eq xs]

end

end Eggex

namespace Number

theorem equal_comm (m n : Number) : m.equal n = n.equal m := by
  cases m <;> cases n <;> simp [equal, Double.equal_comm, eq_comm]

/-- Equality of integers is transitive. That of integers with floats is not. -/
theorem equal_trans {k m n : Number} (hk : ∃ i, k = .int i) (hm : ∃ i, m = .int i)
    (hn : ∃ i, n = .int i) (h : k.equal m = true) (h' : m.equal n = true) : k.equal n = true := by
  obtain ⟨i, rfl⟩ := hk
  obtain ⟨j, rfl⟩ := hm
  obtain ⟨l, rfl⟩ := hn
  exact decide_eq_true ((of_decide_eq_true h).trans (of_decide_eq_true h'))

end Number

namespace Value

/-! ### Values inside values -/

/-- The values that equality comes to next. -/
def children : Value → List Value
  | list _ xs => xs
  | tuple _ xs => xs
  | dict _ es => es.map Prod.snd
  | _ => []

theorem sizeOf_lt_of_mem_children {v u : Value} (h : u ∈ v.children) : sizeOf u < sizeOf v := by
  cases v with
  | list _ xs | tuple _ xs =>
    have : sizeOf u < sizeOf xs := List.sizeOf_lt_of_mem h
    simp only [list.sizeOf_spec, tuple.sizeOf_spec]
    omega
  | dict _ es =>
    obtain ⟨⟨k, u⟩, he, rfl⟩ := List.mem_map.mp h
    have := List.sizeOf_lt_of_mem he
    simp only [dict.sizeOf_spec, Prod.mk.sizeOf_spec] at this ⊢
    omega
  | _ => cases h

/-- What holds of a value if it holds of the values inside holds of all values. -/
theorem induct_children {motive : Value → Prop}
    (step : ∀ v, (∀ u ∈ v.children, motive u) → motive v) (v : Value) : motive v :=
  step v fun u hu =>
    have := sizeOf_lt_of_mem_children hu
    induct_children step u
termination_by sizeOf v

/-- A property of a value and, at any depth, of the elements of its lists and tuples and the values
of its dicts. -/
inductive Each (P : Value → Prop) : Value → Prop where
  | intro {v : Value} (here : P v) (inside : ∀ u ∈ v.children, Each P u) : Each P v

namespace Each

variable {P Q : Value → Prop} {v u : Value}

theorem here (h : v.Each P) : P v := by
  cases h
  assumption

theorem child (h : v.Each P) (hu : u ∈ v.children) : u.Each P := by
  cases h with
  | intro _ inside => exact inside u hu

theorem imp (h : v.Each P) (hPQ : ∀ u, P u → Q u) : v.Each Q := by
  induction h with
  | intro here _ ih => exact .intro (hPQ _ here) ih

end Each

/-- The allocation whose content equality compares. Callables and host objects are compared by
allocation alone. -/
def content? : Value → Option Handle
  | str h _ | strArray h _ | assocArray h _ | list h _ | tuple h _ | dict h _ | eggex h _ => some h
  | _ => none

/-- A map has each key once. -/
def KeysDistinct : Value → Prop
  | assocArray _ es => Assoc.Distinct es
  | dict _ es => Assoc.Distinct es
  | _ => True

/-- A value as a heap holds it: its map has each key once, and its allocation holds nothing else. -/
structure KeptIn (heap : Handle → Value) (v : Value) : Prop where
  keys : v.KeysDistinct
  content : ∀ h ∈ v.content?, heap h = v

def NotFloat (v : Value) : Prop := ∀ x, v ≠ float x

/-- A float is a number. -/
def NotNaN (v : Value) : Prop := ∀ x, v = float x → x.isNaN = false

/-- A value as a heap holds it, with no float in it. -/
structure Exact (heap : Handle → Value) (v : Value) : Prop where
  kept : v.Each (KeptIn heap)
  noFloat : v.Each NotFloat

theorem NotFloat.notNaN {v : Value} (h : v.NotFloat) : v.NotNaN := fun x hx => absurd hx (h x)

namespace Exact

variable {heap : Handle → Value} {v u : Value}

theorem intro (hkept : v.KeptIn heap) (hfloat : v.NotFloat)
    (hin : ∀ u ∈ v.children, u.Exact heap) : v.Exact heap :=
  ⟨.intro hkept fun u hu => (hin u hu).kept, .intro hfloat fun u hu => (hin u hu).noFloat⟩

/-- A value that has no allocation and is no float. -/
theorem scalar (hin : v.children = []) (hkeys : v.KeysDistinct) (hcontent : v.content? = none)
    (hfloat : v.NotFloat) : v.Exact heap :=
  intro ⟨hkeys, by simp [hcontent]⟩ hfloat (by simp [hin])

theorem ofNull : null.Exact heap := scalar rfl trivial rfl nofun

theorem ofBool (b : Bool) : (bool b).Exact heap := scalar rfl trivial rfl nofun

theorem ofInt (n : Int64) : (int n).Exact heap := scalar rfl trivial rfl nofun

theorem ofRange (r : Range) : (range r).Exact heap := scalar rfl trivial rfl nofun

section Allocated

variable {h : Handle} {s : String} {xs : List Value} {es : List (Key × Value)}

theorem ofStr (hh : heap h = str h s) : (str h s).Exact heap :=
  intro ⟨trivial, by simpa [content?] using hh⟩ nofun (by simp [children])

theorem ofList (hh : heap h = list h xs) (hin : ∀ u ∈ xs, u.Exact heap) : (list h xs).Exact heap :=
  intro ⟨trivial, by simpa [content?] using hh⟩ nofun hin

theorem ofTuple (hh : heap h = tuple h xs) (hin : ∀ u ∈ xs, u.Exact heap) :
    (tuple h xs).Exact heap :=
  intro ⟨trivial, by simpa [content?] using hh⟩ nofun hin

theorem ofDict (hh : heap h = dict h es) (hkeys : Assoc.Distinct es)
    (hin : ∀ e ∈ es, e.2.Exact heap) : (dict h es).Exact heap :=
  intro ⟨hkeys, by simpa [content?] using hh⟩ nofun (List.forall_mem_map.mpr hin)

end Allocated

theorem child (h : v.Exact heap) (hu : u ∈ v.children) : u.Exact heap :=
  ⟨h.kept.child hu, h.noFloat.child hu⟩

theorem noNaN (h : v.Exact heap) : v.Each NotNaN := h.noFloat.imp fun _ => NotFloat.notNaN

/-- What follows for a value from the values inside it holds of all. -/
@[elab_as_elim]
theorem induct {motive : (v : Value) → v.Exact heap → Prop}
    (step : ∀ (v : Value) (hv : v.Exact heap),
      (∀ u (hu : u ∈ v.children), motive u (hv.child hu)) → motive v hv)
    (v : Value) (hv : v.Exact heap) : motive v hv := by
  obtain ⟨hkept, hfloat⟩ := hv
  induction hkept with
  | intro here inside ih =>
    exact step _ ⟨.intro here inside, hfloat⟩ fun u hu => ih u hu (hfloat.child hu)

end Exact

/-! ### One level of equality -/

/-- What equality compares of a value that is no number and holds no others: all but the allocation,
or the allocation alone. -/
def plain? : Value → Option Value
  | str _ s => some (str ⟨[]⟩ s)
  | strArray _ slots => some (strArray ⟨[]⟩ slots)
  | eggex _ e => some (eggex ⟨[]⟩ e)
  | func h _ => some (func h "")
  | object h _ _ => some (object h "" [])
  | null => some null
  | range r => some (range r)
  | slice s => some (slice s)
  | _ => none

/-- Values of one kind, with content related where there are values inside. -/
inductive AlikeBy (R : Value → Value → Prop) : Value → Value → Prop where
  | lists {h k : Handle} {xs ys : List Value} (hitems : List.Forall₂ R xs ys) :
      AlikeBy R (list h xs) (list k ys)
  | tuples {h k : Handle} {xs ys : List Value} (hitems : List.Forall₂ R xs ys) :
      AlikeBy R (tuple h xs) (tuple k ys)
  | dicts {h k : Handle} {es fs : List (Key × Value)} (hentries : Assoc.Matches R es fs) :
      AlikeBy R (dict h es) (dict k fs)
  | assocArrays {h k : Handle} {es fs : List (String × String)}
      (hentries : Assoc.Matches Eq es fs) : AlikeBy R (assocArray h es) (assocArray k fs)
  | numbers {a b : Value} {m n : Number} (hm : a.number? = some m) (hn : b.number? = some n)
      (heq : m.equal n = true) : AlikeBy R a b
  | plain {a b p : Value} (ha : a.plain? = some p) (hb : b.plain? = some p) : AlikeBy R a b

/-- Values of one kind whose content is not compared, since their allocations need not be. -/
def Shares (share : Handle → Handle → Bool) (a b : Value) : Prop :=
  a.typeName = b.typeName ∧
    ∃ h k, a.content? = some h ∧ b.content? = some k ∧ share h k = true

section Layers

variable {share : Handle → Handle → Bool} {R S T : Value → Value → Prop} {a b c : Value}

theorem allEqualBy_iff {xs ys : List Value} : allEqualBy share xs ys = true ↔
    List.Forall₂ (fun x y => equalBy share x y = true) xs ys := by
  induction xs generalizing ys with
  | nil => cases ys <;> simp [allEqualBy]
  | cons x xs ih => cases ys <;> simp [allEqualBy, ih]

theorem entriesEqualBy_iff {es fs : List (Key × Value)} : entriesEqualBy share es fs = true ↔
    ∀ e ∈ es, ∃ w, Assoc.get? e.1 fs = some w ∧ equalBy share e.2 w = true := by
  induction es with
  | nil => simp [entriesEqualBy]
  | cons e rest ih =>
    rw [entriesEqualBy, Bool.and_eq_true, ih, List.forall_mem_cons]
    refine and_congr_left fun _ => ?_
    cases Assoc.get? e.1 fs <;> simp

theorem sameEntries_iff {es fs : List (String × String)} :
    sameEntries es fs = true ↔ Assoc.Matches Eq es fs := by
  unfold sameEntries
  rw [Bool.and_eq_true, decide_eq_true_iff, List.all_eq_true]
  refine ⟨fun h => ⟨h.1, fun e he => ⟨e.2, of_decide_eq_true (h.2 e he), rfl⟩⟩, fun h => ?_⟩
  refine ⟨h.length_eq, fun e he => decide_eq_true ?_⟩
  obtain ⟨w, hw, rfl⟩ := h.related e he
  exact hw

theorem scalarEqual_iff : scalarEqual a b = true ↔
    ∃ m n, a.number? = some m ∧ b.number? = some n ∧ m.equal n = true := by
  unfold scalarEqual
  cases a.number? <;> cases b.number? <;> simp

theorem Shares.intro {h k : Handle} (htype : a.typeName = b.typeName) (ha : a.content? = some h)
    (hb : b.content? = some k) (hs : share h k = true) : Shares share a b :=
  ⟨htype, h, k, ha, hb, hs⟩

theorem shares_or_alikeBy (h : equalBy share a b = true) :
    Shares share a b ∨ AlikeBy (fun x y => equalBy share x y = true) a b := by
  unfold equalBy at h
  split at h
  case h_1 =>
    rw [Bool.or_eq_true, decide_eq_true_iff] at h
    obtain hs | rfl := h
    · exact .inl (.intro rfl rfl rfl hs)
    · exact .inr (.plain rfl rfl)
  case h_2 =>
    rw [Bool.or_eq_true, decide_eq_true_iff] at h
    obtain hs | rfl := h
    · exact .inl (.intro rfl rfl rfl hs)
    · exact .inr (.plain rfl rfl)
  case h_3 =>
    rw [Bool.or_eq_true, sameEntries_iff] at h
    exact h.imp (.intro rfl rfl rfl) .assocArrays
  case h_4 => exact .inr (.plain rfl rfl)
  case h_5 =>
    rw [Bool.or_eq_true, allEqualBy_iff] at h
    exact h.imp (.intro rfl rfl rfl) .lists
  case h_6 =>
    rw [Bool.or_eq_true, allEqualBy_iff] at h
    exact h.imp (.intro rfl rfl rfl) .tuples
  case h_7 =>
    rw [Bool.or_eq_true, Bool.and_eq_true, decide_eq_true_iff, entriesEqualBy_iff] at h
    exact h.imp (.intro rfl rfl rfl) fun he => .dicts ⟨he.1, he.2⟩
  case h_8 => exact .inr (.plain rfl (of_decide_eq_true h ▸ rfl))
  case h_9 => exact .inr (.plain rfl (of_decide_eq_true h ▸ rfl))
  case h_10 => exact .inr (.plain rfl (of_decide_eq_true h ▸ rfl))
  case h_11 _ e _ f =>
    rw [Bool.or_eq_true, Bool.and_eq_true, decide_eq_true_iff, Eggex.same_iff_eq] at h
    refine h.imp (.intro rfl rfl rfl) fun he => .plain rfl ?_
    obtain ⟨tree, flags⟩ := e
    obtain ⟨rfl, rfl⟩ := he
    rfl
  case h_12 => exact .inr (.plain rfl (of_decide_eq_true h ▸ rfl))
  case h_13 =>
    obtain ⟨m, n, hm, hn, he⟩ := scalarEqual_iff.mp h
    exact .inr (.numbers hm hn he)

theorem equalBy_of_shares (h : Shares share a b) : equalBy share a b = true := by
  obtain ⟨htype, h, k, ha, hb, hs⟩ := h
  cases a <;> cases ha <;> cases b <;> cases hb
  all_goals first
    | simp [equalBy, hs]; done
    | simp [typeName] at htype

theorem equalBy_of_alikeBy (h : AlikeBy (fun x y => equalBy share x y = true) a b) :
    equalBy share a b = true := by
  cases h with
  | lists hitems => simp [equalBy, allEqualBy_iff.mpr hitems]
  | tuples hitems => simp [equalBy, allEqualBy_iff.mpr hitems]
  | dicts hentries =>
    simp [equalBy, hentries.length_eq, entriesEqualBy_iff.mpr hentries.related]
  | assocArrays hentries => simp [equalBy, sameEntries_iff.mpr hentries]
  | numbers hm hn heq =>
    have hs : scalarEqual a b = true := scalarEqual_iff.mpr ⟨_, _, hm, hn, heq⟩
    cases a <;> cases hm <;> cases b <;> cases hn <;> simpa only [equalBy] using hs
  | plain ha hb =>
    cases a <;> cases ha <;> cases b <;> simp_all [plain?, equalBy, Eggex.same_iff_eq]

/-- Equality is sharing, or one level of it with equal values inside. -/
theorem equalBy_iff : equalBy share a b = true ↔
    Shares share a b ∨ AlikeBy (fun x y => equalBy share x y = true) a b :=
  ⟨shares_or_alikeBy, fun h => h.elim equalBy_of_shares equalBy_of_alikeBy⟩

theorem alike_iff : alike a b = true ↔ AlikeBy (fun x y => alike x y = true) a b := by
  refine equalBy_iff.trans ⟨fun h => h.resolve_left ?_, .inr⟩
  rintro ⟨-, h, k, -, -, hs⟩
  cases hs

/-! ### Laws of one level -/

theorem number?_of_plain? {p : Value} (h : a.plain? = some p) : a.number? = none := by
  cases a <;> first | rfl | cases h

theorem NotFloat.isInt {m : Number} (ha : a.NotFloat) (h : a.number? = some m) :
    ∃ n, m = .int n := by
  cases a with
  | bool b => exact ⟨_, (Option.some.inj h).symm⟩
  | int n => exact ⟨n, (Option.some.inj h).symm⟩
  | float x => exact absurd rfl (ha x)
  | _ => cases h

namespace AlikeBy

theorem of_str {h : Handle} {s : String} (hl : AlikeBy R (str h s) b) : ∃ k, b = str k s := by
  cases hl with
  | numbers hm => cases hm
  | plain hp hq =>
    obtain rfl := Option.some.inj hp
    cases b <;> cases hq
    exact ⟨_, rfl⟩

theorem of_list {h : Handle} {xs : List Value} (hl : AlikeBy R (list h xs) b) :
    ∃ k ys, b = list k ys ∧ List.Forall₂ R xs ys := by
  cases hl with
  | lists hitems => exact ⟨_, _, rfl, hitems⟩
  | numbers hm => cases hm
  | plain hp => cases hp

theorem of_tuple {h : Handle} {xs : List Value} (hl : AlikeBy R (tuple h xs) b) :
    ∃ k ys, b = tuple k ys ∧ List.Forall₂ R xs ys := by
  cases hl with
  | tuples hitems => exact ⟨_, _, rfl, hitems⟩
  | numbers hm => cases hm
  | plain hp => cases hp

theorem of_number {m : Number} (hl : AlikeBy R a b) (hm : a.number? = some m) :
    ∃ n, b.number? = some n ∧ m.equal n = true := by
  cases hl with
  | numbers hm' hn heq =>
    obtain rfl := Option.some.inj (hm.symm.trans hm')
    exact ⟨_, hn, heq⟩
  | plain hp =>
    rw [number?_of_plain? hp] at hm
    cases hm
  | _ => cases hm

theorem str_iff {h k : Handle} {s t : String} : AlikeBy R (str h s) (str k t) ↔ s = t := by
  refine ⟨fun hl => ?_, fun hst => .plain rfl (hst ▸ rfl)⟩
  obtain ⟨k, hk⟩ := hl.of_str
  exact (str.inj hk).2.symm

theorem list_iff {h k : Handle} {xs ys : List Value} :
    AlikeBy R (list h xs) (list k ys) ↔ List.Forall₂ R xs ys := by
  refine ⟨fun hl => ?_, .lists⟩
  obtain ⟨k, ys, hys, hitems⟩ := hl.of_list
  exact (list.inj hys).2 ▸ hitems

theorem tuple_iff {h k : Handle} {xs ys : List Value} :
    AlikeBy R (tuple h xs) (tuple k ys) ↔ List.Forall₂ R xs ys := by
  refine ⟨fun hl => ?_, .tuples⟩
  obtain ⟨k, ys, hys, hitems⟩ := hl.of_tuple
  exact (tuple.inj hys).2 ▸ hitems

theorem number_iff {m n : Number} (hm : a.number? = some m) (hn : b.number? = some n) :
    AlikeBy R a b ↔ m.equal n = true := by
  refine ⟨fun hl => ?_, .numbers hm hn⟩
  obtain ⟨n', hn', heq⟩ := hl.of_number hm
  exact Option.some.inj (hn'.symm.trans hn) ▸ heq

/-- What relates the values inside may be exchanged. -/
theorem imp (h : AlikeBy R a b) (hR : ∀ u ∈ a.children, ∀ w ∈ b.children, R u w → S u w) :
    AlikeBy S a b := by
  cases h with
  | lists hitems => exact .lists (forall₂_of_mem hitems hR)
  | tuples hitems => exact .tuples (forall₂_of_mem hitems hR)
  | dicts hentries =>
    exact .dicts (hentries.imp fun e he f hf =>
      hR e.2 (List.mem_map_of_mem he) f.2 (List.mem_map_of_mem hf))
  | assocArrays hentries => exact .assocArrays hentries
  | numbers hm hn heq => exact .numbers hm hn heq
  | plain ha hb => exact .plain ha hb

theorem symm (h : AlikeBy R a b) (ha : a.KeysDistinct) (hb : b.KeysDistinct) :
    AlikeBy (fun w u => R u w) b a := by
  cases h with
  | lists hitems => exact .lists hitems.flip
  | tuples hitems => exact .tuples hitems.flip
  | dicts hentries => exact .dicts (hentries.symm ha hb)
  | assocArrays hentries =>
    exact .assocArrays ((hentries.symm ha hb).imp fun _ _ _ _ he => he.symm)
  | numbers hm hn heq => exact .numbers hn hm (Number.equal_comm _ _ ▸ heq)
  | plain ha hb => exact .plain hb ha

/-- Without floats, one level is transitive if the values inside are. -/
theorem trans (h : AlikeBy R a b) (h' : AlikeBy S b c) (ha : a.NotFloat) (hb : b.NotFloat)
    (hc : c.NotFloat)
    (hT : ∀ u ∈ a.children, ∀ v ∈ b.children, ∀ w ∈ c.children, R u v → S v w → T u w) :
    AlikeBy T a c := by
  cases h with
  | lists hitems =>
    cases h' with
    | lists hitems' => exact .lists (forall₂_trans hitems hitems' hT)
    | numbers hn => cases hn
    | plain hp => cases hp
  | tuples hitems =>
    cases h' with
    | tuples hitems' => exact .tuples (forall₂_trans hitems hitems' hT)
    | numbers hn => cases hn
    | plain hp => cases hp
  | dicts hentries =>
    cases h' with
    | dicts hentries' =>
      exact .dicts (hentries.trans hentries' fun e he f hf g hg =>
        hT e.2 (List.mem_map_of_mem he) f.2 (List.mem_map_of_mem hf) g.2 (List.mem_map_of_mem hg))
    | numbers hn => cases hn
    | plain hp => cases hp
  | assocArrays hentries =>
    cases h' with
    | assocArrays hentries' =>
      exact .assocArrays (hentries.trans hentries' fun _ _ _ _ _ _ he he' => he.trans he')
    | numbers hn => cases hn
    | plain hp => cases hp
  | numbers hm hn heq =>
    cases h' with
    | numbers hn' hk heq' =>
      obtain rfl := Option.some.inj (hn.symm.trans hn')
      exact .numbers hm hk
        (Number.equal_trans (ha.isInt hm) (hb.isInt hn) (hc.isInt hk) heq heq')
    | plain hp => rw [number?_of_plain? hp] at hn; cases hn
    | _ => cases hn
  | plain hp hq =>
    cases h' with
    | numbers hn => rw [number?_of_plain? hq] at hn; cases hn
    | plain hq' hr =>
      obtain rfl := Option.some.inj (hq.symm.trans hq')
      exact .plain hp hr
    | _ => cases hq

end AlikeBy

end Layers

/-! ### Equality -/

section Laws

variable {heap : Handle → Value} {a b c : Value}

/-- What shares an allocation is one value. -/
theorem eq_of_shares (ha : a.KeptIn heap) (hb : b.KeptIn heap)
    (h : Shares (fun h k => h = k) a b) : a = b := by
  obtain ⟨-, h, k, hah, hbk, hs⟩ := h
  obtain rfl := of_decide_eq_true hs
  exact (ha.content h hah).symm.trans (hb.content h hbk)

theorem alike_refl (hk : a.Each (KeptIn heap)) (hn : a.Each NotNaN) : a.alike a = true := by
  induction hk with
  | @intro v here inside ih =>
    have hin := fun u hu => ih u hu (hn.child hu)
    rw [alike_iff]
    cases v with
    | list h xs => exact .lists (List.forall₂_same.mpr hin)
    | tuple h xs => exact .tuples (List.forall₂_same.mpr hin)
    | dict h es =>
      exact .dicts (.of_perm (.refl _) here.keys fun e he => hin e.2 (List.mem_map_of_mem he))
    | assocArray h es => exact .assocArrays (.of_perm (.refl _) here.keys fun _ _ => rfl)
    | bool _ | int _ => exact .numbers rfl rfl (decide_eq_true rfl)
    | float x => exact .numbers rfl rfl (Double.equal_iff.mpr ⟨hn.here x rfl, hn.here x rfl, rfl⟩)
    | _ => exact .plain rfl rfl

/-- Values of the same content are equal, whatever they share. -/
theorem equal_of_alike (h : a.alike b = true) : a.equal b = true := by
  induction a using induct_children generalizing b with
  | step v ih => exact equalBy_of_alikeBy ((alike_iff.mp h).imp fun u hu w _ huw => ih u hu huw)

/-- **The shortcut changes no answer**: equality is equality by content. -/
theorem equal_iff_alike (ha : a.Each (KeptIn heap)) (hb : b.Each (KeptIn heap))
    (hn : a.Each NotNaN) : a.equal b = true ↔ a.alike b = true := by
  refine ⟨fun h => ?_, equal_of_alike⟩
  induction ha generalizing b with
  | @intro v here inside ih =>
    obtain hs | hl := equalBy_iff.mp h
    · rw [← eq_of_shares here hb.here hs]
      exact alike_refl (.intro here inside) hn
    · exact alike_iff.mpr (hl.imp fun u hu w hw => ih u hu (hb.child hw) (hn.child hu))

theorem alike_symm (ha : a.Each (KeptIn heap)) (hb : b.Each (KeptIn heap))
    (h : a.alike b = true) : b.alike a = true := by
  induction ha generalizing b with
  | @intro v here inside ih =>
    rw [alike_iff] at h ⊢
    exact (h.symm here.keys hb.here.keys).imp fun w hw u hu he => ih u hu (hb.child hw) he

theorem alike_trans (ha : a.Each NotFloat) (hb : b.Each NotFloat) (hc : c.Each NotFloat)
    (h : a.alike b = true) (h' : b.alike c = true) : a.alike c = true := by
  induction ha generalizing b c with
  | @intro v here inside ih =>
    rw [alike_iff] at h h' ⊢
    exact h.trans h' here hb.here hc.here fun u hu v hv w hw =>
      ih u hu (hb.child hv) (hc.child hw)

/-! ### Without floats -/

theorem Exact.equal_eq_alike (ha : a.Exact heap) (hb : b.Exact heap) : a.equal b = a.alike b :=
  Bool.eq_iff_iff.mpr (equal_iff_alike ha.kept hb.kept ha.noNaN)

/-- Equality is one level of it with equal values inside. -/
theorem Exact.equal_iff (ha : a.Exact heap) (hb : b.Exact heap) :
    a.equal b = true ↔ AlikeBy (fun u w => u.equal w = true) a b := by
  rw [ha.equal_eq_alike hb, alike_iff]
  have hin : ∀ u ∈ a.children, ∀ w ∈ b.children, (u.alike w = true ↔ u.equal w = true) :=
    fun u hu w hw => by rw [(ha.child hu).equal_eq_alike (hb.child hw)]
  exact ⟨fun h => h.imp fun u hu w hw => (hin u hu w hw).mp,
    fun h => h.imp fun u hu w hw => (hin u hu w hw).mpr⟩

theorem Exact.equal_refl (ha : a.Exact heap) : a.equal a = true := by
  rw [ha.equal_eq_alike ha]
  exact alike_refl ha.kept ha.noNaN

theorem Exact.equal_symm (ha : a.Exact heap) (hb : b.Exact heap) (h : a.equal b = true) :
    b.equal a = true := by
  rw [ha.equal_eq_alike hb] at h
  rw [hb.equal_eq_alike ha]
  exact alike_symm ha.kept hb.kept h

theorem Exact.equal_comm (ha : a.Exact heap) (hb : b.Exact heap) : a.equal b = b.equal a :=
  Bool.eq_iff_iff.mpr ⟨ha.equal_symm hb, hb.equal_symm ha⟩

theorem Exact.equal_trans (ha : a.Exact heap) (hb : b.Exact heap) (hc : c.Exact heap)
    (h : a.equal b = true) (h' : b.equal c = true) : a.equal c = true := by
  rw [ha.equal_eq_alike hb] at h
  rw [hb.equal_eq_alike hc] at h'
  rw [ha.equal_eq_alike hc]
  exact alike_trans ha.noFloat hb.noFloat hc.noFloat h h'

/-- Equal values are equal to the same values. -/
theorem Exact.equal_congr (ha : a.Exact heap) (hb : b.Exact heap) (hc : c.Exact heap)
    (h : a.equal b = true) : a.equal c = b.equal c :=
  Bool.eq_iff_iff.mpr ⟨hb.equal_trans ha hc (ha.equal_symm hb h), ha.equal_trans hb hc h⟩

theorem Exact.equal_congr_right (ha : a.Exact heap) (hb : b.Exact heap) (hc : c.Exact heap)
    (h : b.equal c = true) : a.equal b = a.equal c := by
  rw [ha.equal_comm hb, ha.equal_comm hc, hb.equal_congr hc ha h]

/-- What is identical is equal, unless it is not a number. -/
theorem equal_of_isSame (hn : a.NotNaN) (h : a.isSame b = true) : a.equal b = true := by
  unfold isSame at h
  split at h
  case h_4 => rfl
  case h_5 | h_6 =>
    obtain rfl := of_decide_eq_true h
    exact equalBy_of_alikeBy (.numbers rfl rfl (decide_eq_true rfl))
  case h_7 x y =>
    obtain rfl := of_decide_eq_true h
    exact equalBy_of_alikeBy (.numbers rfl rfl (Double.equal_iff.mpr ⟨hn x rfl, hn x rfl, rfl⟩))
  case h_11 | h_12 | h_13 | h_15 =>
    exact equalBy_of_alikeBy (.plain rfl (of_decide_eq_true h ▸ rfl))
  case h_16 => cases h
  all_goals exact equalBy_of_shares (.intro rfl rfl rfl h)

/-- Maps of one kind with the same entries, in any order. -/
inductive Reordered : Value → Value → Prop where
  | assocArrays {h k : Handle} {es fs : List (String × String)} (hp : es.Perm fs) :
      Reordered (assocArray h es) (assocArray k fs)
  | dicts {h k : Handle} {es fs : List (Key × Value)} (hp : es.Perm fs) :
      Reordered (dict h es) (dict k fs)

theorem Reordered.equal (h : Reordered a b) (ha : a.Exact heap) (hb : b.Exact heap) :
    a.equal b = true := by
  rw [ha.equal_iff hb]
  cases h with
  | assocArrays hp => exact .assocArrays (.of_perm hp ha.kept.here.keys fun _ _ => rfl)
  | dicts hp =>
    exact .dicts (.of_perm hp ha.kept.here.keys fun e he =>
      (ha.child (List.mem_map_of_mem he)).equal_refl)

/-- **Equality is an equivalence.** Of values as a heap holds them, without floats: identical values
are equal, the shortcut for shared allocations changes no answer, and no answer depends on the order
of the entries of a map. -/
theorem equal_lawful (ha : a.Exact heap) (hb : b.Exact heap) (hc : c.Exact heap) :
    a.equal a = true ∧ (a.equal b = true → b.equal a = true) ∧
      (a.equal b = true → b.equal c = true → a.equal c = true) ∧
      (a.isSame b = true → a.equal b = true) ∧
      (Reordered a b → a.equal c = b.equal c) ∧ a.equal b = a.alike b :=
  ⟨ha.equal_refl, ha.equal_symm hb, ha.equal_trans hb hc, equal_of_isSame ha.noFloat.here.notNaN,
    fun h => ha.equal_congr hb hc (h.equal ha hb), ha.equal_eq_alike hb⟩

end Laws

/-- Two dicts with a list in common, their entries in different order, and one with a list of its own
in which `1` stands for `true`. -/
theorem equal_lawful_dicts :
    let shared := list ⟨[1]⟩ [bool true, str ⟨[2]⟩ "x"]
    let a := dict ⟨[0]⟩ [(.int 1, shared), (.str "k", range ⟨0, 3⟩)]
    let b := dict ⟨[3]⟩ [(.str "k", range ⟨0, 3⟩), (.int 1, shared)]
    let c := dict ⟨[4]⟩ [(.int 1, list ⟨[5]⟩ [int 1, str ⟨[6]⟩ "x"]), (.str "k", range ⟨0, 3⟩)]
    ∃ heap, a.Exact heap ∧ b.Exact heap ∧ c.Exact heap ∧ Reordered a b ∧ a.equal a = true ∧
      b.equal a = true ∧ a.equal c = true ∧ shared.equal shared = true ∧ a.equal c = b.equal c ∧
      a.equal b = a.alike b := by
  intro shared a b c
  let heap : Handle → Value := fun h =>
    if h = ⟨[0]⟩ then a else if h = ⟨[1]⟩ then shared else if h = ⟨[2]⟩ then str ⟨[2]⟩ "x"
    else if h = ⟨[3]⟩ then b else if h = ⟨[4]⟩ then c
    else if h = ⟨[5]⟩ then list ⟨[5]⟩ [int 1, str ⟨[6]⟩ "x"] else str ⟨[6]⟩ "x"
  have hshared : shared.Exact heap :=
    .ofList rfl (by simpa [shared] using ⟨.ofBool true, .ofStr rfl⟩)
  have hown : (list ⟨[5]⟩ [int 1, str ⟨[6]⟩ "x"]).Exact heap :=
    .ofList rfl (by simpa using ⟨.ofInt 1, .ofStr rfl⟩)
  have ha : a.Exact heap :=
    .ofDict rfl (by decide) (by simpa using ⟨hshared, .ofRange _⟩)
  have hb : b.Exact heap :=
    .ofDict rfl (by decide) (by simpa using ⟨.ofRange _, hshared⟩)
  have hc : c.Exact heap :=
    .ofDict rfl (by decide) (by simpa using ⟨hown, .ofRange _⟩)
  have hab : Reordered a b := .dicts (.swap _ _ _)
  have hequal : a.equal b = true := rfl
  have hequal' : b.equal c = true := rfl
  obtain ⟨-, hsymm, htrans, -, hreordered, halike⟩ := equal_lawful ha hb hc
  obtain ⟨hrefl, -, -, -, -, -⟩ := equal_lawful ha ha ha
  obtain ⟨-, -, -, hsame, -, -⟩ := equal_lawful hshared hshared ha
  exact ⟨heap, ha, hb, hc, hab, hrefl, hsymm hequal, htrans hequal hequal', hsame rfl,
    hreordered hab, halike⟩

end Value

end ShellExpr
