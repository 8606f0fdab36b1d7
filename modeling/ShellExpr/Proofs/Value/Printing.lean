import ShellExpr.Proofs.Text.Apart
import ShellExpr.Proofs.Value.Equality

/-!
# Printed data is unambiguous

Data are null, truth values, integers, strings, arrays, lists, tuples, dicts and ranges. They print
in literal syntax, and no two of them print alike. The kind of a value shows at the start of its
text, and values of one kind are told apart by their parts. So the statement to prove by induction
is one about a value with any further text behind it that can stand there: the values are the same,
and so is what follows.

* `Value.IsData`, `Value.bare`: data, and a value without its allocations.
* `Value.Follows`: what can stand behind a value.
* `Value.kindAt_write`: the kind of a value shows at the start of its text.
* `Value.IsData.apart`: data are told apart.
* `Value.text_unambiguous`: **data that print alike have the same structure**, so they are equal.
-/

namespace ShellExpr

/-! ### Data -/

namespace Value

/-- Data; a map has each key once, and the keys of a dict stand for data. -/
inductive IsData : Value → Prop where
  | null : IsData null
  | bool (b : Bool) : IsData (bool b)
  | int (n : Int64) : IsData (int n)
  | str (h : Handle) (s : String) : IsData (str h s)
  | strArray (h : Handle) (slots : List (Option String)) : IsData (strArray h slots)
  | assocArray (h : Handle) {es : List (String × String)} (hdistinct : Assoc.Distinct es) :
      IsData (assocArray h es)
  | list (h : Handle) {xs : List Value} (hitems : ∀ x ∈ xs, IsData x) : IsData (list h xs)
  | tuple (h : Handle) {xs : List Value} (hitems : ∀ x ∈ xs, IsData x) : IsData (tuple h xs)
  | dict (h : Handle) {es : List (Key × Value)} (hdistinct : Assoc.Distinct es)
      (hkeys : ∀ e ∈ es, IsData (e.1.toValue ⟨[]⟩)) (hvalues : ∀ e ∈ es, IsData e.2) :
      IsData (dict h es)
  | range (r : Range) : IsData (range r)

mutual

/-- The value without its allocations: its kind and its content, maps in their order. -/
def bare : Value → Value
  | str _ s => str ⟨[]⟩ s
  | strArray _ slots => strArray ⟨[]⟩ slots
  | assocArray _ es => assocArray ⟨[]⟩ es
  | null => null
  | bool b => bool b
  | int n => int n
  | float x => float x
  | list _ xs => list ⟨[]⟩ (bareAll xs)
  | tuple _ xs => tuple ⟨[]⟩ (bareAll xs)
  | dict _ es => dict ⟨[]⟩ (bareEntries es)
  | range r => range r
  | slice s => slice s
  | func _ name => func ⟨[]⟩ name
  | eggex _ e => eggex ⟨[]⟩ e
  | object _ type attrs => object ⟨[]⟩ type (bareAttrs attrs)

def bareAll : List Value → List Value
  | [] => []
  | v :: rest => v.bare :: bareAll rest

def bareEntries : List (Key × Value) → List (Key × Value)
  | [] => []
  | (k, v) :: rest => (k, v.bare) :: bareEntries rest

def bareAttrs : List (String × Value) → List (String × Value)
  | [] => []
  | (name, v) :: rest => (name, v.bare) :: bareAttrs rest

end

theorem bareAll_eq (xs : List Value) : bareAll xs = xs.map bare := by
  induction xs with
  | nil => rfl
  | cons v rest ih => rw [bareAll, ih, List.map_cons]

def bareEntry (e : Key × Value) : Key × Value := (e.1, e.2.bare)

theorem bareEntries_eq (es : List (Key × Value)) : bareEntries es = es.map bareEntry := by
  induction es with
  | nil => rfl
  | cons e rest ih => rw [bareEntries, ih, List.map_cons, bareEntry]

theorem writeAll_eq (xs : List Value) : writeAll xs = xs.map write := by
  induction xs with
  | nil => rfl
  | cons v rest ih => rw [writeAll, ih, List.map_cons]

/-- An entry of a dict. -/
def writeEntry (e : Key × Value) : List Char := e.1.write ++ colon ++ e.2.write

theorem writeEntries_eq (es : List (Key × Value)) : writeEntries es = es.map writeEntry := by
  induction es with
  | nil => rfl
  | cons e rest ih => rw [writeEntries, ih, List.map_cons, writeEntry]

mutual

/-- Allocations are not printed. -/
theorem write_bare : (v : Value) → v.bare.write = v.write
  | str .. | strArray .. | assocArray .. | null | bool _ | int _ | float _ | range _ | slice _ => rfl
  | func .. | eggex .. | object .. => rfl
  | list _ xs => congrArg (fun items => '[' :: joinWith comma items ++ [']']) (writeAll_bareAll xs)
  | tuple _ xs => congrArg writeTuple (writeAll_bareAll xs)
  | dict _ es =>
    congrArg (fun items => '{' :: joinWith comma items ++ ['}']) (writeEntries_bareEntries es)

theorem writeAll_bareAll : (xs : List Value) → writeAll (bareAll xs) = writeAll xs
  | [] => rfl
  | v :: rest => congrArg₂ List.cons (write_bare v) (writeAll_bareAll rest)

theorem writeEntries_bareEntries :
    (es : List (Key × Value)) → writeEntries (bareEntries es) = writeEntries es
  | [] => rfl
  | (k, v) :: rest => by
    rw [bareEntries, writeEntries, writeEntries, write_bare v, writeEntries_bareEntries rest]

end

/-! ### The text of a value with a text behind it -/

/-- An entry of an associative array. -/
def writeStringEntry (e : String × String) : List Char := quoted e.1 ++ colon ++ quoted e.2

section Behind

variable (h : Handle) (r : List Char)

theorem write_range_append (q : Range) :
    (range q).write ++ r = writeInt q.start ++ ':' :: (writeInt q.stop ++ r) :=
  List.append_assoc (writeInt q.start) (':' :: writeInt q.stop) r

theorem write_strArray_append (slots : List (Option String)) : (strArray h slots).write ++ r =
    ['%', '('] ++ (joinWith [' '] (slots.map writeSlot) ++ ')' :: r) :=
  List.append_assoc ('%' :: '(' :: joinWith [' '] (slots.map writeSlot)) [')'] r

theorem write_assocArray_append (es : List (String × String)) : (assocArray h es).write ++ r =
    ['%', '{'] ++ (joinWith comma (es.map writeStringEntry) ++ '}' :: r) :=
  List.append_assoc ('%' :: '{' :: joinWith comma (es.map writeStringEntry)) ['}'] r

theorem write_list_append (xs : List Value) :
    (list h xs).write ++ r = '[' :: (joinWith comma (writeAll xs) ++ ']' :: r) :=
  List.append_assoc ('[' :: joinWith comma (writeAll xs)) [']'] r

theorem write_dict_append (es : List (Key × Value)) :
    (dict h es).write ++ r = '{' :: (joinWith comma (writeEntries es) ++ '}' :: r) :=
  List.append_assoc ('{' :: joinWith comma (writeEntries es)) ['}'] r

/-- The end of a tuple, which tells a tuple of one element from a value in parentheses. -/
def tupleEnd (xs : List Value) : List Char :=
  if xs.length = 1 then [',', ')'] else [')']

theorem write_tuple_append (xs : List Value) :
    (tuple h xs).write ++ r = '(' :: (joinWith comma (writeAll xs) ++ (tupleEnd xs ++ r)) := by
  have hlength : (writeAll xs).length = xs.length := by
    rw [writeAll_eq, List.length_map]
  have htuple : (tuple h xs).write = writeTuple (writeAll xs) := rfl
  rw [htuple, writeTuple, hlength, ← tupleEnd]
  exact List.append_assoc ('(' :: joinWith comma (writeAll xs)) (tupleEnd xs) r

end Behind

end Value

/-! ### Keys as the values that they stand for -/

namespace Key

open Value

mutual

/-- A key prints as the value that it stands for. -/
theorem write_toValue (h : Handle) : (k : Key) → (k.toValue h).write = k.write
  | .null | .bool _ | .int _ | .float _ | .str _ => rfl
  | .tuple items => congrArg writeTuple (writeAll_toValues h 0 items)

theorem writeAll_toValues (h : Handle) (i : Nat) :
    (ks : List Key) → Value.writeAll (toValues h i ks) = Key.writeAll ks
  | [] => rfl
  | k :: rest =>
    congrArg₂ List.cons (write_toValue (h.child i) k) (writeAll_toValues h (i + 1) rest)

end

mutual

/-- Keys that stand for one value but for its allocations are one key. -/
theorem eq_of_bare_toValue (h h' : Handle) :
    (k l : Key) → (k.toValue h).bare = (l.toValue h').bare → k = l
  | .null, l, heq => by cases l <;> simp_all [toValue, bare]
  | .bool _, l, heq => by cases l <;> simp_all [toValue, bare]
  | .int _, l, heq => by cases l <;> simp_all [toValue, bare]
  | .float _, l, heq => by cases l <;> simp_all [toValue, bare]
  | .str _, l, heq => by cases l <;> simp_all [toValue, bare]
  | .tuple ks, l, heq => by
    cases l with
    | tuple ls =>
      have hitems : bareAll (toValues h 0 ks) = bareAll (toValues h' 0 ls) := by
        simpa [toValue, bare] using heq
      rw [eq_of_bareAll_toValues h h' 0 0 ks ls hitems]
    | _ => simp [toValue, bare] at heq

theorem eq_of_bareAll_toValues (h h' : Handle) (i j : Nat) : (ks ls : List Key) →
    bareAll (toValues h i ks) = bareAll (toValues h' j ls) → ks = ls
  | [], ls, heq => by cases ls <;> simp_all [toValues, bareAll]
  | k :: ks, ls, heq => by
    cases ls with
    | nil => simp [toValues, bareAll] at heq
    | cons l ls =>
      obtain ⟨hfirst, hrest⟩ := List.cons.inj heq
      rw [eq_of_bare_toValue _ _ k l hfirst, eq_of_bareAll_toValues h h' _ _ ks ls hrest]

end

end Key

/-! ### The kind of a value at the start of its text -/

namespace Value

open Numeral

/-- What can stand behind a value: nothing, the colon behind a key, a comma or a closing bracket. -/
inductive Follows : List Char → Prop where
  | ending : Follows []
  | colon (r : List Char) : Follows (':' :: ' ' :: r)
  | comma (r : List Char) : Follows (',' :: r)
  | bracket (r : List Char) : Follows (']' :: r)
  | parenthesis (r : List Char) : Follows (')' :: r)
  | brace (r : List Char) : Follows ('}' :: r)

theorem Follows.not_numeric {r : List Char} (h : Follows r) :
    ∀ c ∈ r.head?, isNumeric c = false := by
  intro c hc
  cases h <;> cases hc <;> rfl

theorem colon_not_numeric (r : List Char) : ∀ c ∈ (':' :: r).head?, isNumeric c = false := by
  intro c hc
  cases hc
  rfl

/-- The kind of an integer by what stands behind it: a range goes on with a colon and no blank. -/
def numberKind : List Char → String
  | ':' :: d :: _ => if d = ' ' then "Int" else "Range"
  | _ => "Int"

/-- The kind of a value that is no integer and no range by the mark it starts with. -/
def markKind : List Char → String
  | '\'' :: _ => "Str"
  | '%' :: '(' :: _ => "StrArray"
  | '%' :: '{' :: _ => "AssocArray"
  | 'n' :: _ => "Null"
  | 't' :: _ => "Bool"
  | 'f' :: _ => "Bool"
  | '[' :: _ => "List"
  | '(' :: _ => "Tuple"
  | '{' :: _ => "Dict"
  | _ => ""

/-- The kind of the value that a text starts with; empty if no value does so. -/
def kindAt (cs : List Char) : String :=
  match cs with
  | [] => ""
  | c :: rest => if isNumeric c then numberKind (rest.dropWhile isNumeric) else markKind cs

theorem writeInt_eq_cons (n : Int64) :
    ∃ c rest, writeInt n = c :: rest ∧ isNumeric c = true ∧ ∀ d ∈ rest, isNumeric d = true := by
  have hall : ∀ c ∈ writeInt n, isNumeric c = true := fun c hc => isNumeric_of_mem_decimal hc
  have hne : writeInt n ≠ [] := by
    unfold writeInt decimal
    split
    · exact List.cons_ne_nil _ _
    · exact digits_ne_nil _ _
  obtain ⟨c, rest, hcons⟩ := List.exists_cons_of_ne_nil hne
  rw [hcons] at hall
  exact ⟨c, rest, hcons, hall c List.mem_cons_self, fun d hd => hall d (List.mem_cons_of_mem _ hd)⟩

theorem kindAt_writeInt (n : Int64) {r : List Char} (hr : ∀ c ∈ r.head?, isNumeric c = false) :
    kindAt (writeInt n ++ r) = numberKind r := by
  obtain ⟨c, rest, hcons, hc, hrest⟩ := writeInt_eq_cons n
  have hdrop : (rest ++ r).dropWhile isNumeric = r := by
    rw [List.dropWhile_append_of_pos hrest]
    cases r with
    | nil => rfl
    | cons d r => exact List.dropWhile_cons_of_neg (by simp [hr d rfl])
  rw [hcons, List.cons_append, kindAt, if_pos hc, hdrop]

theorem numberKind_of_follows {r : List Char} (h : Follows r) : numberKind r = "Int" := by
  cases h <;> rfl

theorem numberKind_writeInt (n : Int64) (r : List Char) :
    numberKind (':' :: (writeInt n ++ r)) = "Range" := by
  obtain ⟨c, rest, hcons, hc, -⟩ := writeInt_eq_cons n
  have hblank : c ≠ ' ' := by
    rintro rfl
    cases hc
  rw [hcons]
  exact if_neg hblank

/-- **The kind of a value shows at the start of its text.** -/
theorem kindAt_write {v : Value} (hv : v.IsData) {r : List Char} (hr : Follows r) :
    kindAt (v.write ++ r) = v.typeName := by
  cases hv with
  | int n => exact (kindAt_writeInt n hr.not_numeric).trans (numberKind_of_follows hr)
  | range q =>
    rw [write_range_append, kindAt_writeInt q.start (colon_not_numeric _), numberKind_writeInt,
      typeName]
  | bool b => cases b <;> rfl
  | _ => rfl

/-- Texts that start alike are those of values of one kind. -/
theorem IsData.typeName_eq {v w : Value} (hv : v.IsData) (hw : w.IsData) {r s : List Char}
    (hr : Follows r) (hs : Follows s) (h : v.write ++ r = w.write ++ s) :
    v.typeName = w.typeName := by
  rw [← kindAt_write hv hr, h, kindAt_write hw hs]

theorem typeName_ne_empty (v : Value) : v.typeName ≠ "" := by
  cases v <;> simp [typeName]

/-- No closing text is taken for a value. -/
theorem write_ne_closing {v : Value} (hv : v.IsData) {r t : List Char} (hr : Follows r)
    (ht : kindAt t = "") : v.write ++ r ≠ t := by
  rintro rfl
  rw [kindAt_write hv hr] at ht
  exact v.typeName_ne_empty ht

/-! ### Data told apart -/

section Apart

variable {xs ys : List Value} {es fs : List (Key × Value)} {t u : List Char}

/-- What closes the items of a list, a tuple or a dict. -/
inductive ClosesItems : List Char → Prop where
  | bracket (r : List Char) : ClosesItems (']' :: r)
  | parenthesis (r : List Char) : ClosesItems (')' :: r)
  | single (r : List Char) : ClosesItems (',' :: ')' :: r)
  | brace (r : List Char) : ClosesItems ('}' :: r)

theorem ClosesItems.kindAt_eq (h : ClosesItems t) : kindAt t = "" := by
  cases h <;> rfl

theorem ClosesItems.closes (h : ClosesItems t) : Closes Follows comma t := by
  constructor
  · cases h with
    | bracket r => exact .bracket r
    | parenthesis r => exact .parenthesis r
    | single r => exact .comma _
    | brace r => exact .brace r
  · rintro ⟨v, rfl⟩
    cases h

/-- Values with a comma between any two. -/
theorem items_apart (hxs : ∀ x ∈ xs, x.IsData) (hys : ∀ y ∈ ys, y.IsData)
    (hitems : ∀ x ∈ xs, ∀ y, y.IsData → ToldApart Follows write bare x y)
    (ht : ClosesItems t) (hu : ClosesItems u)
    (h : joinWith comma (writeAll xs) ++ t = joinWith comma (writeAll ys) ++ u) :
    bareAll xs = bareAll ys ∧ t = u := by
  rw [writeAll_eq, writeAll_eq] at h
  rw [bareAll_eq, bareAll_eq]
  refine joinWith_apart (fun x hx y hy => hitems x hx y (hys y hy)) (fun r => .comma _)
    ht.closes hu.closes ?_ ?_ h
  · intro x hx r hr
    exact write_ne_closing (hxs x hx) hr hu.kindAt_eq
  · intro y hy r hr
    exact write_ne_closing (hys y hy) hr ht.kindAt_eq

/-- An entry is told apart by its key, and behind the colon by its value. -/
theorem entry_apart {e f : Key × Value}
    (hkey : ToldApart Follows write bare (e.1.toValue ⟨[]⟩) (f.1.toValue ⟨[]⟩))
    (hvalue : ToldApart Follows write bare e.2 f.2) :
    ToldApart Follows writeEntry bareEntry e f := by
  intro r s hr hs h
  simp only [writeEntry, List.append_assoc] at h
  rw [← Key.write_toValue ⟨[]⟩ e.1, ← Key.write_toValue ⟨[]⟩ f.1] at h
  obtain ⟨hk, hrest⟩ := hkey _ _ (.colon _) (.colon _) h
  have hbehind : colon ++ (e.2.write ++ r) = colon ++ (f.2.write ++ s) := hrest
  obtain ⟨hv, hrs⟩ := hvalue r s hr hs (List.append_cancel_left hbehind)
  exact ⟨Prod.ext (Key.eq_of_bare_toValue _ _ _ _ hk) hv, hrs⟩

theorem entries_apart (hes : ∀ e ∈ es, (e.1.toValue ⟨[]⟩).IsData)
    (hfs : ∀ f ∈ fs, (f.1.toValue ⟨[]⟩).IsData)
    (hentries : ∀ e ∈ es, ∀ f ∈ fs, ToldApart Follows writeEntry bareEntry e f)
    (ht : ClosesItems t) (hu : ClosesItems u)
    (h : joinWith comma (writeEntries es) ++ t = joinWith comma (writeEntries fs) ++ u) :
    bareEntries es = bareEntries fs ∧ t = u := by
  have hstart : ∀ {e : Key × Value} {v : List Char}, (e.1.toValue ⟨[]⟩).IsData → ClosesItems v →
      ∀ r, writeEntry e ++ r ≠ v := by
    intro e v he hv r
    rw [writeEntry, List.append_assoc, List.append_assoc, ← Key.write_toValue ⟨[]⟩ e.1]
    exact write_ne_closing he (.colon _) hv.kindAt_eq
  rw [writeEntries_eq, writeEntries_eq] at h
  rw [bareEntries_eq, bareEntries_eq]
  exact joinWith_apart hentries (fun r => .comma _) ht.closes hu.closes
    (fun e he r _ => hstart (hes e he) hu r) (fun f hf r _ => hstart (hfs f hf) ht r) h

theorem slot_apart (a b : Option String) : ToldApart (fun _ => True) writeSlot id a b := by
  intro r s _ _ h
  cases a with
  | none =>
    cases b with
    | none => exact ⟨rfl, List.append_cancel_left h⟩
    | some b => exact absurd (List.cons.inj h).1 (by decide)
  | some a =>
    cases b with
    | none => exact absurd (List.cons.inj h).1 (by decide)
    | some b =>
      obtain ⟨rfl, hrs⟩ := quoted_apart h
      exact ⟨rfl, hrs⟩

/-- The slots of an array up to its closing parenthesis; a hole is no string. -/
theorem slots_apart {as bs : List (Option String)} {r s : List Char}
    (h : joinWith [' '] (as.map writeSlot) ++ ')' :: r =
      joinWith [' '] (bs.map writeSlot) ++ ')' :: s) : as = bs ∧ r = s := by
  refine joinWith_apart_closed slot_apart ?_ ?_ h
  · intro v w hv
    exact absurd (List.cons.inj hv).1 (by decide)
  · intro a v w ha
    cases a <;> exact absurd (List.cons.inj ha).1 (by decide)

theorem stringEntry_apart (e f : String × String) :
    ToldApart (fun _ => True) writeStringEntry id e f := by
  intro r s _ _ h
  simp only [writeStringEntry, List.append_assoc] at h
  obtain ⟨hkey, hrest⟩ := quoted_apart h
  obtain ⟨hvalue, hrs⟩ := quoted_apart (List.append_cancel_left hrest)
  exact ⟨Prod.ext hkey hvalue, hrs⟩

/-- The entries of an associative array up to its closing brace. -/
theorem stringEntries_apart {es fs : List (String × String)} {r s : List Char}
    (h : joinWith comma (es.map writeStringEntry) ++ '}' :: r =
      joinWith comma (fs.map writeStringEntry) ++ '}' :: s) : es = fs ∧ r = s := by
  refine joinWith_apart_closed stringEntry_apart ?_ ?_ h
  · intro v w hv
    exact absurd (List.cons.inj hv).1 (by decide)
  · intro e v w he
    exact absurd (List.cons.inj he).1 (by decide)

theorem closesItems_tupleEnd (xs : List Value) (r : List Char) :
    ClosesItems (tupleEnd xs ++ r) := by
  unfold tupleEnd
  split
  · exact .single r
  · exact .parenthesis r

/-- **Data are told apart**, whatever stands behind them. -/
theorem IsData.apart {a : Value} (ha : a.IsData) :
    ∀ b : Value, b.IsData → ToldApart Follows write bare a b := by
  -- the kinds agree, so in each case the other value is of the same kind
  induction ha with
  | null =>
    intro b hb r s hr hs h
    have hkind := IsData.typeName_eq .null hb hr hs h
    cases hb with
    | null => exact ⟨rfl, List.append_cancel_left h⟩
    | _ => simp [typeName] at hkind
  | bool p =>
    intro b hb r s hr hs h
    have hkind := IsData.typeName_eq (.bool p) hb hr hs h
    cases hb with
    | bool q =>
      cases p <;> cases q
      · exact ⟨rfl, List.append_cancel_left h⟩
      · exact absurd (List.cons.inj h).1 (by decide)
      · exact absurd (List.cons.inj h).1 (by decide)
      · exact ⟨rfl, List.append_cancel_left h⟩
    | _ => simp [typeName] at hkind
  | int m =>
    intro b hb r s hr hs h
    have hkind := IsData.typeName_eq (.int m) hb hr hs h
    cases hb with
    | int n =>
      obtain ⟨hmn, hrs⟩ := decimal_apart hr.not_numeric hs.not_numeric h
      exact ⟨by rw [Int64.toInt_inj.mp hmn], hrs⟩
    | _ => simp [typeName] at hkind
  | str h' x =>
    intro b hb r s hr hs h
    have hkind := IsData.typeName_eq (.str h' x) hb hr hs h
    cases hb with
    | str k y =>
      obtain ⟨rfl, hrs⟩ := quoted_apart h
      exact ⟨rfl, hrs⟩
    | _ => simp [typeName] at hkind
  | strArray h' as =>
    intro b hb r s hr hs h
    have hkind := IsData.typeName_eq (.strArray h' as) hb hr hs h
    cases hb with
    | strArray k bs =>
      rw [write_strArray_append, write_strArray_append] at h
      obtain ⟨rfl, hrs⟩ := slots_apart (List.append_cancel_left h)
      exact ⟨rfl, hrs⟩
    | _ => simp [typeName] at hkind
  | assocArray h' hdistinct =>
    intro b hb r s hr hs h
    have hkind := IsData.typeName_eq (.assocArray h' hdistinct) hb hr hs h
    cases hb with
    | assocArray k hdistinct' =>
      rw [write_assocArray_append, write_assocArray_append] at h
      obtain ⟨rfl, hrs⟩ := stringEntries_apart (List.append_cancel_left h)
      exact ⟨rfl, hrs⟩
    | _ => simp [typeName] at hkind
  | list h' hitems ih =>
    intro b hb r s hr hs h
    have hkind := IsData.typeName_eq (.list h' hitems) hb hr hs h
    cases hb with
    | list k hitems' =>
      rw [write_list_append, write_list_append] at h
      obtain ⟨hbare, hrs⟩ := items_apart hitems hitems' ih (.bracket r) (.bracket s)
        (List.cons.inj h).2
      exact ⟨by rw [bare, bare, hbare], (List.cons.inj hrs).2⟩
    | _ => simp [typeName] at hkind
  | tuple h' hitems ih =>
    intro b hb r s hr hs h
    have hkind := IsData.typeName_eq (.tuple h' hitems) hb hr hs h
    cases hb with
    | tuple k hitems' =>
      rw [write_tuple_append, write_tuple_append] at h
      obtain ⟨hbare, hend⟩ := items_apart hitems hitems' ih (closesItems_tupleEnd _ r)
        (closesItems_tupleEnd _ s) (List.cons.inj h).2
      have hlen := congrArg List.length hbare
      rw [bareAll_eq, bareAll_eq, List.length_map, List.length_map] at hlen
      rw [tupleEnd, tupleEnd, hlen] at hend
      exact ⟨by rw [bare, bare, hbare], List.append_cancel_left hend⟩
    | _ => simp [typeName] at hkind
  | dict h' hdistinct hkeys hvalues ihkeys ihvalues =>
    intro b hb r s hr hs h
    have hkind := IsData.typeName_eq (.dict h' hdistinct hkeys hvalues) hb hr hs h
    cases hb with
    | dict k hdistinct' hkeys' hvalues' =>
      rw [write_dict_append, write_dict_append] at h
      obtain ⟨hbare, hrs⟩ := entries_apart hkeys hkeys'
        (fun e he f hf => entry_apart (ihkeys e he _ (hkeys' f hf)) (ihvalues e he _ (hvalues' f hf)))
        (.brace r) (.brace s) (List.cons.inj h).2
      exact ⟨by rw [bare, bare, hbare], (List.cons.inj hrs).2⟩
    | _ => simp [typeName] at hkind
  | range p =>
    intro b hb r s hr hs h
    have hkind := IsData.typeName_eq (.range p) hb hr hs h
    cases hb with
    | range q =>
      rw [write_range_append, write_range_append] at h
      obtain ⟨hstart, hrest⟩ := decimal_apart (colon_not_numeric _) (colon_not_numeric _) h
      obtain ⟨hstop, hrs⟩ := decimal_apart hr.not_numeric hs.not_numeric (List.cons.inj hrest).2
      have hpq : p = q := by
        cases p
        cases q
        exact congrArg₂ Range.mk (Int64.toInt_inj.mp hstart) (Int64.toInt_inj.mp hstop)
      exact ⟨by rw [hpq], hrs⟩
    | _ => simp [typeName] at hkind

end Apart

/-! ### Structure and equality -/

theorem forall₂_of_bareAll {R : Value → Value → Prop} {xs ys : List Value}
    (hR : ∀ x ∈ xs, ∀ y, y.IsData → x.bare = y.bare → R x y) (hys : ∀ y ∈ ys, y.IsData)
    (h : bareAll xs = bareAll ys) : List.Forall₂ R xs ys := by
  rw [bareAll_eq, bareAll_eq, ← List.forall₂_eq_eq_eq, List.forall₂_map_left_iff,
    List.forall₂_map_right_iff] at h
  exact forall₂_of_mem h fun x hx y hy => hR x hx y (hys y hy)

/-- Data of one structure are equal, whatever allocations are taken to be shared. -/
theorem IsData.equalBy_of_bare (share : Handle → Handle → Bool) {a : Value} (ha : a.IsData) :
    ∀ b : Value, b.IsData → a.bare = b.bare → equalBy share a b = true := by
  induction ha with
  | list h hitems ih =>
    intro b hb heq
    cases hb with
    | list k hitems' =>
      refine equalBy_of_alikeBy (.lists (forall₂_of_bareAll ih hitems' ?_))
      simpa [bare] using heq
    | _ => simp [bare] at heq
  | tuple h hitems ih =>
    intro b hb heq
    cases hb with
    | tuple k hitems' =>
      refine equalBy_of_alikeBy (.tuples (forall₂_of_bareAll ih hitems' ?_))
      simpa [bare] using heq
    | _ => simp [bare] at heq
  | @dict h es hdistinct hkeys hvalues ihkeys ihvalues =>
    intro b hb heq
    cases hb with
    | @dict k fs hdistinct' hkeys' hvalues' =>
      have hentries : es.map bareEntry = fs.map bareEntry := by
        rw [← bareEntries_eq, ← bareEntries_eq]
        simpa [bare] using heq
      have hlen : es.length = fs.length := by
        simpa using congrArg List.length hentries
      refine equalBy_of_alikeBy (.dicts ⟨hlen, fun e he => ?_⟩)
      -- the entry at the same place has the same key, and no other entry has it
      have hmem : bareEntry e ∈ fs.map bareEntry := by
        rw [← hentries]
        exact List.mem_map.mpr ⟨e, he, rfl⟩
      obtain ⟨f, hf, hfe⟩ := List.mem_map.mp hmem
      obtain ⟨hkey, hvalue⟩ : f.1 = e.1 ∧ f.2.bare = e.2.bare := Prod.ext_iff.mp hfe
      have hget : Assoc.get? e.1 fs = some f.2 := by
        rw [Assoc.get?_eq_some_iff hdistinct', ← hkey]
        exact hf
      exact ⟨f.2, hget, ihvalues e he f.2 (hvalues' f hf) hvalue.symm⟩
    | _ => simp [bare] at heq
  | @assocArray h es hdistinct =>
    intro b hb heq
    cases hb with
    | @assocArray k fs hdistinct' =>
      obtain rfl : es = fs := by simpa [bare] using heq
      exact equalBy_of_alikeBy (.assocArrays (.of_perm (.refl _) hdistinct fun _ _ => rfl))
    | _ => simp [bare] at heq
  | bool p =>
    intro b hb heq
    cases hb with
    | bool q =>
      obtain rfl : p = q := by simpa [bare] using heq
      exact equalBy_of_alikeBy (.numbers rfl rfl (decide_eq_true rfl))
    | _ => simp [bare] at heq
  | int m =>
    intro b hb heq
    cases hb with
    | int n =>
      obtain rfl : m = n := by simpa [bare] using heq
      exact equalBy_of_alikeBy (.numbers rfl rfl (decide_eq_true rfl))
    | _ => simp [bare] at heq
  | _ =>
    -- what equality compares of the others is what they are but for their allocation
    intro b hb heq
    cases hb <;> first
      | exact equalBy_of_alikeBy (.plain rfl (congrArg some heq.symm))
      | simp [bare] at heq

/-- **Printed data is unambiguous.** Data print alike exactly if they have the same kinds and the
same contents, maps in the same order; such data are equal. -/
theorem text_unambiguous {a b : Value} (ha : a.IsData) (hb : b.IsData) :
    (a.text = b.text ↔ a.bare = b.bare) ∧ (a.text = b.text → a.equal b = true) := by
  have hiff : a.text = b.text ↔ a.bare = b.bare := by
    constructor
    · intro h
      have hwrite : a.write ++ [] = b.write ++ [] := by
        rw [List.append_nil, List.append_nil]
        exact String.ofList_inj.mp h
      exact (ha.apart b hb [] [] .ending .ending hwrite).1
    · intro h
      rw [text, text, ← write_bare a, h, write_bare]
  exact ⟨hiff, fun h => ha.equalBy_of_bare _ b hb (hiff.mp h)⟩

/-- A list with a string of quotes, a comma and a newline, and the same list elsewhere. They print
alike; with the empty string twice in place of that string, the list prints differently. -/
theorem text_unambiguous_quotes :
    let rest (h : Handle) := [tuple h [strArray h [none, some "\\"]],
      dict h [(.tuple [.int (-1), .null], range ⟨0, 3⟩), (.str ":", assocArray h [(")", "null")])]]
    let a := list ⟨[0]⟩ (str ⟨[1]⟩ "',\n '" :: rest ⟨[2]⟩)
    let b := list ⟨[3]⟩ (str ⟨[4]⟩ "',\n '" :: rest ⟨[5]⟩)
    let c := list ⟨[0]⟩ (str ⟨[1]⟩ "" :: str ⟨[1]⟩ "" :: rest ⟨[2]⟩)
    a.IsData ∧ b.IsData ∧ c.IsData ∧ a.text = b.text ∧ a.equal b = true ∧ a.text ≠ c.text := by
  intro rest a b c
  have hrest : ∀ h : Handle, ∀ v ∈ rest h, v.IsData := by
    intro h v hv
    obtain rfl | rfl : v = tuple h [strArray h [none, some "\\"]] ∨ v = dict h _ := by
      simpa [rest] using hv
    · exact .tuple h (by simpa using .strArray h _)
    · refine .dict h (by simp [Assoc.Distinct]) ?_ ?_
      · have hkey : ((Key.tuple [.int (-1), .null]).toValue ⟨[]⟩).IsData :=
          .tuple _ (by simpa [Key.toValues, Key.toValue] using ⟨.int _, .null⟩)
        simpa using ⟨hkey, .str _ _⟩
      · simpa using ⟨.range _, .assocArray h (by decide)⟩
  have ha : a.IsData := .list _ (List.forall_mem_cons.mpr ⟨.str _ _, hrest _⟩)
  have hb : b.IsData := .list _ (List.forall_mem_cons.mpr ⟨.str _ _, hrest _⟩)
  have hc : c.IsData :=
    .list _ (List.forall_mem_cons.mpr ⟨.str _ _, List.forall_mem_cons.mpr ⟨.str _ _, hrest _⟩⟩)
  have hab : a.text = b.text := (text_unambiguous ha hb).1.mpr rfl
  have hac : a.bare ≠ c.bare := by simp [a, c, bare, bareAll]
  exact ⟨ha, hb, hc, hab, (text_unambiguous ha hb).2 hab,
    fun h => hac ((text_unambiguous ha hc).1.mp h)⟩

end Value

end ShellExpr
