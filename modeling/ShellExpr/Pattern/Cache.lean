import ShellExpr.Pattern.Search

/-!
# A matcher with a cache

An engine reads patterns and searches texts. A matcher keeps the patterns that its engine has read,
up to a capacity; a full cache is emptied before the next pattern goes in. Rejected patterns are not
kept, and a capacity of zero keeps nothing.

* `Engine.reply`: the answer to a request, without any cache.
* `Matcher.reply`: the answer to a request and the matcher after it.
* `Verdict.of`: the answer of the engine for extended regular expressions.
-/

namespace ShellExpr

/-- The answer to matching a text against a pattern. -/
inductive Verdict where
  /-- The pattern is malformed. -/
  | rejected
  | miss
  /-- The whole match and its groups. -/
  | hit (groups : List String)
deriving DecidableEq, Inhabited

namespace Verdict

/-- The answer for a pattern that was read. -/
def search (p : Pattern) (text : String) : Verdict :=
  match p.find text.toList with
  | some groups => hit (groups.map String.ofList)
  | none => miss

/-- The answer for the text of a pattern. -/
def of (pattern text : String) : Verdict :=
  match Pattern.parse? pattern.toList with
  | some p => search p text
  | none => rejected

/-- The answer that an engine gives, without the reason of a rejection. -/
def ofReply : Except ρ (Option (List String)) → Verdict
  | .ok (some groups) => hit groups
  | .ok none => miss
  | .error _ => rejected

end Verdict

/-! ### Engines -/

/-- What reads patterns and searches texts. -/
structure Engine where
  /-- The patterns that were read. -/
  Compiled : Type
  /-- Why a pattern is rejected. -/
  Rejection : Type
  compile : String → Except Rejection Compiled
  /-- The whole match and its groups, if there is a match; a group that took no part is missing. -/
  captures : Compiled → String → Option (List (Option String))

namespace Engine

/-- The engine for extended regular expressions. -/
def regular : Engine where
  Compiled := Pattern
  Rejection := Unit
  compile text :=
    match Pattern.parse? text.toList with
    | some p => .ok p
    | none => .error ()
  captures p text := (p.captures text.toList).map fun groups => groups.map (·.map String.ofList)

variable (E : Engine)

/-- The texts of the whole match and its groups, empty for a group that took no part. -/
def groups? (c : E.Compiled) (text : String) : Option (List String) :=
  (E.captures c text).map fun groups => groups.map (·.getD "")

/-- The answer to a request. -/
def reply (pattern text : String) : Except E.Rejection (Option (List String)) :=
  (E.compile pattern).map fun c => E.groups? c text

end Engine

/-! ### Matchers -/

/-- Patterns that an engine has read, by their text, at most `capacity` of them. -/
structure Matcher (E : Engine := Engine.regular) where
  capacity : Nat
  cache : List (String × E.Compiled) := []

namespace Matcher

variable {E : Engine}

/-- The cache with a pattern added. -/
def keep (m : Matcher E) (text : String) (c : E.Compiled) : Matcher E :=
  if m.capacity = 0 then m
  else if m.capacity ≤ m.cache.length then { m with cache := [(text, c)] }
  else { m with cache := Assoc.insert text c m.cache }

/-- The pattern of a text, from the cache or newly read, and the matcher after it. -/
def compile (m : Matcher E) (text : String) : Except E.Rejection E.Compiled × Matcher E :=
  match Assoc.get? text m.cache with
  | some c => (.ok c, m)
  | none =>
    match E.compile text with
    | .ok c => (.ok c, m.keep text c)
    | .error r => (.error r, m)

/-- The answer to a request and the matcher after it. -/
def reply (m : Matcher E) (pattern text : String) :
    Except E.Rejection (Option (List String)) × Matcher E :=
  let (c, m) := m.compile pattern
  (c.map fun c => E.groups? c text, m)

/-- The answers to several requests, each a pattern and a text. -/
def replies (m : Matcher E) :
    List (String × String) → List (Except E.Rejection (Option (List String)))
  | [] => []
  | (pattern, text) :: rest =>
    let (r, m) := m.reply pattern text
    r :: m.replies rest

/-- The matcher after several requests. -/
def after (m : Matcher E) : List (String × String) → Matcher E
  | [] => m
  | (pattern, text) :: rest => (m.reply pattern text).2.after rest

/-- The answers to several requests, without the reasons of rejections. -/
def answers (m : Matcher E) (requests : List (String × String)) : List Verdict :=
  (m.replies requests).map Verdict.ofReply

end Matcher

end ShellExpr
