import Mathlib.Data.List.Basic
import ShellExpr.Syntax.Expr

/-!
# The nodes of an expression

All nodes of a tree in one list: each before those below it, and otherwise in the order in which
evaluation comes to them. What an expression mentions is read off its nodes one by one.

* `Expr.nodes`: the nodes of an expression.
* `Expr.commands`: the command substitutions that may run.
* `Expr.names`: the variables that may be read.
* `Expr.IsStraight`: nothing that skips an operand occurs.
-/

namespace ShellExpr

namespace Eggex

mutual

/-- The names of the variables spliced into a tree. -/
def splices : Eggex → List String
  | splice name => [name.text]
  | seq items => splicesAll items
  | alt items => splicesAll items
  | rep child _ => child.splices
  | group child => child.splices
  | capture child _ => child.splices
  | speck .. | token _ | word _ | posix .. | perl .. => []
  | charClass .. | primitive .. | literal .. => []

/-- The same for several trees. -/
def splicesAll : List Eggex → List String
  | [] => []
  | e :: rest => e.splices ++ splicesAll rest

end

end Eggex

namespace Expr

/-! ### Single nodes -/

/-- The command substitution that a node is, if it is one that runs. A block never runs. -/
def command? : Expr → Option CommandSub
  | commandSub sub _ => if sub.kind = .block then none else some sub
  | _ => none

/-- The name that a node spells as a constant. -/
def constName? : Expr → Option String
  | const tok _ => if tok.kind = .name then some tok.text else none
  | _ => none

/-- Whether the node spreads a sequence over arguments. -/
def isSpread : Expr → Bool
  | spread .. => true
  | _ => false

/-- The keys of a dict whose values are left out. -/
def implicitKeys : Expr → List Expr
  | dict keys values _ => ((keys.zip values).filter fun e => e.2.isImplicit).map Prod.fst
  | _ => []

/-- The variables that a node names: its own, those spliced into its eggex, or those that stand for
values left out. -/
def namesHere : Expr → List String
  | var tok _ => [tok.text]
  | eggex tree _ _ => tree.splices
  | e => e.implicitKeys.filterMap constName?

/-- Whether a node comes to all its operands, unless it fails. -/
def goesThrough : Expr → Bool
  | binary op _ _ _ _ => op ≠ .and && op ≠ .or
  | compare .. | ifExp .. => false
  | dict keys values _ => keys.length = values.length
  | _ => true

/-! ### All nodes -/

mutual

/-- The nodes of an expression, itself first. -/
def nodes (e : Expr) : List Expr :=
  e :: match e with
    | unary _ _ child _ => child.nodes
    | binary _ _ left right _ => left.nodes ++ right.nodes
    | range lower upper _ => lower.nodes ++ upper.nodes
    | slice lower upper _ => nodesOption lower ++ nodesOption upper
    | compare left links _ => left.nodes ++ nodesLinks links
    | ifExp test body orElse _ => test.nodes ++ (body.nodes ++ orElse.nodes)
    | list items _ => nodesAll items
    | tuple items _ => nodesAll items
    | dict keys values _ => nodesAll keys ++ nodesAll values
    | reserved _ parts _ => nodesAll parts
    | call func positional named _ => func.nodes ++ (nodesAll positional ++ nodesNamed named)
    | subscript obj indices _ => obj.nodes ++ nodesAll indices
    | member obj _ _ _ _ => obj.nodes
    | spread child _ => child.nodes
    | const .. | var .. | commandSub .. | array .. | word .. | implicit _ | eggex .. => []
termination_by structural e

/-- The same for several expressions. -/
def nodesAll : List Expr → List Expr
  | [] => []
  | e :: rest => e.nodes ++ nodesAll rest
termination_by structural es => es

/-- The same for an expression that may be missing. -/
def nodesOption : Option Expr → List Expr
  | none => []
  | some e => e.nodes
termination_by structural e => e

/-- The same for the links of a comparison chain. -/
def nodesLinks : List ((CompareOp × Span) × Expr) → List Expr
  | [] => []
  | (_, e) :: rest => e.nodes ++ nodesLinks rest
termination_by structural links => links

/-- The same for named arguments. -/
def nodesNamed : List (Option Token × Expr) → List Expr
  | [] => []
  | (_, e) :: rest => e.nodes ++ nodesNamed rest
termination_by structural args => args

end

/-- The command substitutions of some nodes. -/
def commandsOf (nodes : List Expr) : List CommandSub := nodes.filterMap command?

/-- The command substitutions of an expression in the order of evaluation, those of skipped operands
included. -/
def commands (e : Expr) : List CommandSub := commandsOf e.nodes

/-- The names in the variables, the splices and the values left out of an expression. -/
def names (e : Expr) : List String := e.nodes.flatMap namesHere

/-- Whether all values left out of the dicts of an expression have names as keys. -/
def ImplicitsNamed (e : Expr) : Prop := ∀ n ∈ e.nodes, ∀ k ∈ n.implicitKeys, k.constName?.isSome

/-- Whether no operator, conditional or comparison of an expression skips an operand, and its dicts
have as many keys as values. -/
def IsStraight (e : Expr) : Prop := ∀ n ∈ e.nodes, n.goesThrough

instance (e : Expr) : Decidable e.ImplicitsNamed :=
  inferInstanceAs (Decidable (∀ n ∈ e.nodes, ∀ k ∈ n.implicitKeys, k.constName?.isSome))

instance (e : Expr) : Decidable e.IsStraight :=
  inferInstanceAs (Decidable (∀ n ∈ e.nodes, n.goesThrough))

@[simp] theorem commandsOf_nil : commandsOf [] = [] := rfl

@[simp] theorem commandsOf_append (xs ys : List Expr) :
    commandsOf (xs ++ ys) = commandsOf xs ++ commandsOf ys := List.filterMap_append

/-- A node that is no command adds none. -/
theorem commandsOf_cons {e : Expr} {rest : List Expr} (h : e.command? = none) :
    commandsOf (e :: rest) = commandsOf rest := List.filterMap_cons_none h

/-- A value left out runs nothing. -/
theorem commandsOf_nodes_of_isImplicit {e : Expr} (h : e.isImplicit = true) :
    commandsOf e.nodes = [] := by
  cases e with
  | implicit span => rfl
  | _ => contradiction

/-- Blocks are not among the commands. -/
theorem kind_of_mem_commands {e : Expr} {sub : CommandSub} (h : sub ∈ e.commands) :
    sub.kind ≠ .block := by
  obtain ⟨n, -, hn⟩ := List.mem_filterMap.mp h
  cases n with
  | commandSub sub' span =>
    change (if sub'.kind = .block then none else some sub') = some sub at hn
    split at hn
    · contradiction
    · obtain rfl := Option.some.inj hn
      assumption
  | _ => contradiction

end Expr

end ShellExpr
