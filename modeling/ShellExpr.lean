import ShellExpr.Assoc
import ShellExpr.Eggex.Compile
import ShellExpr.Eggex.Render
import ShellExpr.Eggex.Tree
import ShellExpr.Eval.Expr
import ShellExpr.Eval.Place
import ShellExpr.Eval.World
import ShellExpr.Fault
import ShellExpr.Glob
import ShellExpr.Host.Tables
import ShellExpr.Literal
import ShellExpr.Number.Decimal
import ShellExpr.Number.Double
import ShellExpr.Number.Integer
import ShellExpr.Number.Numeral
import ShellExpr.Number.Shortest
import ShellExpr.Operation.Access
import ShellExpr.Operation.Arithmetic
import ShellExpr.Operation.Comparison
import ShellExpr.Options
import ShellExpr.Pattern.Assembly
import ShellExpr.Pattern.Brackets
import ShellExpr.Pattern.Cache
import ShellExpr.Pattern.CharSet
import ShellExpr.Pattern.Escape
import ShellExpr.Pattern.Lexeme
import ShellExpr.Pattern.Search
import ShellExpr.Pattern.Tree
import ShellExpr.Proofs.Basics
import ShellExpr.Proofs.Eggex.ClassLiteral
import ShellExpr.Proofs.Eggex.Language
import ShellExpr.Proofs.Eggex.Meaning
import ShellExpr.Proofs.Number.Numeral
import ShellExpr.Proofs.Pattern.Language
import ShellExpr.Proofs.Pattern.Meaning
import ShellExpr.Proofs.Pattern.Cache
import ShellExpr.Proofs.Pattern.Reading
import ShellExpr.Proofs.Pattern.Search
import ShellExpr.Store
import ShellExpr.Syntax.Expr
import ShellExpr.Syntax.Operator
import ShellExpr.Syntax.Span
import ShellExpr.Syntax.Token
import ShellExpr.Syntax.Word
import ShellExpr.Text.Blank
import ShellExpr.Text.Bytes
import ShellExpr.Text.CaseFold
import ShellExpr.Text.CharClass
import ShellExpr.Text.Fields
import ShellExpr.Text.Quoted
import ShellExpr.Value.Basic
import ShellExpr.Value.Equality
import ShellExpr.Value.Key
import ShellExpr.Value.Printer
import ShellExpr.Words
import ShellExpr.Proofs.Value.Trees
import ShellExpr.Proofs.Eval.Abstraction
import ShellExpr.Proofs.Eval.Trace
import ShellExpr.Proofs.Eval.Invariant
import ShellExpr.Proofs.Eval.MatchGroups
import ShellExpr.Proofs.Eval.Limit
import ShellExpr.Proofs.Eggex.Canonical
import ShellExpr.Proofs.Eval.Canonical
import ShellExpr.Proofs.Eval.Paths
import ShellExpr.Proofs.Syntax.Nodes
import ShellExpr.Proofs.Value.Renaming
import ShellExpr.Proofs.Operation.Renaming
import ShellExpr.Proofs.Eval.Correspondence
import ShellExpr.Proofs.Eval.Coincidence
import ShellExpr.Proofs.Eval.Commands
import ShellExpr.Proofs.Eval.Calls
import ShellExpr.Proofs.Eval.Sessions
import ShellExpr.Proofs.Store.Frames
import ShellExpr.Proofs.Eggex.Leaves
import ShellExpr.Proofs.Eval.Errors
import ShellExpr.Proofs.Eval.Classified
import ShellExpr.Proofs.Glob.Loop
import ShellExpr.Proofs.Eggex.Characters
import ShellExpr.Proofs.Pattern.Numbering
import ShellExpr.Proofs.Pattern.Lexemes
import ShellExpr.Proofs.Eggex.Groups
import ShellExpr.Proofs.Eggex.Rendering
import ShellExpr.Proofs.Eggex.Substitution
import ShellExpr.Proofs.Eggex.Agreement
import ShellExpr.Proofs.Eval.Chains
import ShellExpr.Proofs.Value.Maps
import ShellExpr.Proofs.Number.Double
import ShellExpr.Proofs.Value.Equality
import ShellExpr.Proofs.Operation.Ordering
import ShellExpr.Proofs.Value.Keys
import ShellExpr.Proofs.Eval.Dicts
import ShellExpr.Proofs.Number.Integer
import ShellExpr.Proofs.Operation.Arithmetic
import ShellExpr.Proofs.Operation.Subscript
import ShellExpr.Proofs.Store.Bindings
import ShellExpr.Proofs.Eval.Unlimited
import ShellExpr.Proofs.Eval.Places
import ShellExpr.Proofs.Eval.Stages
import ShellExpr.Proofs.Syntax.Sugar
import ShellExpr.Proofs.Eval.Sugar
import ShellExpr.Proofs.Value.Copies
import ShellExpr.Proofs.Eval.Spreads
import ShellExpr.Proofs.Number.Reading
import ShellExpr.Proofs.Literal.Grammar
import ShellExpr.Proofs.Literal.Decoding
import ShellExpr.Proofs.Syntax.Spans
import ShellExpr.Proofs.Eval.Failures
import ShellExpr.Proofs.Eval.Locations
import ShellExpr.Proofs.Text.Apart
import ShellExpr.Proofs.Text.Fields
import ShellExpr.Proofs.Operation.Approximate
import ShellExpr.Proofs.Operation.Repetition
import ShellExpr.Proofs.Value.Printing
import ShellExpr.Proofs.Number.Values
import ShellExpr.Proofs.Operation.Integral
import ShellExpr.Proofs.Literal.Classes
import ShellExpr.Proofs.Options
import ShellExpr.Proofs.Value.RoundTrip
