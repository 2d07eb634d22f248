import LinearRegex.CharClass
import LinearRegex.CharSet.Basic
import LinearRegex.CharSet.Sequences
import LinearRegex.Command.Arguments
import LinearRegex.Command.Invocation
import LinearRegex.Command.Output
import LinearRegex.Config.Basic
import LinearRegex.Expr.Basic
import LinearRegex.Expr.Bracket
import LinearRegex.Expr.Cursor
import LinearRegex.Expr.Drawing
import LinearRegex.Expr.Error
import LinearRegex.Expr.Escape
import LinearRegex.Expr.Group
import LinearRegex.Expr.Options
import LinearRegex.Expr.Parser
import LinearRegex.Expr.Quantifier
import LinearRegex.Haystack
import LinearRegex.Json.Number
import LinearRegex.Json.Reading
import LinearRegex.Json.Text
import LinearRegex.Look
import LinearRegex.Main
import LinearRegex.Program.Assembly
import LinearRegex.Program.Basic
import LinearRegex.Program.ByteExpr
import LinearRegex.Program.ByteSet
import LinearRegex.Program.ByteTrie
import LinearRegex.Program.Code
import LinearRegex.Program.Instr
import LinearRegex.Program.LiteralPrefix
import LinearRegex.Program.Marks
import LinearRegex.Program.OnePass
import LinearRegex.Program.Summary
import LinearRegex.Proofs.CharSet.Classes
import LinearRegex.Proofs.CharSet.Complement
import LinearRegex.Proofs.CharSet.Encoding
import LinearRegex.Proofs.CharSet.Folding
import LinearRegex.Proofs.CharSet.Order
import LinearRegex.Proofs.Command.Spans
import LinearRegex.Proofs.Expr.Braces
import LinearRegex.Proofs.Expr.Counts
import LinearRegex.Proofs.Expr.Cursor
import LinearRegex.Proofs.Expr.Denotation
import LinearRegex.Proofs.Expr.Faults
import LinearRegex.Proofs.Expr.Folded
import LinearRegex.Proofs.Expr.Height
import LinearRegex.Proofs.Expr.ModeGroups
import LinearRegex.Proofs.Expr.Nesting
import LinearRegex.Proofs.Expr.Nodes
import LinearRegex.Proofs.Expr.Numbering
import LinearRegex.Proofs.Expr.Parts
import LinearRegex.Proofs.Expr.Positions
import LinearRegex.Proofs.Expr.Quotations
import LinearRegex.Proofs.Expr.Quoted
import LinearRegex.Proofs.Expr.Reading
import LinearRegex.Proofs.Expr.Shape
import LinearRegex.Proofs.Expr.Steps
import LinearRegex.Proofs.Expr.Ways
import LinearRegex.Proofs.Expr.WellFormed
import LinearRegex.Proofs.Expr.Within
import LinearRegex.Proofs.Matcher.Calls
import LinearRegex.Proofs.Matcher.Enumeration
import LinearRegex.Proofs.Matcher.Queries
import LinearRegex.Proofs.Matcher.Succession
import LinearRegex.Proofs.Program.Assembly
import LinearRegex.Proofs.Program.Automaton
import LinearRegex.Proofs.Program.Compile
import LinearRegex.Proofs.Program.Graph
import LinearRegex.Proofs.Program.Groups
import LinearRegex.Proofs.Program.Numbering
import LinearRegex.Proofs.Program.Order
import LinearRegex.Proofs.Program.Placed
import LinearRegex.Proofs.Program.Reach
import LinearRegex.Proofs.Program.Regular
import LinearRegex.Proofs.Program.Shape
import LinearRegex.Proofs.Program.Summary
import LinearRegex.Proofs.Program.Trie
import LinearRegex.Proofs.Program.Unrolling
import LinearRegex.Proofs.Program.WellFormed
import LinearRegex.Proofs.Regex.Captures
import LinearRegex.Proofs.Regex.CaseFolding
import LinearRegex.Proofs.Regex.Leftmost
import LinearRegex.Proofs.Regex.Limits
import LinearRegex.Proofs.Regex.Priority
import LinearRegex.Proofs.Regex.Quoting
import LinearRegex.Proofs.Regex.Repetition
import LinearRegex.Proofs.Regex.Serializing
import LinearRegex.Proofs.Regex.Span
import LinearRegex.Proofs.Regex.Splitting
import LinearRegex.Proofs.Regex.Ungrouped
import LinearRegex.Proofs.Search.Backtrack
import LinearRegex.Proofs.Search.Budget
import LinearRegex.Proofs.Search.Engine
import LinearRegex.Proofs.Search.Exits
import LinearRegex.Proofs.Search.Literal
import LinearRegex.Proofs.Search.Lockstep
import LinearRegex.Proofs.Search.Loop
import LinearRegex.Proofs.Search.OnePass
import LinearRegex.Proofs.Search.Preference
import LinearRegex.Proofs.Search.Reference
import LinearRegex.Proofs.Search.Repetition
import LinearRegex.Proofs.Search.Runs
import LinearRegex.Proofs.Search.Starts
import LinearRegex.Proofs.Search.Steps
import LinearRegex.Proofs.Search.Summaries
import LinearRegex.Proofs.Search.Tasks
import LinearRegex.Proofs.Search.Threads
import LinearRegex.Proofs.Search.Turns
import LinearRegex.Proofs.Search.Unambiguous
import LinearRegex.Proofs.Search.Unrolling
import LinearRegex.Proofs.Storage.Closure
import LinearRegex.Proofs.Storage.History
import LinearRegex.Proofs.Storage.Lockstep
import LinearRegex.Proofs.Storage.Threads
import LinearRegex.Proofs.Text.Boundaries
import LinearRegex.Proofs.Text.Offsets
import LinearRegex.Proofs.Text.Slices
import LinearRegex.Proofs.Text.Stretch
import LinearRegex.Proofs.Traversal.Basic
import LinearRegex.Proofs.Traversal.Marks
import LinearRegex.Proofs.Traversal.Paths
import LinearRegex.Proofs.Traversal.Routes
import LinearRegex.Regex.Basic
import LinearRegex.Regex.Flags
import LinearRegex.Regex.Matcher
import LinearRegex.Regex.Quote
import LinearRegex.Regex.Serialized
import LinearRegex.Regex.Split
import LinearRegex.Report.Basic
import LinearRegex.Report.Window
import LinearRegex.Search.Backtrack
import LinearRegex.Search.Engine
import LinearRegex.Search.Input
import LinearRegex.Search.Literal
import LinearRegex.Search.Lockstep
import LinearRegex.Search.Loop
import LinearRegex.Search.OnePass
import LinearRegex.Search.Step
import LinearRegex.Storage.Basic
import LinearRegex.Storage.Lockstep
import LinearRegex.Storage.Threads
import LinearRegex.Text.Digits
import LinearRegex.Text.Escaped
import LinearRegex.Text.Utf8
import LinearRegex.Toml.Document
import LinearRegex.Toml.Number
import LinearRegex.Toml.Text
import LinearRegex.Toml.Time
import LinearRegex.Toml.Value
import LinearRegex.Unicode.Category
import LinearRegex.Unicode.Folding
import LinearRegex.Unicode.Printing
import LinearRegex.Unicode.Property
import LinearRegex.Unicode.Script
import LinearRegex.Unicode.Table
import LinearRegex.Unicode.Width
