import Reifier.Comment
import Reifier.Diagnostic.Basic
import Reifier.Diagnostic.Snippet
import Reifier.Directive
import Reifier.Expr.Basic
import Reifier.Expr.Printer
import Reifier.JsonValue
import Reifier.Library
import Reifier.Name
import Reifier.NameSet
import Reifier.Number.Binary64
import Reifier.Number.Literal
import Reifier.Parser.Basic
import Reifier.Program.Basic
import Reifier.Program.Parser
import Reifier.Program.Printer
import Reifier.Proofs.Directive
import Reifier.Proofs.Expr.Occurrence
import Reifier.Proofs.Expr.Plain
import Reifier.Proofs.Expr.Unambiguous
import Reifier.Proofs.Import.Balance
import Reifier.Proofs.Import.Reading
import Reifier.Proofs.Import.RoundTrip
import Reifier.Proofs.Import.Spelling
import Reifier.Proofs.Import.Taking
import Reifier.Proofs.Name
import Reifier.Proofs.Number
import Reifier.Proofs.Parser.Agreement
import Reifier.Proofs.Parser.Balance
import Reifier.Proofs.Parser.Bounds
import Reifier.Proofs.Parser.Excerpt
import Reifier.Proofs.Parser.Forward
import Reifier.Proofs.Parser.Keeps
import Reifier.Proofs.Parser.Placement
import Reifier.Proofs.Parser.Reading
import Reifier.Proofs.Parser.Rejection
import Reifier.Proofs.Parser.Relayout
import Reifier.Proofs.Parser.Simulation
import Reifier.Proofs.Parser.Taking
import Reifier.Proofs.Parser.Triple
import Reifier.Proofs.Parser.Yields
import Reifier.Proofs.Program.Agreement
import Reifier.Proofs.Program.Alias
import Reifier.Proofs.Program.Comments
import Reifier.Proofs.Program.Composition
import Reifier.Proofs.Program.Course
import Reifier.Proofs.Program.Declarations
import Reifier.Proofs.Program.Depth
import Reifier.Proofs.Program.Endings
import Reifier.Proofs.Program.Excerpt
import Reifier.Proofs.Program.Extent
import Reifier.Proofs.Program.Faithful
import Reifier.Proofs.Program.Inside
import Reifier.Proofs.Program.Layout
import Reifier.Proofs.Program.Limit
import Reifier.Proofs.Program.Moved
import Reifier.Proofs.Program.Names
import Reifier.Proofs.Program.Nodes
import Reifier.Proofs.Program.Numbers
import Reifier.Proofs.Program.OfSource
import Reifier.Proofs.Program.Order
import Reifier.Proofs.Program.Parameters
import Reifier.Proofs.Program.Patches
import Reifier.Proofs.Program.Patching
import Reifier.Proofs.Program.Places
import Reifier.Proofs.Program.Relayout
import Reifier.Proofs.Program.Rendering
import Reifier.Proofs.Program.Reports
import Reifier.Proofs.Program.Safety
import Reifier.Proofs.Program.Simulation
import Reifier.Proofs.Program.Splices
import Reifier.Proofs.Program.Stripping
import Reifier.Proofs.Program.Unplaced
import Reifier.Proofs.Program.Weaving
import Reifier.Proofs.Program.Written
import Reifier.Proofs.Scope
import Reifier.Proofs.Scope.Bases
import Reifier.Proofs.Scope.Calls
import Reifier.Proofs.Session.Driving
import Reifier.Proofs.Session.Hygiene
import Reifier.Proofs.Session.LibraryImport
import Reifier.Proofs.Session.Nested
import Reifier.Proofs.Session.Refusal
import Reifier.Proofs.Session.Replacement
import Reifier.Proofs.Session.Settled
import Reifier.Proofs.Session.Traces
import Reifier.Proofs.SourceUnit
import Reifier.Proofs.SourceUnit.Imports
import Reifier.Proofs.SourceUnit.Participation
import Reifier.Proofs.SourceUnit.Refusal
import Reifier.Proofs.SourceUnit.Spliced
import Reifier.Proofs.SourceUnit.Verbatim
import Reifier.Proofs.Text.Escapes
import Reifier.Proofs.Text.Quoted
import Reifier.Proofs.Text.Slices
import Reifier.Proofs.Token.Boundary
import Reifier.Proofs.Token.Excerpt
import Reifier.Proofs.Token.Kinds
import Reifier.Proofs.Token.Lexemes
import Reifier.Proofs.Token.Lexing
import Reifier.Proofs.Token.Lookahead
import Reifier.Proofs.Token.Moved
import Reifier.Proofs.Token.Number
import Reifier.Proofs.Token.Patterns
import Reifier.Proofs.Token.Pieces
import Reifier.Proofs.Token.Places
import Reifier.Proofs.Token.Plain
import Reifier.Proofs.Token.Rereading
import Reifier.Proofs.Token.Runs
import Reifier.Proofs.Token.Tiling
import Reifier.Proofs.Token.Words
import Reifier.Proofs.TypeExpr.Agreement
import Reifier.Proofs.TypeExpr.Alone
import Reifier.Proofs.TypeExpr.Balance
import Reifier.Proofs.TypeExpr.Building
import Reifier.Proofs.TypeExpr.Components
import Reifier.Proofs.TypeExpr.Degrading
import Reifier.Proofs.TypeExpr.Depth
import Reifier.Proofs.TypeExpr.Endings
import Reifier.Proofs.TypeExpr.Exact
import Reifier.Proofs.TypeExpr.Excerpt
import Reifier.Proofs.TypeExpr.Faithful
import Reifier.Proofs.TypeExpr.Forms
import Reifier.Proofs.TypeExpr.Functions
import Reifier.Proofs.TypeExpr.Levels
import Reifier.Proofs.TypeExpr.Moved
import Reifier.Proofs.TypeExpr.Naming
import Reifier.Proofs.TypeExpr.Objects
import Reifier.Proofs.TypeExpr.OfSource
import Reifier.Proofs.TypeExpr.Offending
import Reifier.Proofs.TypeExpr.Openers
import Reifier.Proofs.TypeExpr.Paths
import Reifier.Proofs.TypeExpr.Plain
import Reifier.Proofs.TypeExpr.Reading
import Reifier.Proofs.TypeExpr.References
import Reifier.Proofs.TypeExpr.Refusal
import Reifier.Proofs.TypeExpr.Relayout
import Reifier.Proofs.TypeExpr.Simulation
import Reifier.Proofs.TypeExpr.Spelling
import Reifier.Proofs.TypeExpr.Unambiguous
import Reifier.Proofs.TypeExpr.Unplaced
import Reifier.Scope
import Reifier.Session
import Reifier.Settings
import Reifier.SourceUnit
import Reifier.Text.Blank
import Reifier.Text.Hex
import Reifier.Text.Quoted
import Reifier.Text.Search
import Reifier.Text.Span
import Reifier.Token.Basic
import Reifier.Token.Lexeme
import Reifier.Token.Lexer
import Reifier.TypeExpr.Basic
import Reifier.TypeExpr.Parser
import Reifier.TypeExpr.Reify
