import ShaderMinifier.Outline
import ShaderMinifier.Program.Compiler
import ShaderMinifier.ShortName.Block
import ShaderMinifier.ShortName.Search
import ShaderMinifier.Proofs.Lists
import ShaderMinifier.Proofs.Text.Lexeme
import ShaderMinifier.Proofs.Text.Spelling
import ShaderMinifier.Proofs.Grammar.Reply
import ShaderMinifier.Proofs.Grammar.Token
import ShaderMinifier.Proofs.Expr.Shape
import ShaderMinifier.Proofs.Text.Clean
import ShaderMinifier.Proofs.Expr.Spelling
import ShaderMinifier.Proofs.Expr.Operand
import ShaderMinifier.Proofs.Expr.Reading
import ShaderMinifier.Proofs.Expr.Parsed
import ShaderMinifier.Proofs.Declaration.Shape
import ShaderMinifier.Proofs.Declaration.Parsed
import ShaderMinifier.Proofs.Declaration.Reading
import ShaderMinifier.Proofs.Statement.Shape
import ShaderMinifier.Proofs.Statement.Parsed
import ShaderMinifier.Proofs.Statement.Reading
import ShaderMinifier.Proofs.Item.Line
import ShaderMinifier.Proofs.Item.Shape
import ShaderMinifier.Proofs.Item.Parsed
import ShaderMinifier.Proofs.Item.Reading
import ShaderMinifier.Proofs.RoundTrip
import ShaderMinifier.Proofs.Expr.Room
import ShaderMinifier.Proofs.Gates
import ShaderMinifier.Proofs.Grammar.Compare
import ShaderMinifier.Proofs.Statement.Compare
import ShaderMinifier.Proofs.Statement.Written
import ShaderMinifier.Proofs.Site.Coverage
import ShaderMinifier.Proofs.Site.Nesting
import ShaderMinifier.Proofs.Site.Relabel
import ShaderMinifier.Proofs.Site.Restore
import ShaderMinifier.Proofs.Variable.Capture
import ShaderMinifier.Proofs.ShortName
import ShaderMinifier.Proofs.ShortName.Enumeration
import ShaderMinifier.Proofs.ShortName.Search
import ShaderMinifier.Proofs.Sorting
import ShaderMinifier.Proofs.Variable.Group
import ShaderMinifier.Proofs.Variable.Allocation
import ShaderMinifier.Proofs.Function.Live
import ShaderMinifier.Proofs.Program.Pass
import ShaderMinifier.Proofs.Function.Reachability
import ShaderMinifier.Proofs.Function.Rename
import ShaderMinifier.Proofs.Function.RenameRepeat
import ShaderMinifier.Proofs.Variable.Resolution
import ShaderMinifier.Proofs.Item.Legible
import ShaderMinifier.Proofs.Variable.Link
import ShaderMinifier.Proofs.Variable.Order
import ShaderMinifier.Proofs.Variable.Repeat
import ShaderMinifier.Proofs.Replace
import ShaderMinifier.Proofs.Site.Readable
import ShaderMinifier.Proofs.Item.Merge
import ShaderMinifier.Proofs.Program.Minified
import ShaderMinifier.Proofs.Item.Skeleton
import ShaderMinifier.Proofs.Function.Repeat
import ShaderMinifier.Proofs.Function.Selection
import ShaderMinifier.Proofs.Program.Directives
import ShaderMinifier.Proofs.Variable.Lexical
import ShaderMinifier.Proofs.Variable.Agreement
import ShaderMinifier.Proofs.Program.Outcome
import ShaderMinifier.Proofs.Variable.Plan
import ShaderMinifier.Proofs.Item.MergeNames
import ShaderMinifier.Proofs.Variable.Merge
import ShaderMinifier.Proofs.Program.Commute
import ShaderMinifier.Proofs.Site.Outer
import ShaderMinifier.Proofs.Variable.Canonical
import ShaderMinifier.Proofs.Item.Split
import ShaderMinifier.Proofs.Variable.Weight
import ShaderMinifier.Proofs.Variable.Optimal
import ShaderMinifier.Proofs.Item.Continuation
import ShaderMinifier.Proofs.Item.Balance
import ShaderMinifier.Proofs.Item.Leaves
import ShaderMinifier.Proofs.Variable.Prototype
import ShaderMinifier.Proofs.Variable.Representation
import ShaderMinifier.Proofs.Variable.Replay
import ShaderMinifier.Proofs.Expr.Chain
import ShaderMinifier.Proofs.Expr.Climbing
import ShaderMinifier.Proofs.Text.Lexed
import ShaderMinifier.Proofs.Grammar.Ledger
import ShaderMinifier.Proofs.Expr.Transcribed
import ShaderMinifier.Proofs.Declaration.Brackets
import ShaderMinifier.Proofs.Statement.Brackets
import ShaderMinifier.Proofs.Item.Brackets
import ShaderMinifier.Proofs.Grammar.Digits
import ShaderMinifier.Proofs.Text.Snug
import ShaderMinifier.Proofs.Grammar.SameLexed
import ShaderMinifier.Proofs.Expr.Snug
import ShaderMinifier.Proofs.Expr.Shortest
import ShaderMinifier.Proofs.Grammar.Value
import ShaderMinifier.Proofs.Text.Location
import ShaderMinifier.Proofs.Grammar.Within
import ShaderMinifier.Proofs.Statement.Within
import ShaderMinifier.Proofs.Located
import ShaderMinifier.Proofs.Grammar.Script
import ShaderMinifier.Proofs.Statement.Script
import ShaderMinifier.Proofs.Expr.Levels
import ShaderMinifier.Proofs.Item.Progress
import ShaderMinifier.Proofs.Halting
