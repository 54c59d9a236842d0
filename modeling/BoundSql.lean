import BoundSql.Cli.Arguments
import BoundSql.Cli.FileTree
import BoundSql.Compilation.Script
import BoundSql.Fragment.Expr
import BoundSql.Main
import BoundSql.Proofs.Filter.Bound
import BoundSql.Query
import BoundSql.Value.Conversion
import BoundSql.Proofs.Filter.Entries
import BoundSql.Proofs.Filter.Yield
import BoundSql.Proofs.Filter.Field
import BoundSql.Proofs.Filter.Object
import BoundSql.Proofs.Filter.Size
import BoundSql.Proofs.Filter.Grammar
import BoundSql.Proofs.Compilation.Lockstep
import BoundSql.Proofs.Filter.Alike
import BoundSql.Proofs.Filter.Lockstep
import BoundSql.Proofs.Sql.Expr
import BoundSql.Proofs.Sql.Unambiguous
import BoundSql.Proofs.Sql.Scan
import BoundSql.Proofs.Clause.Reading
import BoundSql.Proofs.Filter.Meaning
import BoundSql.Proofs.Lexeme.Agree
import BoundSql.Proofs.Lexeme.Splice
import BoundSql.Proofs.Lexeme.Screening
import BoundSql.Proofs.Lexeme.Lossless
import BoundSql.Proofs.Clause.Shape
import BoundSql.Proofs.Compilation.Ending
import BoundSql.Proofs.Filter.Cause
import BoundSql.Proofs.Filter.Refusal
import BoundSql.Proofs.Compilation.Relaxed
import BoundSql.Proofs.Filter.Relaxed
import BoundSql.Proofs.Filter.Shape
import BoundSql.Proofs.Filter.Conjuncts
import BoundSql.Proofs.Filter.Normal
import BoundSql.Proofs.Clause.Qualified
import BoundSql.Proofs.Double.Bits
import BoundSql.Proofs.Filter.Bindings
import BoundSql.Proofs.Filter.Block
import BoundSql.Proofs.Json.Cuts
import BoundSql.Proofs.Json.Integer
import BoundSql.Proofs.Json.Places
import BoundSql.Proofs.Double.Nearest
import BoundSql.Proofs.Double.Shortest
import BoundSql.Proofs.Json.Number
import BoundSql.Proofs.Json.Output
import BoundSql.Proofs.Fragment.Making
import BoundSql.Proofs.Fragment.Placeholders
import BoundSql.Proofs.Query.Replay
import BoundSql.Proofs.Compilation.Script
import BoundSql.Proofs.Filter.Place
import BoundSql.Proofs.Calendar.Instant
import BoundSql.Proofs.Lexeme.Quotation
import BoundSql.Proofs.Lexeme.Terminator
import BoundSql.Proofs.Compilation.Composed
import BoundSql.Proofs.Filter.Frame
import BoundSql.Proofs.Filter.Sentence
import BoundSql.Proofs.Json.Keys
