import StreamQuery.Closure.Assembler
import StreamQuery.Closure.Json
import StreamQuery.Compiler
import StreamQuery.Double.Reader
import StreamQuery.Json.Reader
import StreamQuery.Stream
import StreamQuery.Tuple
import StreamQuery.Proofs.Evaluation
import StreamQuery.Proofs.Revision
import StreamQuery.Proofs.SimplifyValue
import StreamQuery.Proofs.Nodes
import StreamQuery.Proofs.Rules
import StreamQuery.Proofs.CompileRun
import StreamQuery.Proofs.CompileValue
import StreamQuery.Proofs.NormalForm
import StreamQuery.Proofs.Marks
import StreamQuery.Proofs.Idempotence
import StreamQuery.Proofs.StableSort
import StreamQuery.Proofs.Derivation
import StreamQuery.Proofs.Scoping
import StreamQuery.Proofs.Built
import StreamQuery.Proofs.Fold
import StreamQuery.Proofs.Closed
import StreamQuery.Proofs.Places
import StreamQuery.Proofs.Explain
import StreamQuery.Proofs.Freshness
import StreamQuery.Proofs.Subselects
import StreamQuery.Proofs.Substitution
import StreamQuery.Proofs.Meaning
import StreamQuery.Proofs.Steps
import StreamQuery.Proofs.Joins
import StreamQuery.Proofs.Refinement
import StreamQuery.Proofs.Holding
import StreamQuery.Proofs.Shapes
import StreamQuery.Proofs.Relabel
import StreamQuery.Proofs.Unmarked
import StreamQuery.Proofs.GroupKeys
import StreamQuery.Proofs.InlineAggregates
import StreamQuery.Proofs.Renaming
import StreamQuery.Proofs.CallRenaming
import StreamQuery.Proofs.Shifting
import StreamQuery.Proofs.Supply
import StreamQuery.Proofs.AggregateShortcuts
import StreamQuery.Proofs.Phrases
import StreamQuery.Proofs.Parameters
import StreamQuery.Proofs.Reading
import StreamQuery.Proofs.Unambiguous
import StreamQuery.Proofs.Nesting
import StreamQuery.Proofs.Following
import StreamQuery.Proofs.Sealed
import StreamQuery.Proofs.Redexes
import StreamQuery.Proofs.Limits
import StreamQuery.Proofs.Unbounded
import StreamQuery.Proofs.Exploration
import StreamQuery.Proofs.Expansion
import StreamQuery.Proofs.Quotients
import StreamQuery.Proofs.Conjunctions
import StreamQuery.Proofs.Spreading
import StreamQuery.Proofs.SourceIds
import StreamQuery.Proofs.Appending
import StreamQuery.Proofs.Columns
import StreamQuery.Proofs.Patterns
import StreamQuery.Proofs.Assembly
import StreamQuery.Proofs.Naming
import StreamQuery.Proofs.Quoting
