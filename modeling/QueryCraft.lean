import QueryCraft.CommandLine.Run
import QueryCraft.Document.Outline
import QueryCraft.Json.Reader
import QueryCraft.Main
import QueryCraft.Proofs.Number.Decimal
import QueryCraft.Proofs.Number.FloatText
import QueryCraft.Proofs.Text.Escaping
import QueryCraft.Proofs.Token.Scanning
import QueryCraft.Proofs.Token.Naming
import QueryCraft.Proofs.Token.Gluing
import QueryCraft.Proofs.Value.Nodes
import QueryCraft.Proofs.Value.Sorting
import QueryCraft.Proofs.Value.Rereading
import QueryCraft.Proofs.Value.Taking
import QueryCraft.Proofs.Document.Conditions
import QueryCraft.Proofs.Document.Mapping
import QueryCraft.Proofs.Document.Layout
import QueryCraft.Proofs.Document.Spelling
import QueryCraft.Proofs.Document.Parsing
import QueryCraft.Proofs.Document.Nesting
import QueryCraft.Proofs.Document.RoundTrip
import QueryCraft.Proofs.Document.Folding
import QueryCraft.Proofs.Document.Taking
import QueryCraft.Proofs.Executable.Taking
import QueryCraft.Proofs.Document.Reading
import QueryCraft.Proofs.Document.Sameness
import QueryCraft.Proofs.Document.Auxiliary
import QueryCraft.Proofs.Schema.Naming
import QueryCraft.Proofs.Schema.Building
import QueryCraft.Proofs.Synthesis.Visits
import QueryCraft.Proofs.Synthesis.Arena
import QueryCraft.Proofs.Synthesis.Turning
import QueryCraft.Proofs.Synthesis.Ending
import QueryCraft.Proofs.Synthesis.Traversal
import QueryCraft.Proofs.Synthesis.Building
import QueryCraft.Proofs.Synthesis.Recursion
import QueryCraft.Proofs.Synthesis.Walking
import QueryCraft.Proofs.Synthesis.Conversion
import QueryCraft.Proofs.Synthesis.Numbering
import QueryCraft.Proofs.Synthesis.Variables
import QueryCraft.Proofs.Synthesis.Naming
import QueryCraft.Proofs.Synthesis.Rereading
import QueryCraft.Proofs.Synthesis.Places
import QueryCraft.Proofs.Synthesis.Arguments
import QueryCraft.Proofs.Synthesis.Bounds
import QueryCraft.Proofs.Edit.Coercion
import QueryCraft.Proofs.Edit.Binding
import QueryCraft.Proofs.Edit.Idempotence
import QueryCraft.Proofs.Edit.Selecting
import QueryCraft.Proofs.Edit.Scoping
import QueryCraft.Proofs.Edit.Assignment
import QueryCraft.Proofs.Edit.Printability
import QueryCraft.Proofs.Edit.Commuting
import QueryCraft.Proofs.Edit.Isolation
import QueryCraft.Proofs.Schema.Steps
import QueryCraft.Proofs.Schema.Sources
import QueryCraft.Proofs.Schema.Ordering
import QueryCraft.Proofs.Schema.Acceptance
import QueryCraft.Proofs.Schema.Joining
import QueryCraft.Proofs.Schema.Keys
import QueryCraft.Proofs.Edit.Keeping
import QueryCraft.Proofs.Edit.Settling
import QueryCraft.Proofs.Edit.Locality
import QueryCraft.Proofs.Edit.Thinning
import QueryCraft.Proofs.Edit.Reaching
import QueryCraft.Proofs.Executable.Placing
import QueryCraft.Proofs.Edit.Literals
import QueryCraft.Proofs.Token.Closing
import QueryCraft.Proofs.Document.Outlining
import QueryCraft.Proofs.Value.Deriving
import QueryCraft.Proofs.Token.Strings
import QueryCraft.Proofs.Edit.Repeating
import QueryCraft.Proofs.Edit.Typing
import QueryCraft.Proofs.Edit.Orphans
import QueryCraft.Proofs.Edit.Renaming
import QueryCraft.Proofs.Document.Preorder
import QueryCraft.Proofs.Document.Visiting
import QueryCraft.Proofs.Synthesis.Depths
import QueryCraft.Proofs.Synthesis.Tasks
import QueryCraft.Proofs.Document.Occurrences
import QueryCraft.Proofs.Document.Writing
import QueryCraft.Proofs.Edit.Finding
