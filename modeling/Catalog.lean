import Catalog.Access.Bitstring
import Catalog.Calendar
import Catalog.Config
import Catalog.Digest.Sha256
import Catalog.Error
import Catalog.Filter.Basic
import Catalog.Filter.Clause
import Catalog.Filter.Compile
import Catalog.Filter.Like
import Catalog.Filter.Literal
import Catalog.Filter.Query
import Catalog.Filter.Reader
import Catalog.Json.Basic
import Catalog.Json.Printer
import Catalog.Json.Reader
import Catalog.Json.Record
import Catalog.Json.Token
import Catalog.Mapping
import Catalog.Metrics
import Catalog.Number.Double
import Catalog.Number.Shortest
import Catalog.Patch.Emission
import Catalog.Patch.Failure
import Catalog.Patch.Merge
import Catalog.Patch.Operation
import Catalog.Patch.Script
import Catalog.Pointer.Basic
import Catalog.Pointer.Escape
import Catalog.Pointer.Segment
import Catalog.Proofs.Access.Digits
import Catalog.Proofs.Access.Indices
import Catalog.Proofs.Access.Packed
import Catalog.Proofs.Access.Visibility
import Catalog.Proofs.Filter.Entries
import Catalog.Proofs.Filter.Escaping
import Catalog.Proofs.Filter.Faults
import Catalog.Proofs.Filter.Fields
import Catalog.Proofs.Filter.Gate
import Catalog.Proofs.Filter.Leaves
import Catalog.Proofs.Filter.Literals
import Catalog.Proofs.Filter.Meaning
import Catalog.Proofs.Filter.Preservation
import Catalog.Proofs.Filter.Reading
import Catalog.Proofs.Filter.Tokens
import Catalog.Proofs.Filter.Wildcard
import Catalog.Proofs.Json.Container
import Catalog.Proofs.Json.Leaves
import Catalog.Proofs.Json.Merge
import Catalog.Proofs.Json.Reordered
import Catalog.Proofs.Mapping.Paths
import Catalog.Proofs.Metrics.Counters
import Catalog.Proofs.Outcome
import Catalog.Proofs.Patch.Addressable
import Catalog.Proofs.Patch.Ancestors
import Catalog.Proofs.Patch.Bindings
import Catalog.Proofs.Patch.Creation
import Catalog.Proofs.Patch.Distinct
import Catalog.Proofs.Patch.Effects
import Catalog.Proofs.Patch.Flattening
import Catalog.Proofs.Patch.Guards
import Catalog.Proofs.Patch.Lines
import Catalog.Proofs.Patch.Literals
import Catalog.Proofs.Patch.Meaning
import Catalog.Proofs.Patch.Merging
import Catalog.Proofs.Patch.Moves
import Catalog.Proofs.Patch.Named
import Catalog.Proofs.Patch.Parameters
import Catalog.Proofs.Patch.Preservation
import Catalog.Proofs.Patch.Reasons
import Catalog.Proofs.Patch.Rechecks
import Catalog.Proofs.Patch.Repeats
import Catalog.Proofs.Patch.Requirements
import Catalog.Proofs.Patch.Resolved
import Catalog.Proofs.Patch.Secured
import Catalog.Proofs.Patch.Unmended
import Catalog.Proofs.Patch.Values
import Catalog.Proofs.Pointer.Keys
import Catalog.Proofs.Pointer.Names
import Catalog.Proofs.Pointer.Resolved
import Catalog.Proofs.Queryables.Access
import Catalog.Proofs.Queryables.Collapse
import Catalog.Proofs.Queryables.Crowd
import Catalog.Proofs.Queryables.Refresh
import Catalog.Proofs.Script.Access
import Catalog.Proofs.Script.Atoms
import Catalog.Proofs.Script.Chains
import Catalog.Proofs.Script.Containers
import Catalog.Proofs.Script.Cuts
import Catalog.Proofs.Script.Distinct
import Catalog.Proofs.Script.Lengths
import Catalog.Proofs.Script.Meaning
import Catalog.Proofs.Script.Mending
import Catalog.Proofs.Script.Names
import Catalog.Proofs.Script.Scan
import Catalog.Proofs.Script.Settled
import Catalog.Proofs.Script.Syntax
import Catalog.Proofs.Script.Token
import Catalog.Proofs.Service.Coherence
import Catalog.Proofs.Service.Counting
import Catalog.Proofs.Service.Gate
import Catalog.Proofs.Service.History
import Catalog.Proofs.Service.Names
import Catalog.Proofs.Service.Questions
import Catalog.Proofs.Service.Sharing
import Catalog.Proofs.Service.Traffic
import Catalog.Proofs.Service.Visits
import Catalog.Proofs.Sort
import Catalog.Proofs.Text.Blank
import Catalog.Proofs.Text.Lines
import Catalog.Proofs.Text.Order
import Catalog.Proofs.Text.Separated
import Catalog.Queryables.Cache
import Catalog.Queryables.Phase
import Catalog.Script.Accessor
import Catalog.Script.Expr
import Catalog.Script.Normal
import Catalog.Script.Statement
import Catalog.Service.Basic
import Catalog.Service.Call
import Catalog.Service.Run
import Catalog.Service.Session
import Catalog.Sort
import Catalog.Text.Blank
import Catalog.Text.Decimal
import Catalog.Text.Lines
import Catalog.Text.Order
import Catalog.Text.Quoted
