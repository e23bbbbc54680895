import Arkiv.Lib.Bytes
import Arkiv.Lib.Rlp
import Arkiv.IndexTree.Codec
import Arkiv.Lib.Run
import Arkiv.Model.Bitmap
import Arkiv.Model.Primitives
import Arkiv.Model.EntityRlp
import Arkiv.Model.EntityDb
import Arkiv.Model.Abi
import Arkiv.Model.PayloadReference
import Arkiv.Model.Chain
import Arkiv.Registry.Scope
import Arkiv.Registry.Postings
import Arkiv.Registry.Effect
import Arkiv.Registry.Attributes
import Arkiv.Registry.Reference
import Arkiv.Registry.Invariant
import Arkiv.Registry.Preservation
import Arkiv.Lib.Keccak
import Arkiv.DevChain.Host
import Arkiv.Registry.IdMaps
import Arkiv.Registry.Authority
import Arkiv.Registry.Freshness
import Arkiv.Registry.Pruning
import Arkiv.Registry.SingleUse
import Arkiv.Registry.Edit
import Arkiv.Registry.EventLog
import Arkiv.Registry.Support
import Arkiv.DevChain.Check
import Arkiv.Registry.Coherence
import Arkiv.Model.Query
import Arkiv.Query.Evaluation
import Arkiv.Query.Pages
import Arkiv.Registry.Isolation
import Arkiv.Model.RemoteSchedule
import Arkiv.Schedule.Agreement
import Arkiv.Registry.Failures
import Arkiv.Registry.Payments
import Arkiv.IndexTree.Shape
import Arkiv.IndexTree.Operations
import Arkiv.IndexTree.Contents
import Arkiv.IndexTree.Removal
import Arkiv.IndexTree.Enumeration
import Arkiv.IndexTree.Refinement
import Arkiv.IndexTree.Kinds
import Arkiv.Registry.Rebuild
import Arkiv.Schedule.BaseFee
import Arkiv.Model.Lexer
import Arkiv.Model.Parser
import Arkiv.Query.Spelling
import Arkiv.Query.Grammar
import Arkiv.Query.Names
import Arkiv.Model.Rpc
import Arkiv.Query.Numeric
import Arkiv.Registry.Canonical
import Arkiv.Lib.Json
import Arkiv.Registry.Binding
import Arkiv.IndexTree.Order
import Arkiv.Registry.Namespaces
import Arkiv.Lib.Threshold
import Arkiv.Schedule.Selection
import Arkiv.Lib.Text
import Arkiv.Model.SchedulePoller
import Arkiv.Schedule.Poller
import Arkiv.IndexTree.Size
import Arkiv.Lib.Checked
import Arkiv.Model.CliAttributes
import Arkiv.Cli.Attributes
import Arkiv.Model.Simulate
import Arkiv.Cli.Batches
import Arkiv.Cli.Simulation
import Arkiv.IndexTree.Format
import Arkiv.IndexTree.Accepted
import Arkiv.Registry.Charges
import Arkiv.IndexTree.Kept
import Arkiv.IndexTree.Documented
import Arkiv.Lib.Related
import Arkiv.IndexTree.Same
import Arkiv.IndexTree.RoundTrip
import Arkiv.IndexTree.Canonical
import Arkiv.IndexTree.Stored
import Arkiv.Lib.TwoTier
import Arkiv.Registry.ById
import Arkiv.Registry.IndexAccounts
import Arkiv.Registry.IndexCoherence
import Arkiv.Query.Answers
import Arkiv.Registry.Views
import Arkiv.Registry.Machine
import Arkiv.Registry.Lineage
import Arkiv.Registry.Acceptance
import Arkiv.Registry.Provenance
import Arkiv.Query.Texts
import Arkiv.Model.Requests
import Arkiv.Query.Asked
import Arkiv.Schedule.FeeChain
