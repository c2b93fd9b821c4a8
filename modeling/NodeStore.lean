import NodeStore.Assoc
import NodeStore.Binary64
import NodeStore.Binary64.Decimal
import NodeStore.Bytes
import NodeStore.Codec.Fixed
import NodeStore.Codec.Frame
import NodeStore.Codec.Payload
import NodeStore.Engine.Answer
import NodeStore.Engine.Batch
import NodeStore.Engine.Condition
import NodeStore.Engine.Entry
import NodeStore.Engine.Error
import NodeStore.Engine.Fault
import NodeStore.Engine.Links
import NodeStore.Engine.Match
import NodeStore.Engine.Memory
import NodeStore.Engine.Number
import NodeStore.Engine.Order
import NodeStore.Engine.Payload
import NodeStore.Engine.Scan
import NodeStore.Engine.Store
import NodeStore.Engine.Tally
import NodeStore.Hash.Mix
import NodeStore.Hash.Sha256
import NodeStore.KeySet
import NodeStore.Limits
import NodeStore.Proofs.Codec.Canonical
import NodeStore.Proofs.Codec.CompiledValues
import NodeStore.Proofs.Codec.MainBlock
import NodeStore.Proofs.Codec.RoundTrip
import NodeStore.Proofs.Engine.Collections
import NodeStore.Proofs.Engine.Contents
import NodeStore.Proofs.Engine.Descriptors
import NodeStore.Proofs.Engine.Entry
import NodeStore.Proofs.Engine.Execution
import NodeStore.Proofs.Engine.Linking
import NodeStore.Proofs.Engine.MainBlocks
import NodeStore.Proofs.Engine.Number
import NodeStore.Proofs.Engine.Records
import NodeStore.Proofs.Engine.Relations
import NodeStore.Proofs.Engine.Relinks
import NodeStore.Proofs.Engine.Runs
import NodeStore.Proofs.Engine.Scans
import NodeStore.Proofs.Engine.Selectors
import NodeStore.Proofs.Engine.Shape
import NodeStore.Proofs.Engine.StoredValues
import NodeStore.Proofs.Engine.Termination
import NodeStore.Proofs.Inversion
import NodeStore.Proofs.Query.Answered
import NodeStore.Proofs.Query.Comparisons
import NodeStore.Proofs.Query.Conditions
import NodeStore.Proofs.Query.Evaluation
import NodeStore.Proofs.Query.Everything
import NodeStore.Proofs.Query.Filters
import NodeStore.Proofs.Query.Grammar
import NodeStore.Proofs.Query.Groups
import NodeStore.Proofs.Query.Included
import NodeStore.Proofs.Query.Integers
import NodeStore.Proofs.Query.Meaning
import NodeStore.Proofs.Query.Ordering
import NodeStore.Proofs.Query.Results
import NodeStore.Proofs.Query.Vectors
import NodeStore.Proofs.Record.Paths
import NodeStore.Proofs.Result.Aggregates
import NodeStore.Proofs.Result.GroupCounts
import NodeStore.Proofs.Result.GroupLabels
import NodeStore.Proofs.Result.Grouping
import NodeStore.Proofs.Result.Localized
import NodeStore.Proofs.Result.Names
import NodeStore.Proofs.Result.Paging
import NodeStore.Proofs.Result.Reading
import NodeStore.Proofs.Result.TextOrder
import NodeStore.Proofs.Schema.Addresses
import NodeStore.Proofs.Schema.Descriptions
import NodeStore.Proofs.Schema.Fingerprints
import NodeStore.Proofs.Schema.FreeNames
import NodeStore.Proofs.Schema.InverseOrder
import NodeStore.Proofs.Schema.Inverses
import NodeStore.Proofs.Schema.LayoutOrder
import NodeStore.Proofs.Schema.Packing
import NodeStore.Proofs.Schema.Pairs
import NodeStore.Proofs.Schema.Placement
import NodeStore.Proofs.Schema.Reciprocity
import NodeStore.Proofs.Schema.Reordering
import NodeStore.Proofs.Schema.SharedEdges
import NodeStore.Proofs.Schema.Stages
import NodeStore.Proofs.Schema.Trees
import NodeStore.Proofs.Schema.WellFormed
import NodeStore.Proofs.SortedLists
import NodeStore.Proofs.Wire.NestedItems
import NodeStore.Proofs.Wire.Reservations
import NodeStore.Proofs.Wire.RoundTrip
import NodeStore.Proofs.Write.Addressing
import NodeStore.Proofs.Write.Agreement
import NodeStore.Proofs.Write.Assignments
import NodeStore.Proofs.Write.Attempts
import NodeStore.Proofs.Write.Blocks
import NodeStore.Proofs.Write.Calls
import NodeStore.Proofs.Write.Canonical
import NodeStore.Proofs.Write.CollectionUpdates
import NodeStore.Proofs.Write.Counters
import NodeStore.Proofs.Write.Defaults
import NodeStore.Proofs.Write.Deliveries
import NodeStore.Proofs.Write.Drafts
import NodeStore.Proofs.Write.Effects
import NodeStore.Proofs.Write.Failures
import NodeStore.Proofs.Write.Fields
import NodeStore.Proofs.Write.Flushing
import NodeStore.Proofs.Write.FollowUps
import NodeStore.Proofs.Write.Handles
import NodeStore.Proofs.Write.InFlight
import NodeStore.Proofs.Write.Items
import NodeStore.Proofs.Write.KnownLinks
import NodeStore.Proofs.Write.KnownNames
import NodeStore.Proofs.Write.Ledger
import NodeStore.Proofs.Write.Leniency
import NodeStore.Proofs.Write.Lifecycle
import NodeStore.Proofs.Write.LinkRecords
import NodeStore.Proofs.Write.Nesting
import NodeStore.Proofs.Write.Nulls
import NodeStore.Proofs.Write.OneNode
import NodeStore.Proofs.Write.Queues
import NodeStore.Proofs.Write.ReadBack
import NodeStore.Proofs.Write.Recall
import NodeStore.Proofs.Write.Refusals
import NodeStore.Proofs.Write.Registries
import NodeStore.Proofs.Write.Replays
import NodeStore.Proofs.Write.Requests
import NodeStore.Proofs.Write.Settled
import NodeStore.Proofs.Write.Simulation
import NodeStore.Proofs.Write.Stores
import NodeStore.Proofs.Write.Texts
import NodeStore.Proofs.Write.Tracking
import NodeStore.Query.Aggregate
import NodeStore.Query.Block
import NodeStore.Query.Compile
import NodeStore.Query.Condition
import NodeStore.Query.Descriptor
import NodeStore.Query.Equality
import NodeStore.Query.Error
import NodeStore.Query.Filter
import NodeStore.Query.Group
import NodeStore.Query.Include
import NodeStore.Query.Plan
import NodeStore.Query.Sort
import NodeStore.Record
import NodeStore.Result.Aggregate
import NodeStore.Result.Answer
import NodeStore.Result.Instr
import NodeStore.Result.Record
import NodeStore.Schema.Compile
import NodeStore.Schema.Decl
import NodeStore.Schema.Error
import NodeStore.Schema.Fingerprint
import NodeStore.Schema.Flat
import NodeStore.Schema.Layout
import NodeStore.Schema.Locale
import NodeStore.Schema.PropType
import NodeStore.Schema.Relation
import NodeStore.Schema.Validate
import NodeStore.Text.Path
import NodeStore.Text.Printable
import NodeStore.Text.Quoted
import NodeStore.Text.Utf8
import NodeStore.Value
import NodeStore.Wire.Error
import NodeStore.Wire.Reader
import NodeStore.Wire.Writer
import NodeStore.Write.Buffer
import NodeStore.Write.Encoder
import NodeStore.Write.Error
import NodeStore.Write.Fields
import NodeStore.Write.Instr
import NodeStore.Write.Registry
import NodeStore.Write.Session
