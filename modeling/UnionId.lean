import UnionId.Lib.CodeOrder
import UnionId.Lib.BigEndian
import UnionId.Lib.Float64
import UnionId.Lib.Fallible
import UnionId.Lib.Assoc
import UnionId.Lib.OrdMap
import UnionId.Lib.Posting
import UnionId.Lib.Coalesce
import UnionId.Lib.Integrity
import UnionId.Lib.Limited
import UnionId.Lib.Sorting
import UnionId.Lib.Ranking
import UnionId.Lib.KeyRange
import UnionId.Lib.Stream
import UnionId.Lib.Wire
import UnionId.Lib.PatternMatrix
import UnionId.Lib.Rounding
import UnionId.Lib.Reach
import UnionId.Lib.Grouping
import UnionId.Lib.Interruptible
import UnionId.Model.Types
import UnionId.Model.Catalog
import UnionId.Model.Coerce
import UnionId.Model.Value
import UnionId.Scalars.Decimal
import UnionId.Scalars.Temporal
import UnionId.Scalars.Rounding
import UnionId.Model.Typing
import UnionId.Model.Define
import UnionId.Model.Typed
import UnionId.Model.RowTyping
import UnionId.Model.Identity
import UnionId.Model.Finite
import UnionId.Canonical
import UnionId.OrderedKey
import UnionId.OrderedKey.Order
import UnionId.OrderedKey.Typed
import UnionId.Codec
import UnionId.Codec.RoundTrip
import UnionId.Codec.Sound
import UnionId.Matching.Pattern
import UnionId.Matching.Coverage
import UnionId.Matching.Usefulness
import UnionId.Matching.Bound
import UnionId.Matching.Exact
import UnionId.Matching.Termination
import UnionId.Db.Types
import UnionId.Db.Index
import UnionId.Db.Reference
import UnionId.Db.Rows
import UnionId.Db.Maintain
import UnionId.Db.IndexInvariant
import UnionId.Db.ReferenceKeys
import UnionId.Db.ReferenceGather
import UnionId.Db.Tables
import UnionId.Db.ReferenceSound
import UnionId.Db.ReferenceExact
import UnionId.Db.Runs
import UnionId.Db.Durable
import UnionId.Db.DurableLoad
import UnionId.Db.DurableSound
import UnionId.Lib.Lineage
import UnionId.Db.Ledger
import UnionId.Query.Expression
import UnionId.Query.Metering
import UnionId.Query.Bind
import UnionId.Query.GroupKeys
import UnionId.Query.Pipeline
import UnionId.Query.Access
import UnionId.Query.Page
import UnionId.Query.Execute
import UnionId.Query.Streaming
import UnionId.Query.Predicate
import UnionId.Query.PredicateSound
import UnionId.Query.PredicateNormal
import UnionId.Backup.Journal
import UnionId.Backup.Workflow
import UnionId.Backup.Chain
import UnionId.Engine.Script
import UnionId.Engine.Receipts
import UnionId.Engine.Execute
import UnionId.Engine.Insert
import UnionId.Engine.Atomic
import UnionId.Engine.ExactlyOnce
import UnionId.Lib.Json
import UnionId.Storage.Serde
import UnionId.Storage.Records
import UnionId.Lib.Scan
import UnionId.Storage.Posting
import UnionId.Storage.Loaded
import UnionId.Storage.Integrity
import UnionId.Lib.Buckets
import UnionId.Query.SetOperation
import UnionId.Query.RowOrder
import UnionId.Query.Window
import UnionId.Query.StreamingExact
import UnionId.Query.SameType
import UnionId.Query.Lookup
import UnionId.Query.LookupExact
import UnionId.Server.Stream
