import WasmDbms.Memory.Rollback
import WasmDbms.Table.RawScan
import WasmDbms.Index.Representation
import WasmDbms.Lib.Sorted
import WasmDbms.Db.Reader
import WasmDbms.Db.Planner
import WasmDbms.Db.Descendants
import WasmDbms.Db.Alone
import WasmDbms.Db.Columns
import WasmDbms.Db.NestedLoop
import WasmDbms.Migration.Drift
import WasmDbms.Migration.Matching
import WasmDbms.KeyValue.Recovery
import WasmDbms.KeyValue.Canonical
import WasmDbms.Index.KeyCodec
import WasmDbms.Db.SanitizeUpdate
import WasmDbms.Index.Progress
import WasmDbms.Index.View
import WasmDbms.Table.FreeSegmentsCover
import WasmDbms.Db.NullReferences
import WasmDbms.Db.SelectOrder
import WasmDbms.Db.Collect
import WasmDbms.Db.OverlayView
import WasmDbms.Db.AggregateRun
import WasmDbms.Table.LedgerCodecs
import WasmDbms.Db.InstantOverflow
import WasmDbms.Db.Like
import WasmDbms.Db.SumOverflow
import WasmDbms.Db.AggregateNames
import WasmDbms.Db.JoinedFilter
import WasmDbms.Db.KeyCopy
import WasmDbms.KeyValue.Damage
import WasmDbms.Sql.Coerce
import WasmDbms.Sql.Rendering
import WasmDbms.Db.JsonPath
import WasmDbms.Json.Order
import WasmDbms.Json.Contains
import WasmDbms.Json.Extract
import WasmDbms.Db.Constraint
import WasmDbms.Db.Materialize
import WasmDbms.Index.KeyDecoder
import WasmDbms.Migration.SnapshotDecoding
import WasmDbms.Db.IndexOverlayExact
import WasmDbms.Db.Requests
import WasmDbms.Db.EagerLoading
import WasmDbms.Migration.Settled
