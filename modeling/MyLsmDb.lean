import MyLsmDb.ByteOrder
import MyLsmDb.OrderedEntries
import MyLsmDb.Effect
import MyLsmDb.LittleEndian
import MyLsmDb.BinarySearch
import MyLsmDb.Records
import MyLsmDb.Sstable
import MyLsmDb.SstableExact
import MyLsmDb.Iterator
import MyLsmDb.MergeExact
import MyLsmDb.Text
import MyLsmDb.Manifest
import MyLsmDb.Wal
import MyLsmDb.Database
import MyLsmDb.TableSet
import MyLsmDb.Views
import MyLsmDb.Compaction
import MyLsmDb.Flush
import MyLsmDb.Session
import MyLsmDb.Operation
import MyLsmDb.History
import MyLsmDb.Recovery
import MyLsmDb.PlainMap
import MyLsmDb.CrashPrefix
import MyLsmDb.Gc
import MyLsmDb.Lifetime
import MyLsmDb.ManifestTrip
import MyLsmDb.Twins
import MyLsmDb.Orphans
import MyLsmDb.Schema
import MyLsmDb.SchemaTrip
import MyLsmDb.Accepted
import MyLsmDb.Registry
import MyLsmDb.Faithful
import MyLsmDb.Backup
import MyLsmDb.BackupTrip
import MyLsmDb.CompactAtomic
import MyLsmDb.Segments
import MyLsmDb.Atomicity
import MyLsmDb.Value
import MyLsmDb.OrderedValue
import MyLsmDb.Planner
import MyLsmDb.Conformance
import MyLsmDb.LogPrefix
import MyLsmDb.MergeUnion
import MyLsmDb.TableTrip
import MyLsmDb.Keys
import MyLsmDb.KeyValue
import MyLsmDb.ValueOrder
import MyLsmDb.Overlay
import MyLsmDb.Index
import MyLsmDb.EntityCore
import MyLsmDb.EntityStore
import MyLsmDb.EntityLifetime
import MyLsmDb.TransactionView
import MyLsmDb.IndexRange
import MyLsmDb.Plan
import MyLsmDb.ReadView
import MyLsmDb.IndexQuery
import MyLsmDb.Executor
import MyLsmDb.Damage
import MyLsmDb.Grouping
import MyLsmDb.ReadPaths
import MyLsmDb.CompositeExact
import MyLsmDb.PlanBounds
import MyLsmDb.KeyTrip
import MyLsmDb.Aggregates
import MyLsmDb.Unicode
import MyLsmDb.FloatExact
import MyLsmDb.Translate
import MyLsmDb.ParamExact
import MyLsmDb.LiteralExact
import MyLsmDb.BooleanExact
import MyLsmDb.Keyed
import MyLsmDb.Steady
import MyLsmDb.Cells
import MyLsmDb.CellReads
import MyLsmDb.FieldIds
import MyLsmDb.Administration
import MyLsmDb.HintCover
import MyLsmDb.PlanChoice
import MyLsmDb.Ranking
import MyLsmDb.IndexLookup
import MyLsmDb.IndexOrder
import MyLsmDb.PlanExact
import MyLsmDb.PlanAnswers
import MyLsmDb.QueryEngine
import MyLsmDb.IndexEntries
import MyLsmDb.IndexBuild
import MyLsmDb.Orderly
import MyLsmDb.Contents
import MyLsmDb.Undisturbed
import MyLsmDb.Tended
import MyLsmDb.TransactionContents
import MyLsmDb.Faultless
import MyLsmDb.StoreAnswers
