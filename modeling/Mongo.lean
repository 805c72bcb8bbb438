import Mongo.Lib.BigEndian
import Mongo.Lib.DirLex
import Mongo.Lib.Except
import Mongo.Lib.HeapAlgorithms
import Mongo.Lib.Lex
import Mongo.Lib.ListEdit
import Mongo.Lib.Loop
import Mongo.Lib.SortedMap
import Mongo.Lib.RangeList
import Mongo.Lib.StableSort
import Mongo.Lib.TaggedBound
import Mongo.Lib.Tiling
import Mongo.Lib.Trace
import Mongo.Bson.Buffer
import Mongo.Bson.Element
import Mongo.Bson.ElementSpec
import Mongo.Bson.Grammar
import Mongo.Bson.ReadSpec
import Mongo.Bson.Validate
import Mongo.Bson.ValidateSpec
import Mongo.Bson.Value
import Mongo.Storage.KeyString
import Mongo.Storage.KeyStringTypeBits
import Mongo.Storage.RecordIdSpec
import Mongo.Storage.TypeBits
import Mongo.Storage.TypeBitsSpec
import Mongo.Storage.TypeBitsBound
import Mongo.Sorter.Sorter
import Mongo.Sorter.MergeIteratorSpec
import Mongo.Sorter.SorterSpec
import Mongo.Sorter.TopKSpec
import Mongo.Sorter.Correctness
import Mongo.Query.IndexBounds
import Mongo.Query.IndexBoundsChecker
import Mongo.Query.IndexBoundsBuilder
import Mongo.Query.IndexBoundsCheckerSpec
import Mongo.Query.IntervalSpec
import Mongo.Query.UnionizeSpec
import Mongo.Query.IntervalSetSpec
import Mongo.Query.IntersectizeSpec
import Mongo.Query.ComplementSpec
import Mongo.Matcher.BitTest
import Mongo.Matcher.BitTestSpec
import Mongo.Matcher.Expression
import Mongo.Matcher.ExpressionAlgo
import Mongo.Matcher.OptimizeSpec
import Mongo.Matcher.SplitSpec
import Mongo.Repl.TopologyCoordinator
import Mongo.Repl.ReplicationCoordinator
import Mongo.Repl.ElectionSafety
import Mongo.S.ChunkVersion
import Mongo.S.ChunkVersionSpec
import Mongo.S.ChunkManager
import Mongo.S.ChunkMapViews
import Mongo.S.ShardKeyPattern
import Mongo.S.Targeting
import Mongo.S.Refresh
import Mongo.S.CollectionMetadata
import Mongo.S.CollectionMetadataSpec
import Mongo.Lib.CheckedArith
import Mongo.Util.SafeNum
import Mongo.Pipeline.SkipLimit
import Mongo.Clock.LogicalClock
import Mongo.Pipeline.SkipLimitSpec
import Mongo.Clock.LogicalClockSpec
import Mongo.Base.ParseNumber
import Mongo.Base.ParseNumberSpec
import Mongo.Repl.RollBackLocalOperations
import Mongo.Repl.RollBackLocalOperationsSpec
import Mongo.Lib.OrderStatistic
import Mongo.Repl.CommitPoint
import Mongo.Repl.CommitPointSpec
import Mongo.Ftdc.Decompressor
import Mongo.Ftdc.DecompressorSpec
import Mongo.Lib.PathTrie
import Mongo.Update.UpdateObjectNode
import Mongo.Update.Conflicts
import Mongo.Exec.IndexScan
import Mongo.Exec.IndexScanSpec
import Mongo.Lib.IterList
import Mongo.Query.LRUKeyValue
import Mongo.Query.LRUKeyValueSpec
