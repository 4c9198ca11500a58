import CocoonFs.NodeIds
import CocoonFs.CappedTrees
import CocoonFs.CreateOpen
import CocoonFs.IndexEnumerate
import CocoonFs.IndexInsert
import CocoonFs.ExtentsList
import CocoonFs.TrimScript
import CocoonFs.AuthDigestsScript
import CocoonFs.BitmapFileUpdates
import CocoonFs.AuthTreeUpdates
import CocoonFs.JournalScripts
import CocoonFs.SemaphoreOrder
import CocoonFs.RwLock
import CocoonFs.FutureQueueWaking
import CocoonFs.GatherScatterRoundTrip
import CocoonFs.RsaEsPadding
import CocoonFs.Pss
import CocoonFs.DrbgReference
import CocoonFs.KdfAReference
import CocoonFs.GenRandomScalar
import CocoonFs.SymCipher
import CocoonFs.IoSliceIterRuns
import CocoonFs.SparseAddExtents
import CocoonFs.BitmapResize
import CocoonFs.FindFreeSubDoublewordChunk
import CocoonFs.BitmapChunkedIter
import CocoonFs.SubwordChunkAsserts
import CocoonFs.BlockSearchCompleteness
import CocoonFs.ExtentsRangeIteration
import CocoonFs.SparseDifference
import CocoonFs.Leb128Values
import CocoonFs.ExtentPtrRoundTrips
import CocoonFs.FullwordChunkRuns
import CocoonFs.CacheOrderedContents
import CocoonFs.CacheReconfigured
import CocoonFs.HeadSubrange
import CocoonFs.PruneUnmodified
import CocoonFs.CommitIds
import CocoonFs.Checksum
import CocoonFs.IoRegionParts
import CocoonFs.SyncVecs
import CocoonFs.IndexPermutation
