import LoginomDock.Git.TreeCanonical
import LoginomDock.Git.StatCacheRuns
import LoginomDock.MemFs.TreeRuns
import LoginomDock.VectorStore.Expiry
import LoginomDock.VectorStore.DeltaLog
import LoginomDock.VectorStore.IndexPublish
import LoginomDock.VectorStore.CodecAgreement
import LoginomDock.VectorIndex.RejectedFilters
import LoginomDock.Delivery.SubmittedOnce
import LoginomDock.Client.SingleFlight
import LoginomDock.Client.LosslessPages
import LoginomDock.Access.AclRuns
import LoginomDock.Access.SessionTrees
import LoginomDock.Access.BoundedTrees
import LoginomDock.Filters.ShownAndReadable
import LoginomDock.Batching.BatcherDelivery
import LoginomDock.EncryptedFs.TransparentRuns
import LoginomDock.Tenancy.ConfinedRuns
import LoginomDock.Sidecars.PendingRuns
import LoginomDock.Semantic.Retries
import LoginomDock.Git.FilteredLog
import LoginomDock.Git.RefUpdates
import LoginomDock.PathLock.AllOrNothing
import LoginomDock.OAuth.Replay
import LoginomDock.CacheFs.TreeDirectory
import LoginomDock.QueueFs.BackendsAgree
import LoginomDock.VectorStore.SchemaEvolution
import LoginomDock.VectorStore.BoundedReads
import LoginomDock.VectorIndex.CenterOrder
import LoginomDock.VectorIndex.RouteEvaluation
import LoginomDock.VectorIndex.PathRows
import LoginomDock.VectorIndex.SparseDistance
import LoginomDock.Client.RenameRuns
import LoginomDock.Client.UploadLineage
import LoginomDock.Client.NativeTables
import LoginomDock.MultiBackend.ExecuteWrite
import LoginomDock.MultiBackend.CopyState
import LoginomDock.Sidecars.RoundTrips
import LoginomDock.Memory.PortableUris
