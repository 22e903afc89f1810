import DeltaFeed.Workspace
import DeltaFeed.Journal.Logger
import DeltaFeed.Schema.Record
import DeltaFeed.Proofs.Feed.ExactlyOnce
import DeltaFeed.Proofs.Feed.SnapshotAgreement
import DeltaFeed.Proofs.Log.Interruption
import DeltaFeed.Proofs.Feed.Completeness
import DeltaFeed.Proofs.Feed.LifeCycle
import DeltaFeed.Proofs.Log.Past
import DeltaFeed.Proofs.Feed.PointInTime
import DeltaFeed.Proofs.Change.Overlap
import DeltaFeed.Proofs.Log.MissingVersions
import DeltaFeed.Proofs.Log.Trimming
import DeltaFeed.Proofs.Feed.Retention
import DeltaFeed.Proofs.Feed.AtLeastOnce
import DeltaFeed.Proofs.Change.LastActions
import DeltaFeed.Proofs.Feed.MarkerInstants
import DeltaFeed.Proofs.Log.ReadingBack
import DeltaFeed.Proofs.Log.CommitTimes
import DeltaFeed.Proofs.Log.ActiveCommit
import DeltaFeed.Proofs.Log.MetadataInEffect
import DeltaFeed.Proofs.Log.MalformedLines
import DeltaFeed.Proofs.Log.VectorReferences
import DeltaFeed.Proofs.Feed.SessionUse
import DeltaFeed.Proofs.Log.GroupedListing
import DeltaFeed.Proofs.Log.EncodedPaths
import DeltaFeed.Proofs.Log.VersionNames
