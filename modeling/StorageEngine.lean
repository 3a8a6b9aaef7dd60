import StorageEngine.Lib.Transition
import StorageEngine.Lib.RefCount
import StorageEngine.Lib.Json
import StorageEngine.Lib.JsonTree
import StorageEngine.Metadata.Repository
import StorageEngine.Metadata.Spec
import StorageEngine.Metadata.Txn
import StorageEngine.Metadata.References
import StorageEngine.Metadata.Conservation
import StorageEngine.Gc.Daemon
import StorageEngine.Gc.Tombstones
import StorageEngine.Gc.Grace
import StorageEngine.Metadata.ReadBack
import StorageEngine.Concurrency.Statements
import StorageEngine.Concurrency.Deletes
import StorageEngine.Concurrency.Claims
import StorageEngine.Concurrency.Serial
import StorageEngine.Cluster.Worker
import StorageEngine.Lib.Wire
import StorageEngine.Metadata.Placement
import StorageEngine.Cluster.Protocol
import StorageEngine.Cluster.InFlight
import StorageEngine.Cluster.Durability
import StorageEngine.Gc.Purging
import StorageEngine.Gc.Recovery
import StorageEngine.Metadata.StoredArray
import StorageEngine.Concurrency.Snapshot
import StorageEngine.Client.Download
import StorageEngine.Client.ProgressLog
import StorageEngine.Cluster.ChunkFile
import StorageEngine.ControlPlane.FileNames
import StorageEngine.Concurrency.Layout
import StorageEngine.Concurrency.Routing
import StorageEngine.ControlPlane.Uploads
import StorageEngine.Client.Upload
import StorageEngine.Client.Resume
import StorageEngine.Client.Replication
import StorageEngine.Client.DownloadFile
import StorageEngine.Cluster.Cloud
import StorageEngine.Cluster.RoundTrip
import StorageEngine.Metadata.ShardMap
import StorageEngine.Metadata.Sealing
import StorageEngine.Client.Correlation
import StorageEngine.Client.Dispatch
import StorageEngine.Client.LocalDisk
import StorageEngine.Client.DownloadedFile
import StorageEngine.Client.TransferBytes
import StorageEngine.Client.Restart
import StorageEngine.Metadata.Balance
import StorageEngine.Client.TornLog
import StorageEngine.ControlPlane.Session
import StorageEngine.ControlPlane.Api
import StorageEngine.ControlPlane.Access
import StorageEngine.ControlPlane.Accounts
import StorageEngine.ControlPlane.Rpc
import StorageEngine.ControlPlane.Telemetry
import StorageEngine.ControlPlane.Unread
import StorageEngine.Lib.Daemon
import StorageEngine.ControlPlane.Shutdown
import StorageEngine.Client.AuthToken
import StorageEngine.Lib.InputStream
import StorageEngine.Lib.Paths
import StorageEngine.Client.Slicer
import StorageEngine.Lib.ThreadPool
import StorageEngine.Client.HashPipeline
import StorageEngine.Client.HashSchedules
import StorageEngine.Cluster.Reservations
import StorageEngine.Cluster.Encryption
import StorageEngine.Cluster.ChunkStore
import StorageEngine.Cluster.Confinement
