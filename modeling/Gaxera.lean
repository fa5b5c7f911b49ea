import Gaxera.Core.DomainConservation
import Gaxera.Capability.ForestInvariant
import Gaxera.Capability.Incremental
import Gaxera.Capability.AccountRuns
import Gaxera.Ipc.ReplyTokens
import Gaxera.Core.Priority
import Gaxera.Core.Migration
import Gaxera.Core.Roles
import Gaxera.Kernel.RevokeAuthority
import Gaxera.Kernel.Start
import Gaxera.Ipc.ReplyAuthority
import Gaxera.Kernel.Unmap
import Gaxera.Core.Timer
import Gaxera.Core.Waiters
import Gaxera.Core.WaitSetDelivery
import Gaxera.Core.WaitSetRemoval
import Gaxera.Ipc.Cleanup
import Gaxera.Kernel.Bootstrap
import Gaxera.Kernel.PageTables
import Gaxera.User.SpawnHandles
import Gaxera.User.SpawnImage
import Gaxera.User.HeapRuns
import Gaxera.User.Ramfs
import Gaxera.Core.Leases
import Gaxera.Net.Icmp
import Gaxera.Net.Frames
import Gaxera.Net.Policy
import Gaxera.Net.Resolver
import Gaxera.Storage.Extents
import Gaxera.Storage.Integrity
import Gaxera.Storage.EventLog
import Gaxera.Storage.Sessions
import Gaxera.Search.VectorIndex
import Gaxera.Search.Quantization
import Gaxera.Search.Planner
import Gaxera.Crypto.Aead
