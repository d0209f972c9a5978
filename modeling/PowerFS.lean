import PowerFS.Data.ReadBack
import PowerFS.Caps.Epoch
import PowerFS.Caps.LocalCreate
import PowerFS.Caps.Recall
import PowerFS.File.Barrier
import PowerFS.Dir.Unlink
import PowerFS.Dir.DirFsync
import PowerFS.Dir.LookupCreates
import PowerFS.Dir.ConcurrentListing
import PowerFS.Dir.AtomicOpen
import PowerFS.Net.CapGrant
import PowerFS.Net.PartialSend
import PowerFS.Net.AsyncRequest
import PowerFS.Net.SyncWait
import PowerFS.Net.Transmit
import PowerFS.Net.FlowAccounting
import PowerFS.File.Locks
import PowerFS.Net.LeaderSearch
import PowerFS.Data.Failover
import PowerFS.Data.SparseRead
import PowerFS.Data.WritebackContent
import PowerFS.Data.WritebackLifecycle
import PowerFS.Caps.FlushClasses
import PowerFS.Caps.RenewList
import PowerFS.Caps.RecallAck
import PowerFS.Net.FrameRecv
import PowerFS.Net.ResponseMatch
import PowerFS.Inline.Concurrent
import PowerFS.Inline.SizeContent
import PowerFS.File.Extend
import PowerFS.Dir.RenameRoute
import PowerFS.Xattr.AbstractMap
import PowerFS.Xattr.Flush
import PowerFS.File.StripeLease
import PowerFS.Net.RdmaBuffers
import PowerFS.Data.WritePredict
import PowerFS.Net.TopologyRefresh
import PowerFS.Net.FrameHeader
import PowerFS.Layout.ChunkCommit
import PowerFS.Layout.ParseChecked
import PowerFS.Layout.StripeAddress
import PowerFS.Data.DirectBuffers
import PowerFS.File.DirectCache
import PowerFS.Data.EcRead
