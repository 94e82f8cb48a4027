import JuiceMount.RespProxy.Rollback
import JuiceMount.RespProxy.StaleFills
import JuiceMount.RespProxy.WatchTracking
import JuiceMount.RespProxy.KeyNames
import JuiceMount.RespProxy.ReplyAlignment
import JuiceMount.RespProxy.FirstLinks
import JuiceMount.RespProxy.Commands
import JuiceMount.RespProxy.LeaseCoherence
import JuiceMount.RespProxy.Checkout
import JuiceMount.RespProxy.Heartbeats
import JuiceMount.RespProxy.Ownership
import JuiceMount.RespProxy.SingletonExclusion
import JuiceMount.Metadata.Retirement
import JuiceMount.Nfs.ForeignTenure
import JuiceMount.Nfs.FreeFloor
import JuiceMount.Nfs.NamespaceExclusion
import JuiceMount.Nfs.StreamDrain
import JuiceMount.Nfs.SpoolBaseColumns
import JuiceMount.Nfs.SaveHash
import JuiceMount.Nfs.InPlaceHoles
import JuiceMount.FarmQueue.ClaimScan
import JuiceMount.FarmQueue.ShardCoverage
import JuiceMount.Metadata.ScanFence
import JuiceMount.Metadata.ScanTree
import JuiceMount.Metadata.ScopedPrune
import JuiceMount.Metadata.SearchIndexExact
import JuiceMount.Metadata.CustodySafety
import JuiceMount.Nfs.FdPoolServing
import JuiceMount.Cache.DirectRead
import JuiceMount.Cache.PinStore
import JuiceMount.Cache.Qualification
import JuiceMount.AuditLog.Anchors
import JuiceMount.Manager.AutoApprove
import JuiceMount.Manager.EnrollProof
import JuiceMount.Manager.PeopleTable
import JuiceMount.Unmountd.Withdrawal
