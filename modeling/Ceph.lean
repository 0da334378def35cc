import Ceph.Mon.Winner
import Ceph.Mon.Agreement
import Ceph.Mon.Reported
import Ceph.Mon.Behind
import Ceph.Mon.Leases
import Ceph.Mon.Pending
import Ceph.Osdc.Completion
import Ceph.Osdc.JournalOrder
import Ceph.Osd.Replies
import Ceph.Mon.ProposalNumber
import Ceph.Osdc.FlushOrder
import Ceph.Osdc.Trim
import Ceph.Include.RoundTrip
import Ceph.Msg.RemoteReset
import Ceph.Mds.IdAllocator
import Ceph.Osd.OndiskLog
import Ceph.Mds.AnchorRefs
import Ceph.Mds.Exclusion
import Ceph.Crush.Wrapper
import Ceph.Crush.Placement
import Ceph.Mds.Capability
import Ceph.Mds.AnchorStore
import Ceph.Osd.PushAcks
import Ceph.Crush.Uniform
import Ceph.Osd.StableMod
import Ceph.Osd.CompleteThru
import Ceph.Include.ForceToLeaf
import Ceph.Osd.MergeBottom
import Ceph.Osd.MergeSwap
import Ceph.Osd.PgHistory
import Ceph.Osdc.ReadReplies
import Ceph.Osdc.KernelMapping
import Ceph.Osdc.Probe
import Ceph.Osdc.MapWrite
import Ceph.Osdc.ReadFinish
import Ceph.Osdc.MapRead
import Ceph.Ebofs.Membership
import Ceph.Ebofs.ApplyWrite
import Ceph.Ebofs.MapExtents
import Ceph.Ebofs.AllocSearch
import Ceph.Ebofs.JournalCallbacks
import Ceph.Ebofs.Results
import Ceph.Include.FragFamily
import Ceph.Osd.ReqId
import Ceph.Ebofs.Revisions
import Ceph.Include.Zero
import Ceph.Include.IntervalRuns
import Ceph.Include.Compare
