import Ceph.Mds.Capability
import Ceph.Mon.ElectionSafety
import Ceph.Mon.Paxos.SingleEpoch
import Ceph.Osd.ReplicaLog
import Ceph.Osd.RollbackCursor
import Ceph.Osd.LogIndex
import Ceph.Osd.PastIntervals
import Ceph.Osd.PgFamily
import Ceph.Include.IntervalRefinement
import Ceph.Include.FragPartition
import Ceph.Osd.PurgedSnaps
import Ceph.Osd.SnapTrim
import Ceph.Crush.PermCache
import Ceph.Crush.Placement
import Ceph.Include.DencLba
import Ceph.BlueStore.ExtentRefCount
import Ceph.Crush.Reweight
import Ceph.BlueStore.BlobUnused
import Ceph.BlueStore.CollectionPages
import Ceph.Osdc.StriperExtents
import Ceph.ErasureCode.Lrc
import Ceph.Common.BloomFilter
import Ceph.Common.BitVectorArrays
import Ceph.Osd.UpmapClean
