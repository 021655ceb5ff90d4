import Librettos.Rumpuser.Mutex
import Librettos.Rumpuser.RwLock
import Librettos.Core.LfringConc
import Librettos.Core.LfqueueSafe
import Librettos.Xen.Services
import Librettos.Xen.NetdomPackets
import Librettos.Base.Ifconfigd
import Librettos.Core.BlockNodes
import Librettos.Core.JoinSafe
import Librettos.Rumpuser.CvSignal
import Librettos.Core.SchedSafe
import Librettos.Hw.Pvclock
import Librettos.Hw.PvclockRead
import Librettos.Xen.Semaphore
import Librettos.Xen.Demux
import Librettos.Base.LwpRegistry
import Librettos.Core.Tls
import Librettos.Xen.Terminate
import Librettos.Xen.Connect
import Librettos.Rumpkern.MmanCalls
import Librettos.Core.TimeqExact
import Librettos.Hw.IntrRegister
import Librettos.Core.Deadline
import Librettos.Core.SchedCreate
import Librettos.Core.MemallocBooks
import Librettos.Core.Realloc
import Librettos.Xen.IfVirt
import Librettos.Base.ConfigWalk
import Librettos.Base.ConfigRc
import Librettos.Xen.GnttabConc
import Librettos.Xen.Gntmap
import Librettos.Xen.Bio
import Librettos.Xen.Events
import Librettos.Hw.ClockSubr
import Librettos.Xen.ServiceModule
import Librettos.Core.BmkString
import Librettos.Hw.Mul6432
import Librettos.Base.SysproxyServer
