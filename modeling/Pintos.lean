import Pintos.Filesys.EvictionIndex
import Pintos.Lib.Bitmap
import Pintos.Lib.KernelListRuns
import Pintos.Lib.Arithmetic
import Pintos.Lib.StdlibRuns
import Pintos.Lib.UstarPrint
import Pintos.Filesys.GrowthFailure
import Pintos.Filesys.TableRuns
import Pintos.Filesys.Paths
import Pintos.Filesys.DirectoryScan
import Pintos.Filesys.FreeMapRuns
import Pintos.Filesys.Release
import Pintos.Filesys.WriteLength
import Pintos.Filesys.FileContents
import Pintos.Filesys.Fsutil
import Pintos.Threads.Palloc
import Pintos.Threads.SchedulerFrame
import Pintos.Threads.Semaphores
import Pintos.Userprog.ProcessWait
import Pintos.Userprog.DirectoryCursor
import Pintos.Userprog.Executables
import Pintos.Userprog.PagedirDestroy
import Pintos.Threads.MallocSizes
import Pintos.Threads.PagingInit
import Pintos.Threads.MallocRuns
import Pintos.Filesys.CurrentDirs
import Pintos.Devices.PartitionScan
import Pintos.Devices.IntqRuns
import Pintos.Userprog.LoadStack
import Pintos.Userprog.SegmentTables
import Pintos.Userprog.Launch
