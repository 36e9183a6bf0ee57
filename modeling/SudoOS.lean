import SudoOS.Theorems.BlockDevice
import SudoOS.Theorems.Blocking
import SudoOS.Theorems.BreakFrame
import SudoOS.Theorems.Completion
import SudoOS.Theorems.Devpts
import SudoOS.Theorems.Dma
import SudoOS.Theorems.Exec
import SudoOS.Theorems.ExitStatus
import SudoOS.Theorems.Ext4Directory
import SudoOS.Theorems.FatalExit
import SudoOS.Theorems.Futex
import SudoOS.Theorems.GroupTeardown
import SudoOS.Theorems.Handshake
import SudoOS.Theorems.Ipi
import SudoOS.Theorems.MemoryMap
import SudoOS.Theorems.Mount
import SudoOS.Theorems.Pipe
import SudoOS.Theorems.ProtectGap
import SudoOS.Theorems.RecordLock
import SudoOS.Theorems.RegularFile
import SudoOS.Theorems.Rng
import SudoOS.Theorems.Rtc
import SudoOS.Theorems.Select
import SudoOS.Theorems.Sigsuspend
import SudoOS.Theorems.Socket
import SudoOS.Theorems.StackGrowth
import SudoOS.Theorems.ThreadAdmission
import SudoOS.Theorems.Time
import SudoOS.Theorems.Tty
import SudoOS.Theorems.UserCopyRun
import SudoOS.Theorems.UserRead
import SudoOS.Theorems.VfsIdentity
import SudoOS.Theorems.VfsLinks
import SudoOS.Theorems.VfsTree
import SudoOS.Theorems.Vmalloc
import SudoOS.Theorems.WaitStatus
