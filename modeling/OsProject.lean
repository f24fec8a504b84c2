import OsProject.AbsentPid
import OsProject.BufCoherence
import OsProject.CallRun
import OsProject.CommitBuffers
import OsProject.CommitCrash
import OsProject.ConsoleLine
import OsProject.CustomCat
import OsProject.CustomCp
import OsProject.CustomShell
import OsProject.DanglingEntries
import OsProject.DirMap
import OsProject.ExecSignals
import OsProject.FileRead
import OsProject.FlagLetters
import OsProject.ForkHandler
import OsProject.FreeList
import OsProject.GrepLines
import OsProject.Kalloc
import OsProject.KillBlocked
import OsProject.LockSched
import OsProject.LogWaiters
import OsProject.MallocOwned
import OsProject.Memmove
import OsProject.MkfsImage
import OsProject.OneCpu
import OsProject.PathWalk
import OsProject.PipeWakeup
import OsProject.Pipeline
import OsProject.PrintfAgree
import OsProject.Reclaim
import OsProject.SemCount
import OsProject.SendString
import OsProject.ShellStrings
import OsProject.Sleeplock
import OsProject.SlotReuse
import OsProject.TickSleep
import OsProject.Uart
import OsProject.UserCopy
import OsProject.UserLocks
