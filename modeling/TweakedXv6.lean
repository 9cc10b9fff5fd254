import TweakedXv6.LogSpace
import TweakedXv6.SleepWake
import TweakedXv6.WaitReap
import TweakedXv6.WaitWakeup
import TweakedXv6.TimeAccount
import TweakedXv6.MallocRuns
import TweakedXv6.BioData
import TweakedXv6.LinkRuns
import TweakedXv6.MlfqAging
import TweakedXv6.MlfqSlice
import TweakedXv6.ConsoleRuns
import TweakedXv6.VirtioRuns
import TweakedXv6.PbsSelect
import TweakedXv6.PbsHistory
import TweakedXv6.PbsPriority
import TweakedXv6.KillTable
import TweakedXv6.WaitxTimes
import TweakedXv6.ShellStrings
import TweakedXv6.PipeRead
import TweakedXv6.ExecSys
import TweakedXv6.FsWalk
import TweakedXv6.Memmove
import TweakedXv6.MlfqRemove
import TweakedXv6.Strace
import TweakedXv6.GrepMatch
import TweakedXv6.GrepLines
import TweakedXv6.PbsLocks
import TweakedXv6.MkfsTrace
import TweakedXv6.MkfsRead
import TweakedXv6.Spinlock
