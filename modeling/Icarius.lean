import Icarius.Ds.FifoRuns
import Icarius.Lib.Run
import Icarius.Scheduler.NoTaskLost
import Icarius.Memory.HeapRuns
import Icarius.Memory.Growth
import Icarius.Memory.Frames
import Icarius.Memory.HeapWindow
import Icarius.Memory.HeapUndo
import Icarius.Memory.HeapRefusal
import Icarius.Memory.BootMap
import Icarius.Memory.FrameSet
import Icarius.Memory.CreateDir
import Icarius.Process.Coherence
import Icarius.Process.List
import Icarius.Process.Lifetime
import Icarius.Process.Stacks
import Icarius.Scheduler.Discipline
import Icarius.Scheduler.RoundRobin
import Icarius.Scheduler.Wakeup
import Icarius.Fs.PathRoundTrip
import Icarius.Fs.PathMemory
import Icarius.Fs.StreamRange
import Icarius.Fs.Descriptors
import Icarius.Fs.Fat16.Names
import Icarius.Fs.Fat16.Readdir
import Icarius.Fs.Fat16.Read
import Icarius.Fs.Fat16.Search
import Icarius.Fs.Fat16.Geometry
import Icarius.Fs.Fat16.BlockCount
import Icarius.Fs.Fat16.FatMap
import Icarius.Fs.Fat16.Seek
import Icarius.Graphic.Tty
import Icarius.Syscall.Transfer
import Icarius.Libc.History
import Icarius.Libc.MallocRuns
import Icarius.Graphic.Vbe
import Icarius.Kernel.Numbers
import Icarius.Libc.Itoa
import Icarius.Libc.Printf
import Icarius.Libc.HistoryContent
import Icarius.Libc.Strtok
import Icarius.Fs.PathTokens
import Icarius.Scheduler.Dispatch
import Icarius.Graphic.Backspace
import Icarius.Scheduler.Waiting
import Icarius.Scheduler.Keyboard
import Icarius.Libc.Readline
import Icarius.Graphic.Fb
import Icarius.Graphic.VbeText
import Icarius.Process.Context
import Icarius.Kernel.Faults
import Icarius.Fs.AtaPorts
import Icarius.Fs.AtaRuns
import Icarius.Kernel.Kprintf
import Icarius.Graphic.TextLine
import Icarius.Syscall.Terminal
import Icarius.Process.List
