import BareMetal.Buddy.Allocate
import BareMetal.Buddy.Boot
import BareMetal.Buddy.BootRuns
import BareMetal.Buddy.Checked
import BareMetal.Buddy.Completeness
import BareMetal.Buddy.FreeLists
import BareMetal.Buddy.InBounds
import BareMetal.Buddy.Invariant
import BareMetal.Buddy.Level
import BareMetal.Buddy.Model
import BareMetal.Buddy.PageInit
import BareMetal.Buddy.Release
import BareMetal.Buddy.Reserve
import BareMetal.Buddy.Runs
import BareMetal.Buddy.Table
import BareMetal.CS.ByteMemory
import BareMetal.CS.Heap
import BareMetal.CS.Ledger
import BareMetal.CS.LinkedList
import BareMetal.CS.MachineInt
import BareMetal.CS.Memory
import BareMetal.CS.Namespace
import BareMetal.CS.Outcome
import BareMetal.CS.RingBuffer
import BareMetal.CS.Sink
import BareMetal.CS.Splice
import BareMetal.CS.Transition
import BareMetal.CS.Word
import BareMetal.Context.Duplicate
import BareMetal.Context.Fork
import BareMetal.Context.Frames
import BareMetal.Context.Model
import BareMetal.Context.Switching
import BareMetal.Cpio.Ends
import BareMetal.Cpio.Format
import BareMetal.Cpio.Model
import BareMetal.Cpio.ReadHeader
import BareMetal.Cpio.Walk
import BareMetal.Dtb.Format
import BareMetal.Dtb.Model
import BareMetal.Dtb.Traverse
import BareMetal.Math.Dyadic
import BareMetal.Math.Ordered
import BareMetal.Pool.Enough
import BareMetal.Pool.Exhausted
import BareMetal.Pool.Free
import BareMetal.Pool.Layout
import BareMetal.Pool.Malloc
import BareMetal.Pool.Model
import BareMetal.Pool.OpenPage
import BareMetal.Pool.Pages
import BareMetal.Pool.Runs
import BareMetal.Pool.Slots
import BareMetal.Printf.Fields
import BareMetal.Printf.Model
import BareMetal.Printf.Numbers
import BareMetal.Printf.Text
import BareMetal.Sched.Conservation
import BareMetal.Sched.Delivery
import BareMetal.Sched.Events
import BareMetal.Sched.Handler
import BareMetal.Sched.Held
import BareMetal.Sched.Idle
import BareMetal.Sched.Killed
import BareMetal.Sched.Model
import BareMetal.Sched.Places
import BareMetal.Sched.Preempt
import BareMetal.Sched.Queues
import BareMetal.Sched.Signals
import BareMetal.Sched.Waiting
import BareMetal.Strings.Model
import BareMetal.Strings.Tokens
import BareMetal.Tasks.Exec
import BareMetal.Tasks.Lifetime
import BareMetal.Tasks.Model
import BareMetal.Tasks.Reap
import BareMetal.Timer.Conservation
import BareMetal.Timer.CoreTimer
import BareMetal.Timer.Model
import BareMetal.Timer.Order
import BareMetal.Timer.Queue
import BareMetal.Uart.Model
import BareMetal.Uart.Traffic
import BareMetal.Vfs.AbsPath
import BareMetal.Vfs.AllTasks
import BareMetal.Vfs.BadFds
import BareMetal.Vfs.Boot
import BareMetal.Vfs.Buffers
import BareMetal.Vfs.ByteFile
import BareMetal.Vfs.Changes
import BareMetal.Vfs.Chdir
import BareMetal.Vfs.Copy
import BareMetal.Vfs.Covering
import BareMetal.Vfs.Create
import BareMetal.Vfs.Creation
import BareMetal.Vfs.Descriptors
import BareMetal.Vfs.Directories
import BareMetal.Vfs.Files
import BareMetal.Vfs.Growth
import BareMetal.Vfs.Handles
import BareMetal.Vfs.Initramfs
import BareMetal.Vfs.Lengths
import BareMetal.Vfs.Lookup
import BareMetal.Vfs.Mkdir
import BareMetal.Vfs.Model
import BareMetal.Vfs.Mount
import BareMetal.Vfs.MountFailure
import BareMetal.Vfs.Names
import BareMetal.Vfs.Open
import BareMetal.Vfs.Opening
import BareMetal.Vfs.Paths
import BareMetal.Vfs.Pieces
import BareMetal.Vfs.Reads
import BareMetal.Vfs.SessionMounts
import BareMetal.Vfs.SessionPaths
import BareMetal.Vfs.SessionRuns
import BareMetal.Vfs.Sessions
import BareMetal.Vfs.Shelves
import BareMetal.Vfs.StartValue
import BareMetal.Vfs.Stored
import BareMetal.Vfs.Tree
import BareMetal.Vfs.View
import BareMetal.Vfs.Views
