import FentoOS.Fs.Bitmap
import FentoOS.Fs.Blocks
import FentoOS.Fs.Contents
import FentoOS.Fs.Create
import FentoOS.Fs.Dir
import FentoOS.Fs.DirMap
import FentoOS.Fs.Directory
import FentoOS.Fs.Disk
import FentoOS.Fs.Failures
import FentoOS.Fs.Files
import FentoOS.Fs.Growth
import FentoOS.Fs.Image
import FentoOS.Fs.Layout
import FentoOS.Fs.MapBlock
import FentoOS.Fs.Minixfs
import FentoOS.Fs.Paths
import FentoOS.Fs.Read
import FentoOS.Fs.Reclaim
import FentoOS.Fs.Remove
import FentoOS.Fs.Runs
import FentoOS.Fs.Space
import FentoOS.Fs.Tree
import FentoOS.Fs.Truncate
import FentoOS.Fs.View
import FentoOS.Fs.Volume
import FentoOS.Fs.Write
import FentoOS.Fs.Zone
import FentoOS.Kernel.Brk
import FentoOS.Kernel.Console
import FentoOS.Kernel.Core
import FentoOS.Kernel.Descriptors
import FentoOS.Kernel.File
import FentoOS.Kernel.ForkFailure
import FentoOS.Kernel.Identity
import FentoOS.Kernel.Interrupts
import FentoOS.Kernel.Keyboard
import FentoOS.Kernel.Kinship
import FentoOS.Kernel.Parents
import FentoOS.Kernel.PathJoin
import FentoOS.Kernel.PipeFifo
import FentoOS.Kernel.Proc
import FentoOS.Kernel.RefCounts
import FentoOS.Kernel.Refs
import FentoOS.Kernel.RoundRobin
import FentoOS.Kernel.RunList
import FentoOS.Kernel.Sched
import FentoOS.Kernel.Syscall
import FentoOS.Kernel.System
import FentoOS.Kernel.TaskTable
import FentoOS.Kernel.Termination
import FentoOS.Kernel.UserStack
import FentoOS.Kernel.Wakeup
import FentoOS.Kernel.Zombies
import FentoOS.Lib.BlockList
import FentoOS.Lib.Bytes
import FentoOS.Lib.CString
import FentoOS.Lib.Decimal
import FentoOS.Lib.Hierarchy
import FentoOS.Lib.Ledger
import FentoOS.Lib.Linked
import FentoOS.Lib.RefCount
import FentoOS.Lib.Register
import FentoOS.Lib.Ring
import FentoOS.Lib.Run
import FentoOS.Lib.Scan
import FentoOS.Lib.Search
import FentoOS.Lib.SortedArray
import FentoOS.Lib.Supply
import FentoOS.Lib.Word
import FentoOS.Lib.X86
import FentoOS.Mm.AddressSpaces
import FentoOS.Mm.Clone
import FentoOS.Mm.DirectMap
import FentoOS.Mm.Entries
import FentoOS.Mm.FrameBitmap
import FentoOS.Mm.Frames
import FentoOS.Mm.Heap
import FentoOS.Mm.HeapRuns
import FentoOS.Mm.Isolation
import FentoOS.Mm.MapRange
import FentoOS.Mm.Owners
import FentoOS.Mm.Paging
import FentoOS.Mm.Pmm
import FentoOS.Mm.Shortage
import FentoOS.Mm.Visible
import FentoOS.Mm.Vmm
import FentoOS.User.Assembler
import FentoOS.User.AssemblerLines
import FentoOS.User.Behaviour
import FentoOS.User.Compiler
import FentoOS.User.Editor
import FentoOS.User.EditorRuns
import FentoOS.User.Emission
import FentoOS.User.Exits
import FentoOS.User.Expr
import FentoOS.User.Interpreter
import FentoOS.User.Libc
import FentoOS.User.Literals
import FentoOS.User.Malloc
import FentoOS.User.Numbers
import FentoOS.User.Pipeline
import FentoOS.User.Program
import FentoOS.User.Rendering
import FentoOS.User.Script
import FentoOS.User.Storage
import FentoOS.User.Tokens
