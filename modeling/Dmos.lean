import Dmos.Lib.Run
import Dmos.Frame
import Dmos.Task
import Dmos.Smp
import Dmos.Schedule
import Dmos.Bringup
import Dmos.Lib.Cover
import Dmos.Proofs.Scan
import Dmos.Proofs.Steps
import Dmos.Proofs.Exclusion
import Dmos.Proofs.Boot
import Dmos.Proofs.Placement
import Dmos.Proofs.TimeSlice
import Dmos.Proofs.Starvation
import Dmos.Proofs.IdleSchedule
import Dmos.Proofs.Barrier
import Dmos.Proofs.Handoff
import Dmos.Proofs.EntryPoint
import Dmos.Gic
import Dmos.Vgic
import Dmos.Proofs.LrEncoding
import Dmos.Proofs.ListRegisters
import Dmos.Proofs.Injection
import Dmos.Lib.Cells
import Dmos.Proofs.EnableState
import Dmos.Proofs.Priorities
import Dmos.Lib.Displace
import Dmos.Proofs.Displacement
import Dmos.Exception
import Dmos.El1
import Dmos.Proofs.Dispatch
import Dmos.Lib.BitField
import Dmos.Lib.Table
import Dmos.Ept
import Dmos.Proofs.StageTwo
import Dmos.Proofs.Routing
import Dmos.Proofs.GuestAddress
import Dmos.Lib.Stride
import Dmos.Cache
import Dmos.Proofs.CacheRange
import Dmos.Lib.Bytes
import Dmos.Mmio
import Dmos.Proofs.GuestEnable
import Dmos.Proofs.MmioAccess
import Dmos.Lib.Asm
import Dmos.Hyper
import Dmos.Proofs.SwitchCode
import Dmos.Proofs.Handlers
import Dmos.Proofs.Contexts
import Dmos.Proofs.Transparency
import Dmos.Lib.Halves
import Dmos.TaskTable
import Dmos.Proofs.PackedTable
import Dmos.Proofs.Yield
import Dmos.Lib.ColorTree
import Dmos.Queue
import Dmos.Rbtree
import Dmos.Lib.SearchTree
import Dmos.Proofs.QueueChain
import Dmos.Lib.Linked
import Dmos.Proofs.QueueCheck
import Dmos.Proofs.QueueSeq
import Dmos.ListT
import Dmos.Proofs.ListSeq
import Dmos.Proofs.TreeShape
import Dmos.Proofs.Rotations
import Dmos.Proofs.InsertFix
import Dmos.Proofs.DeleteFix
import Dmos.Proofs.Descent
import Dmos.Proofs.Insert
import Dmos.Proofs.Delete
import Dmos.Proofs.SharedPool
import Dmos.Proofs.RedBlack
import Dmos.Proofs.KeyMultiset
import Dmos.Proofs.Bindings
import Dmos.Proofs.NodePool
import Dmos.Proofs.AbsentKey
import Dmos.Proofs.FixTermination
import Dmos.Bitmap
import Dmos.Proofs.BitmapSet
import Dmos.Proofs.FreeBlock
import Dmos.Lib.Ring
import Dmos.Uart
import Dmos.Proofs.Transmit
import Dmos.Proofs.Receive
import Dmos.Printf
import Dmos.Proofs.Numerals
import Dmos.Proofs.Atol
import Dmos.Proofs.Formatting
import Dmos.Proofs.Truncation
import Dmos.Proofs.Directive
import Dmos.Proofs.SignedPrint
import Dmos.Proofs.SignedRoundTrip
import Dmos.Proofs.UnsignedPrint
import Dmos.Spinlock
import Dmos.Proofs.SpinExclusion
import Dmos.Proofs.TaskFrames
import Dmos.Proofs.TaskContexts
import Dmos.Lib.Stutter
import Dmos.ScheduleSteps
import Dmos.Proofs.ScheduleRefines
import Dmos.Lib.Progress
import Dmos.Proofs.SpinProgress
import Dmos.Proofs.FormatLanguage
import Dmos.Proofs.FormatMeaning
import Dmos.Console
import Dmos.Proofs.ConsoleOutput
import Dmos.Mmu
import Dmos.Proofs.AddressSpace
import Dmos.Lib.TreeHeight
import Dmos.Proofs.TreeCost
import Dmos.Lib.ByteMemory
import Dmos.Strings
import Dmos.Proofs.Copies
import Dmos.Proofs.StringSearch
import Dmos.Proofs.StringBuild
import Dmos.Load
import Dmos.Proofs.GuestImage
import Dmos.ThreadInfo
import Dmos.Proofs.PerCore
import Dmos.Proofs.TaskOutput
