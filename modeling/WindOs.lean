import WindOs.Data.Machine
import WindOs.Data.Loop
import WindOs.Data.Settle
import WindOs.Data.Ring
import WindOs.Data.Walk
import WindOs.Data.Tiling
import WindOs.Data.Runs
import WindOs.Data.Exact
import WindOs.Data.Bytes
import WindOs.Data.Chain
import WindOs.Data.Cells
import WindOs.Data.Rows
import WindOs.List
import WindOs.Sync.Semaphore
import WindOs.Sync.Monitor
import WindOs.Sync.MonitorInvariant
import WindOs.Sync.Handover
import WindOs.Sync.ProducerConsumer
import WindOs.Sched.Kernel
import WindOs.Sched.Blocking
import WindOs.Mm.Vma
import WindOs.Mm.PageAlloc
import WindOs.Mm.Malloc
import WindOs.Mm.MallocTiling
import WindOs.Mm.MallocRestore
import WindOs.Mm.PageBlocks
import WindOs.Mm.PageQueue
import WindOs.Mm.Paging
import WindOs.Mm.PageTables
import WindOs.Mm.Swap
import WindOs.Mm.Fault
import WindOs.Mm.Access
import WindOs.Mm.PageFields
import WindOs.Mm.PageAlias
import WindOs.Proc.Table
import WindOs.Proc.Waitpid
import WindOs.Proc.Accounting
import WindOs.Proc.Family
import WindOs.Mm.Mapping
import WindOs.Mm.Virtual
import WindOs.Mm.FaultRule
import WindOs.Mm.PageLists
import WindOs.Mm.Tlb
import WindOs.Mm.PageRefs
import WindOs.Mm.Translation
import WindOs.Mm.PageInit
import WindOs.Sync.SharedBuffer
import WindOs.Sched.RoundRobin
import WindOs.Sched.Interrupts
import WindOs.Proc.NullPointers
import WindOs.Proc.Zombie
import WindOs.Mm.AddressSpace
import WindOs.Mm.CopyMm
import WindOs.Mm.DeleteMm
import WindOs.Mm.ForkIsolation
import WindOs.Mm.Replacement
import WindOs.Mm.FaultPaths
import WindOs.Mm.RangeWalk
import WindOs.Mm.CopiedMm
import WindOs.Proc.Stack
import WindOs.Proc.Orphans
import WindOs.Mm.MallocPages
import WindOs.Mm.MallocUndone
import WindOs.Proc.ForkFailure
import WindOs.Proc.Pids
import WindOs.Libs.CString
import WindOs.Libs.Vga
import WindOs.Libs.Console
import WindOs.Libs.Stdio
import WindOs.Libs.Printf
import WindOs.Idt.Keyboard
import WindOs.Proc.ForkFrame
import WindOs.Data.RecordPtr
import WindOs.Data.Rings
import WindOs.ListOps
import WindOs.Mm.PageAddress
import WindOs.Idt.Gates
import WindOs.Idt.SystemCall
import WindOs.Mm.BootMapping
import WindOs.Proc.FirstRun
import WindOs.Boot.Bootmain
import WindOs.Debug.Backtrace
import WindOs.Libs.StringCopy
import WindOs.Libs.Screen
