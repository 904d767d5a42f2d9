import OSDesign.Lib.Transition
import OSDesign.Lib.ListUpdate
import OSDesign.Thread.Queue
import OSDesign.Thread.Scheduler
import OSDesign.Thread.Conservation
import OSDesign.Thread.Mutex
import OSDesign.Thread.Machine
import OSDesign.Thread.ContextIntegrity
import OSDesign.Thread.MutualExclusion
import OSDesign.VM.PageTable
import OSDesign.VM.PageKeys
import OSDesign.VM.Placement
import OSDesign.VM.Isolation
import OSDesign.Lib.ByteMemory
import OSDesign.VM.Allocator
import OSDesign.VM.BlockList
import OSDesign.VM.Disjointness
import OSDesign.FS.Disk
import OSDesign.FS.Operations
import OSDesign.FS.Catalog
import OSDesign.FS.DiskView
import OSDesign.FS.Refinement
import OSDesign.FS.Consistency
import OSDesign.FS.PathLookup
import OSDesign.VM.Memory
import OSDesign.VM.Exchange
import OSDesign.VM.Carried
import OSDesign.VM.Survival
import OSDesign.VM.Loading
import OSDesign.VM.Reservation
import OSDesign.VM.SwapIn
import OSDesign.VM.Restoration
import OSDesign.Thread.JoinExit
import OSDesign.Lib.Prog
import OSDesign.Thread.LinkedList
import OSDesign.Thread.OSObjects
import OSDesign.Thread.NewQueues
import OSDesign.Thread.QueueOrder
import OSDesign.Thread.CallResults
import OSDesign.VM.Layout
import OSDesign.VM.VictimPage
import OSDesign.VM.BlockLinks
import OSDesign.VM.PageMove
import OSDesign.VM.SwapFile
import OSDesign.VM.SettledLoad
import OSDesign.VM.MultiPage
import OSDesign.FS.CreateLookup
import OSDesign.Thread.ListCalls
import OSDesign.Thread.Priority
import OSDesign.FS.Reserving
import OSDesign.FS.PathScan
import OSDesign.FS.NameBuffers
import OSDesign.FS.Listing
import OSDesign.FS.DirectoryUpdate
import OSDesign.VM.PointerRestoration
import OSDesign.VM.SameBlocks
import OSDesign.VM.Alike
import OSDesign.VM.AlikeRequests
import OSDesign.VM.SharedMemory
import OSDesign.VM.Independence
import OSDesign.FS.BlockPrograms
import OSDesign.FS.CallOutcomes
import OSDesign.Thread.Deadlock
import OSDesign.Thread.Fairness
import OSDesign.VM.DoubleFree
import OSDesign.FS.BlockBounds
import OSDesign.Thread.StackSpace
import OSDesign.Thread.Waiting
import OSDesign.VM.PageLifetime
import OSDesign.Thread.LinkedLibrary
