import StormOS.Library.Loops
import StormOS.Library.Bytes
import StormOS.Library.Runs
import StormOS.Library.LinkedQueue
import StormOS.Library.Ownership
import StormOS.Library.Terminals
import StormOS.Library.Strings
import StormOS.Library.Words
import StormOS.Library.RingBuffer
import StormOS.Library.Histories
import StormOS.Library.Stacks
import StormOS.Machine
import StormOS.Interrupt
import StormOS.PhysicalMemory
import StormOS.PhysicalMemoryInit
import StormOS.BootMap
import StormOS.PageCustody
import StormOS.Quotas
import StormOS.QuotaTree
import StormOS.MemoryMap
import StormOS.CircularScan
import StormOS.UsageLedger
import StormOS.VirtualMemory
import StormOS.Division
import StormOS.Printf
import StormOS.FormatText
import StormOS.FormatCursor
import StormOS.Numerals
import StormOS.PrintBuffer
import StormOS.CommandLine
import StormOS.Keyboard
import StormOS.Modifiers
import StormOS.Isolation
import StormOS.PageAllocation
import StormOS.Translation
import StormOS.AddressSpaces
import StormOS.SingleMapping
import StormOS.FailedAllocation
import StormOS.ReturnedPage
import StormOS.TablePairs
import StormOS.Affords
import StormOS.UserCopy
import StormOS.CopyIn
import StormOS.UserSide
import StormOS.Reserve
import StormOS.CopySteps
import StormOS.ShortCopy
import StormOS.RoundTrip
import StormOS.Syscall
import StormOS.SyscallReads
import StormOS.KeyboardInput
import StormOS.Pieces
import StormOS.PutStr
import StormOS.Elf
import StormOS.ElfPages
import StormOS.ElfRound
import StormOS.ElfContained
import StormOS.ElfReturns
import StormOS.ElfIsolation
import StormOS.ElfContents
import StormOS.ElfSegments
import StormOS.ElfImage
import StormOS.Threads
import StormOS.ThreadQueue
import StormOS.ThreadSteps
import StormOS.Scheduler
import StormOS.RoundRobin
import StormOS.QueueLists
import StormOS.ContextSwitch
import StormOS.SwitchCode
import StormOS.KernelStacks
import StormOS.Trap
import StormOS.ProcessStart
import StormOS.ProcessTree
import StormOS.HandOver
import StormOS.InterruptWindow
import StormOS.ProcessPath
import StormOS.ProcessEntry
import StormOS.Screen
import StormOS.ScrollWrites
import StormOS.PixelRange
import StormOS.Console
import StormOS.ConsoleRefinement
import StormOS.MonitorEcho
import StormOS.Mmu
import StormOS.TrapEffects
import StormOS.ProcessMemory
import StormOS.Descriptors
import StormOS.TaskState
import StormOS.TrapStack
import StormOS.TrapRoundTrip
import StormOS.Display
import StormOS.UserPrint
import StormOS.Pic
