import MipsVm.Address
import MipsVm.AddressMap
import MipsVm.AddressSpace.Basic
import MipsVm.AddressSpace.Lifecycle
import MipsVm.AddressSpace.Permissions
import MipsVm.AddressSpace.Transfer
import MipsVm.BitField
import MipsVm.BootMemory
import MipsVm.Error
import MipsVm.FramePool
import MipsVm.Interrupts
import MipsVm.Ledger
import MipsVm.Log
import MipsVm.Machine
import MipsVm.Mapping
import MipsVm.PageFault
import MipsVm.PhysicalMemory
import MipsVm.Ram
import MipsVm.SpinLock
import MipsVm.Tlb.Basic
import MipsVm.Tlb.Entry
import MipsVm.Tlb.Victims
import MipsVm.Proofs.LedgerScan
import MipsVm.Proofs.RunSet
import MipsVm.Proofs.RunAllocator
import MipsVm.Proofs.FrameAccounting
import MipsVm.Proofs.BootLayout
import MipsVm.Proofs.KernelOutcome
import MipsVm.Proofs.LockRuns
import MipsVm.Proofs.FrameService
import MipsVm.Proofs.FrameHistory
import MipsVm.Proofs.FrameOwnership
import MipsVm.Proofs.HandleTable
import MipsVm.Proofs.KernelEffects
import MipsVm.Proofs.FrameAlignment
import MipsVm.Proofs.CriticalSections
import MipsVm.Proofs.TlbEncoding
import MipsVm.Proofs.TlbCoherence
import MipsVm.Proofs.DistinctPages
import MipsVm.Proofs.UserAddresses
import MipsVm.Proofs.FrameHoldings
import MipsVm.Proofs.FrameLoans
import MipsVm.Proofs.Operations
import MipsVm.Proofs.HoldingService
import MipsVm.Proofs.MemoryIsolation
import MipsVm.Proofs.VmAccounting
import MipsVm.Proofs.LoadRecovery
import MipsVm.Proofs.SpaceCopy
import MipsVm.Proofs.LedgerGrammar
import MipsVm.Proofs.LedgerRelease
import MipsVm.Proofs.StrayWrites
import MipsVm.Proofs.UnrecordedRuns
import MipsVm.Proofs.LiveRuns
import MipsVm.Proofs.Bootstrap
import MipsVm.Proofs.RegionRequests
import MipsVm.Proofs.ReachableSpaces
import MipsVm.Proofs.UserTransfers
import MipsVm.Proofs.FaultEffect
import MipsVm.Proofs.FreshFrames
import MipsVm.Proofs.CleanLoads
import MipsVm.Proofs.BootRuns
import MipsVm.Proofs.MemoryCalls
import MipsVm.Proofs.KernelPages
import MipsVm.Proofs.StackMarks
import MipsVm.Proofs.LedgerSize
import MipsVm.Proofs.FirstFit
import MipsVm.Proofs.InterruptGuards
import MipsVm.Proofs.RunRelease
