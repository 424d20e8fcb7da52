import NvmMalloc.Types
import NvmMalloc.Lib.Tiling
import NvmMalloc.Arena
import NvmMalloc.Malloc
import NvmMalloc.Recovery
import NvmMalloc.System
import NvmMalloc.Bins
import NvmMalloc.Logic
import NvmMalloc.Layout
import NvmMalloc.Headers
import NvmMalloc.Invariant
import NvmMalloc.Moves
import NvmMalloc.Regions
import NvmMalloc.GrowSpec
import NvmMalloc.ReserveSpec
import NvmMalloc.AllocateSpec
import NvmMalloc.LinkSpec
import NvmMalloc.ActivateSpec
import NvmMalloc.FreeSpec
import NvmMalloc.InitSpec
import NvmMalloc.TableSpec
import NvmMalloc.Walk
import NvmMalloc.IdSpec
import NvmMalloc.Reachability
import NvmMalloc.Partition
import NvmMalloc.Capacity
import NvmMalloc.RingLog
import NvmMalloc.RunLock
import NvmMalloc.StaleVdata
import NvmMalloc.Lib.Persistency
import NvmMalloc.WriteAhead
import NvmMalloc.ReplaySpec
import NvmMalloc.LogSpec
import NvmMalloc.ScanSpec
import NvmMalloc.RecoverySafety
import NvmMalloc.ScanEffect
import NvmMalloc.RecoveredHeap
import NvmMalloc.RecoveredPools
import NvmMalloc.IdMap
import NvmMalloc.TableRecovery
import NvmMalloc.RecoveredTable
import NvmMalloc.CleanRestart
import NvmMalloc.RecoveredRegion
import NvmMalloc.IdAtomicity
import NvmMalloc.CallAtomicity
import NvmMalloc.RecoveredBins
import NvmMalloc.Decoding
import NvmMalloc.Classification
import NvmMalloc.Ownership
import NvmMalloc.Durability
import NvmMalloc.SlotProtocol
import NvmMalloc.PersistRange
import NvmMalloc.SlotQueue
import NvmMalloc.BestFit
import NvmMalloc.NamedObjects
import NvmMalloc.LinkSemantics
import NvmMalloc.Lib.Threads
import NvmMalloc.SlotAllocation
import NvmMalloc.SlotBitmaps
import NvmMalloc.RecoveryRestart
import NvmMalloc.KissPopcount
import NvmMalloc.KissBlock
import NvmMalloc.KissUnits
import NvmMalloc.KissLayout
import NvmMalloc.KissHints
import NvmMalloc.BackgroundCalls
import NvmMalloc.BackgroundSafety
import NvmMalloc.BackgroundRefinement
import NvmMalloc.SlotThreads
import NvmMalloc.RunCrash
import NvmMalloc.Fragmentation
import NvmMalloc.Teardown
import NvmMalloc.ThreadArenas
