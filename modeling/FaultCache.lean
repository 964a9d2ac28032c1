import FaultCache.Bisection
import FaultCache.SentinelRing
import FaultCache.PageGeometry
import FaultCache.SharedPages
import FaultCache.VmPages
import FaultCache.PoolMachine
import FaultCache.PoolStaging
import FaultCache.PoolQueue
import FaultCache.PoolMemory
import FaultCache.PoolHistory
import FaultCache.PoolInvariant
import FaultCache.BudgetPrefix
import FaultCache.PoolResolve
import FaultCache.FaultProcess
import FaultCache.ProcessInvariant
import FaultCache.ProcessContract
import FaultCache.RegionRemoval
import FaultCache.FaultThreads
import FaultCache.RetryLoop
import FaultCache.FixedBytes
import FaultCache.WireFormat
import FaultCache.ServerGroups
import FaultCache.GroupTiling
import FaultCache.ServerMachine
import FaultCache.GilThreads
import FaultCache.ServerCache
import FaultCache.PoolLifetime
import FaultCache.FaultEffects
import FaultCache.HotHalf
import FaultCache.ColdFlags
import FaultCache.ChunkTables
import FaultCache.ReplyFormat
import FaultCache.ServerRegistry
import FaultCache.ClientHandoff
import FaultCache.RegistryRefinement
import FaultCache.PythonSlices
import FaultCache.RegionSlices
import FaultCache.SliceFaults
import FaultCache.SignalMachine
import FaultCache.SignalChain
import FaultCache.FaultNesting
import FaultCache.RegionOwnership
import FaultCache.RangeTiling
import FaultCache.ScratchContract
import FaultCache.FillTrace
import FaultCache.FillSafety
import FaultCache.RecencyWindow
import FaultCache.WorkingSet
import FaultCache.AddressSpace
import FaultCache.PosixProcess
import FaultCache.ConcurrentCalls
import FaultCache.Placeholders
import FaultCache.VmWin32
import FaultCache.Win32Process
import FaultCache.DebugCounters
import FaultCache.OwnedHandles
import FaultCache.PythonDebug
import FaultCache.PythonReads
