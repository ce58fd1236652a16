import HelgrindPlus.LibHB.Vts
import HelgrindPlus.Lib.Outcome
import HelgrindPlus.LibHB.VtsTab
import HelgrindPlus.Lib.Causality
import HelgrindPlus.Lib.Totals
import HelgrindPlus.LibHB.Sync
import HelgrindPlus.LibHB.SyncRefinement
import HelgrindPlus.LibHB.HappensBefore
import HelgrindPlus.Msm.Default
import HelgrindPlus.Msm.FirstRace
import HelgrindPlus.Msm.Hybrid
import HelgrindPlus.Msm.Ukas
import HelgrindPlus.Msm.Ukal
import HelgrindPlus.Msm.HybridRaces
import HelgrindPlus.Main.Holding
import HelgrindPlus.Zsm.Tree
import HelgrindPlus.Zsm.Line
import HelgrindPlus.Zsm.Store
import HelgrindPlus.Zsm.Cache
import HelgrindPlus.Zsm.Access
import HelgrindPlus.Zsm.AccessRules
import HelgrindPlus.Zsm.FlatMap
import HelgrindPlus.Zsm.OwnedLines
import HelgrindPlus.Zsm.NestedAccess
import HelgrindPlus.LibHB.HbOps
import HelgrindPlus.LibHB.VtsIds
import HelgrindPlus.Main.LegalLocking
import HelgrindPlus.Msm.Constraints
import HelgrindPlus.Main.WordSet
import HelgrindPlus.Main.WordSetHandles
import HelgrindPlus.Lib.Graph
import HelgrindPlus.Main.Laog
import HelgrindPlus.Main.LaogGraph
import HelgrindPlus.Main.LockOrder
import HelgrindPlus.Main.Barrier
import HelgrindPlus.LibHB.OwnClocks
import HelgrindPlus.Main.BarrierClocks
import HelgrindPlus.Main.Semaphore
import HelgrindPlus.Main.SemaphoreUnits
import HelgrindPlus.Lib.Tagged
import HelgrindPlus.LibHB.Rcec
import HelgrindPlus.LibHB.EventMap
import HelgrindPlus.LibHB.EventMapCheck
import HelgrindPlus.LibHB.EventMapGC
import HelgrindPlus.LibHB.EventMapRuns
import HelgrindPlus.Msm.Machine
import HelgrindPlus.Msm.MachineRefinement
import HelgrindPlus.Msm.RangeWrites
import HelgrindPlus.Msm.MachineRuns
import HelgrindPlus.Msm.RaceDetection
import HelgrindPlus.LibHB.UkaSync
import HelgrindPlus.Main.AdminLocks
import HelgrindPlus.Main.Heap
import HelgrindPlus.Lsd.Signals
import HelgrindPlus.Lsd.BestSignals
import HelgrindPlus.Lsd.SyncLaws
import HelgrindPlus.Main.CondVarClocks
import HelgrindPlus.Main.CondVars
import HelgrindPlus.Msm.UkalMachine
import HelgrindPlus.Msm.UkalClocks
import HelgrindPlus.Msm.SpinVars
import HelgrindPlus.Msm.Conflicts
import HelgrindPlus.Main.SpinLocks
import HelgrindPlus.Main.SpinAgreement
import HelgrindPlus.Main.SpinRecords
import HelgrindPlus.Msm.SpinMemory
import HelgrindPlus.Msm.ShadowLines
import HelgrindPlus.Msm.SpinMachine
import HelgrindPlus.Msm.SpinLines
import HelgrindPlus.Msm.SpoiledLines
import HelgrindPlus.Msm.UkasCounts
import HelgrindPlus.Dependency.Irsb
import HelgrindPlus.Dependency.RedundantGets
import HelgrindPlus.Dependency.AtomicAlias
import HelgrindPlus.Dependency.OptimiseFast
import HelgrindPlus.Dependency.Tree
import HelgrindPlus.Dependency.TreeIterator
import HelgrindPlus.Dependency.Simplify
import HelgrindPlus.Dependency.ConstTest
import HelgrindPlus.Dependency.LoopRounds
import HelgrindPlus.Dependency.ConstGuards
import HelgrindPlus.Dependency.ConcatIrsb
import HelgrindPlus.Lib.OrderedMap
import HelgrindPlus.Coregrind.AvlBalance
import HelgrindPlus.Coregrind.WordFMCalls
import HelgrindPlus.Coregrind.WordFMIter
import HelgrindPlus.Coregrind.WordBag
import HelgrindPlus.LibHB.VtsOrder
import HelgrindPlus.LibHB.EventMapLookup
import HelgrindPlus.Main.Intervals
import HelgrindPlus.Main.IntervalUnion
import HelgrindPlus.Main.IntervalRuns
import HelgrindPlus.Lib.FirstDifference
import HelgrindPlus.Main.IntervalOrder
import HelgrindPlus.Main.IntervalMeet
import HelgrindPlus.Coregrind.SparseWA
import HelgrindPlus.Coregrind.SparseWACalls
import HelgrindPlus.Coregrind.SparseWAIter
import HelgrindPlus.Loops.SpinReading
import HelgrindPlus.Loops.Superblock
import HelgrindPlus.Main.Calloc
import HelgrindPlus.Main.IntervalIter
import HelgrindPlus.Loops.AddSB
import HelgrindPlus.Loops.DfsSearch
import HelgrindPlus.Dependency.TreeShape
import HelgrindPlus.Dependency.Walk
import HelgrindPlus.Dependency.UselessLoops
import HelgrindPlus.Dependency.LoadDependencies
import HelgrindPlus.Dependency.LoadWalk
import HelgrindPlus.Dependency.NeededLoads
import HelgrindPlus.Dependency.SameExpression
import HelgrindPlus.Dependency.SpinDependencies
import HelgrindPlus.Dependency.SameWalk
import HelgrindPlus.Dependency.SimplifiedTree
import HelgrindPlus.Dependency.SameTemps
import HelgrindPlus.Dependency.MatchingStores
import HelgrindPlus.Dependency.Staying
import HelgrindPlus.Dependency.AliasChains
import HelgrindPlus.Dependency.ConstTestEnds
import HelgrindPlus.Dependency.FinalValues
import HelgrindPlus.Dependency.ConstantSums
import HelgrindPlus.Dependency.FoldedSums
import HelgrindPlus.Dependency.FoldedValues
import HelgrindPlus.Dependency.Cycles
import HelgrindPlus.Dependency.SettlingGuards
import HelgrindPlus.Lib.Fields
import HelgrindPlus.Msm.UkasWords
import HelgrindPlus.Msm.UkasWordMachine
import HelgrindPlus.Main.Threads
import HelgrindPlus.Main.ForkJoin
import HelgrindPlus.Main.Instrument
import HelgrindPlus.Main.InstrumentRuns
import HelgrindPlus.Main.AccessReports
import HelgrindPlus.Main.ClientRuns
