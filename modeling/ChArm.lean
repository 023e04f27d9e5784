import ChArm.Base.Word
import ChArm.Base.PTable
import ChArm.Base.Mem
import ChArm.Base.HwElts
import ChArm.Base.Machine
import ChArm.Base.Proc
import ChArm.Lib.Recency
import ChArm.Cache.Basic
import ChArm.Cache.LruMatrix
import ChArm.Cache.LruHistory
import ChArm.Cache.Geometry
import ChArm.Cache.LruRefinement
import ChArm.Cache.Bare
import ChArm.Cache.LineOrder
import ChArm.Pipe.Instr
import ChArm.Pipe.Fetch
import ChArm.Pipe.Decode
import ChArm.Pipe.Execute
import ChArm.Pipe.MemoryStage
import ChArm.Pipe.HazardControl
import ChArm.Lib.WriteBack
import ChArm.Base.CacheStore
import ChArm.Base.Coherence
import ChArm.Base.Cycle
import ChArm.Pipe.Hazards
import ChArm.Pipe.WellFormed
import ChArm.Lib.Runs
import ChArm.Lib.Sessions
import ChArm.Lib.Barriers
import ChArm.Lib.BarrierSteps
import ChArm.Base.Execution
import ChArm.Pipe.DecodedRegs
import ChArm.Pipe.Operands
import ChArm.Pipe.ControlFlow
import ChArm.Base.Options
import ChArm.Base.CacheLines
import ChArm.Base.CacheAccess
import ChArm.Base.TraceAgreement
import ChArm.Base.Log
import ChArm.Base.CacheCalls
import ChArm.Base.CacheCopy
import ChArm.Base.CacheHeap
import ChArm.Base.CacheCheckpoint
import ChArm.Base.SegmentScan
import ChArm.Base.Loads
import ChArm.Base.Statistics
import ChArm.Base.MissLatency
import ChArm.Base.FillBounds
import ChArm.Base.Untouched
import ChArm.Pipe.FaultingAccess
import ChArm.Pipe.Checkpoints
import ChArm.Pipe.FetchFrame
import ChArm.Pipe.GuestAccess
import ChArm.Pipe.UntakenBranch
import ChArm.Base.Uncached
import ChArm.Pipe.ReportedCounts
import ChArm.Pipe.PreciseFaults
import ChArm.Base.Agree
import ChArm.Pipe.Alike
import ChArm.Pipe.SquashedFetches
import ChArm.Base.AddWithCarry
import ChArm.Base.FlatMemory
import ChArm.Cache.Inclusion
import ChArm.Lib.Reorder
import ChArm.Base.SameTables
import ChArm.Base.SettledBytes
import ChArm.Base.TableSteps
import ChArm.Pipe.StageOrder
import ChArm.Base.ElfLoader
import ChArm.Base.ElfImage
import ChArm.Pipe.FlagCopies
import ChArm.Pipe.CycleAccounting
import ChArm.Lib.A64
import ChArm.Lib.A64Groups
import ChArm.Lib.A64Aliases
import ChArm.Lib.A64Cpu
import ChArm.Pipe.SingleInstr
import ChArm.Pipe.PcRelative
import ChArm.Pipe.TakenInst
import ChArm.Pipe.DecodeSound
import ChArm.Pipe.LoadedText
import ChArm.Pipe.Sequential
import ChArm.Pipe.Pipelining
import ChArm.Base.Mirror
import ChArm.Pipe.WaitingCycles
import ChArm.Pipe.FailingAlike
import ChArm.Pipe.CacheInvisible
import ChArm.Pipe.RandomBuild
import ChArm.Pipe.StagesApart
import ChArm.Pipe.ParallelBuild
import ChArm.Base.Board
import ChArm.Pipe.ExecutesA64
import ChArm.Pipe.Progress
import ChArm.Pipe.FaultsA64
