import ArchSim.RoyRefine
import ArchSim.MtResult
import ArchSim.RoundRobin
import ArchSim.BranchRun
import ArchSim.Interleave
import ArchSim.DataFlowDepth
import ArchSim.BranchLocal
import ArchSim.MtTiming
import ArchSim.CacheEntries
import ArchSim.CacheResult
import ArchSim.CacheVictim
import ArchSim.MtLeftover
import ArchSim.SimStored
import ArchSim.SimResult
import ArchSim.BranchLearn
import ArchSim.DataFlowReorder
import ArchSim.DataFlowSign
import ArchSim.DataFlowText
import ArchSim.SimStorage
import ArchSim.SimData
import ArchSim.MtMakespan
import ArchSim.MtWaiting
import ArchSim.DataFlowMachine
import ArchSim.DataFlowCompose
import ArchSim.DataFlowQueries
import ArchSim.BranchMain
import ArchSim.BranchMistakes
import ArchSim.CachePaging
import ArchSim.CacheMain
import ArchSim.MtFairness
import ArchSim.MtSerial
import ArchSim.SimMain
import ArchSim.LateUse
import ArchSim.ShellySim
import ArchSim.ShellyOrder
import ArchSim.ShellyRefine
import ArchSim.ShellyMain
import ArchSim.BranchModes
import ArchSim.MtSingle
