import VPifo.Lib.HeapTree
import VPifo.Lib.TokenNet
import VPifo.Lib.Cyclic
import VPifo.Lib.CyclicLayout
import VPifo.Lib.Numerals
import VPifo.Lib.Words
import VPifo.Lib.FluidClock
import VPifo.Lib.PointerTree
import VPifo.Lib.RunningSums
import VPifo.Lib.Runs
import VPifo.Lib.RankQueue
import VPifo.Lib.BitSlices
import VPifo.Lib.BoundedQueue
import VPifo.Hardware.Params
import VPifo.Hardware.Address
import VPifo.Hardware.Node
import VPifo.Hardware.Sequential
import VPifo.Hardware.TreeQueue
import VPifo.Hardware.Ideal
import VPifo.Hardware.TaskFIFO
import VPifo.Hardware.TaskDistribute
import VPifo.Hardware.PifoSramTop
import VPifo.Hardware.Control
import VPifo.Hardware.Dispatch
import VPifo.Hardware.DispatchOrder
import VPifo.Hardware.Pipeline
import VPifo.Hardware.Shadow
import VPifo.Hardware.LeafSentinel
import VPifo.Hardware.NodeWord
import VPifo.Hardware.TaskGenerator
import VPifo.Hardware.Routing
import VPifo.Hardware.EmptyRoot
import VPifo.Hardware.Hierarchy
import VPifo.Hardware.PifoTree
import VPifo.Hardware.TwoLevel
import VPifo.Hardware.Drain
import VPifo.Hardware.Backlog
import VPifo.Hardware.OrdersAgree
import VPifo.Hardware.SynTop
import VPifo.Reference.Tree
import VPifo.Reference.Depth
import VPifo.Reference.Forest
import VPifo.Reference.Counters
import VPifo.Reference.Agree
import VPifo.Simulator.Ring
import VPifo.Simulator.Network
import VPifo.Simulator.TraceLoop
import VPifo.Simulator.TraceInv
import VPifo.Simulator.TraceRun
import VPifo.Simulator.TraceBudget
import VPifo.Ns3.Pipeline
import VPifo.Ns3.Prefetch
import VPifo.Ns3.QueueDisc
import VPifo.Ns3.RankOrder
import VPifo.Compiler.SramLayout
import VPifo.Compiler.LayoutAgrees
import VPifo.Compiler.TraceFormat
import VPifo.Compiler.WFQ
import VPifo.Compiler.WFQAccount
import VPifo.Compiler.VirtualClock
import VPifo.Compiler.RealClock
import VPifo.Compiler.TreeBuilder
import VPifo.Compiler.Admission
import VPifo.Compiler.TagPriority
import VPifo.Compiler.TraceFits
import VPifo.Compiler.PFMap
import VPifo.Compiler.Taggable
import VPifo.Simulator.ReadLine
import VPifo.Simulator.ReadBack
import VPifo.Hardware.TraceReader
import VPifo.Hardware.TraceFinish
import VPifo.Hardware.TraceTiming
import VPifo.Compiler.SramTable
import VPifo.Simulator.Starvation
import VPifo.Simulator.Throughput
import VPifo.Simulator.Drained
import VPifo.Ns3.Starvation
import VPifo.Simulator.AlgoLoop
import VPifo.Dpdk.Transmit
import VPifo.Dpdk.OutputQueue
import VPifo.Dpdk.Flows2Nodes
import VPifo.Lib.Routes
import VPifo.Lib.WeightedTurns
import VPifo.Dpdk.Cores
import VPifo.Dpdk.SwitchOrder
import VPifo.Dpdk.NodeCalls
import VPifo.Dpdk.FairShares
import VPifo.Dpdk.SoloCalls
import VPifo.Simulator.Batch
import VPifo.Ns3.HadoopOrder
