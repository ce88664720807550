import Ballistic.Machine.Memory
import Ballistic.Machine.X86
import Ballistic.Machine.X86Code
import Ballistic.Machine.X86Frame
import Ballistic.Machine.A64
import Ballistic.Machine.Runs
import Ballistic.Machine.Ledger
import Ballistic.Order.Ranked
import Ballistic.Types
import Ballistic.Decoder
import Ballistic.Generator
import Ballistic.Assembler
import Ballistic.SlidingWindow
import Ballistic.Tier1Compiler
import Ballistic.BlockScan
import Ballistic.ArmAssembler
import Ballistic.BlockCall
import Ballistic.BlockCache
import Ballistic.Engine
import Ballistic.EngineState
import Ballistic.EngineInit
import Ballistic.EngineLifecycle
import Ballistic.ExecutableMemory
import Ballistic.JitDebug
import Ballistic.JitArena
import Ballistic.Proof.Encoding
import Ballistic.Proof.Lowering
import Ballistic.Proof.Plan
import Ballistic.Proof.Emitters
import Ballistic.Proof.Allocation
import Ballistic.Proof.Values
import Ballistic.Proof.Decoding
import Ballistic.Proof.Agreement
import Ballistic.Proof.Blocks
import Ballistic.Proof.Confinement
import Ballistic.Proof.Branches
import Ballistic.Proof.Loops
import Ballistic.Proof.Termination
import Ballistic.Proof.Frames
import Ballistic.Proof.Straight
import Ballistic.Proof.Forks
import Ballistic.Proof.Balance
import Ballistic.Proof.Continuation
import Ballistic.Proof.Settling
import Ballistic.Proof.Simulation
import Ballistic.Proof.Tables
import Ballistic.Proof.Specificity
import Ballistic.Proof.Diagrams
import Ballistic.Proof.Threads
import Ballistic.Proof.Requests
import Ballistic.Proof.Emission
import Ballistic.Proof.Coherence
import Ballistic.Proof.FlaggedRuns
import Ballistic.Proof.Traces
import Ballistic.Proof.Transfers
import Ballistic.Proof.Stepping
import Ballistic.Proof.Failures
import Ballistic.Proof.Scratch
import Ballistic.Proof.Relocation
import Ballistic.Proof.Overflows
import Ballistic.Proof.Compilations
import Ballistic.Proof.Stickiness
import Ballistic.Proof.Mappings
import Ballistic.Proof.Resetting
import Ballistic.Proof.DebugTable
import Ballistic.Proof.Attribution
import Ballistic.Proof.Recovery
import Ballistic.Proof.Generations
import Ballistic.Proof.Residency
import Ballistic.Proof.OperandReads
import Ballistic.Proof.RegisterForms
import Ballistic.Proof.NarrowForms
import Ballistic.Proof.OperandSlots
import Ballistic.Proof.Residents
import Ballistic.Proof.Windows
import Ballistic.Proof.Fetches
import Ballistic.Proof.BlockLength
import Ballistic.Proof.Counting
import Ballistic.Proof.Comparisons
import Ballistic.Proof.ConditionalBlocks
import Ballistic.Proof.ZeroRegister
import Ballistic.Proof.HostFile
import Ballistic.Proof.LiveOperands
import Ballistic.Proof.JumpDistance
import Ballistic.Proof.Assembling
import Ballistic.Proof.DebugArena
import Ballistic.Proof.Initialisation
import Ballistic.Proof.Lifecycles
import Ballistic.Proof.ExecutableMemories
import Ballistic.Proof.XmlRoundTrip
import Ballistic.Proof.IntegerBlocks
import Ballistic.Proof.Programs
import Ballistic.Proof.Room
import Ballistic.Proof.Compilable
import Ballistic.Proof.Fitting
import Ballistic.Proof.Scripts
import Ballistic.Proof.Faults
import Ballistic.Proof.SingleBlocks
import Ballistic.FuzzerIpc
import Ballistic.Proof.Exchanges
import Ballistic.Proof.FuzzerRuns
import Ballistic.FuzzerCoordinator
import Ballistic.FuzzerWorker
import Ballistic.Proof.FuzzerProgress
import Ballistic.Proof.FuzzerHistories
import Ballistic.Proof.CoordinatorCalls
import Ballistic.Proof.FuzzerRounds
import Ballistic.Proof.FuzzerVerdicts
import Ballistic.Proof.FuzzerWorkers
import Ballistic.Proof.AssembledPrograms
import Ballistic.Proof.ProgramRuns
