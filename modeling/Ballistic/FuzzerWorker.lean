import Ballistic.EngineState
import Ballistic.FuzzerCoordinator
import Ballistic.FuzzerState
import Ballistic.Proof.Fetches
import Ballistic.Proof.ProgramRuns

/-!
# The Ballistic worker

What `workers/ballistic/main.c` makes of an input: the instructions and a `RET` behind them at the
address zero of a page, a new engine on the CPU record of the input with the sentinel in the link
register, and one call of `bal_engine_run_thread`. If the engine cannot be initialised, the call
dereferences a null pointer, so that there is no response; and there is none if the call does not return.
-/

namespace Ballistic.Fuzzer

open Machine

/-- `WORKER_GUEST_MEMORY`. -/
def workerGuestMemory : Nat := 4096

/-- `ARM64_RET_ENCODING`. -/
def arm64RetEncoding : BitVec 32 := 0xD65F03C0

/-- A word of `guest_memory`. -/
def workerWord (input : FuzzerInput) (k : Nat) : BitVec 32 :=
  if k = input.instructionCount.toNat then arm64RetEncoding
  else
    if h : k < fuzzerMaxInstructions then
      if k < input.instructionCount.toNat then input.instructions ⟨k, h⟩ else 0
    else 0

/-- The bytes of `guest_memory`. -/
def workerByte (input : FuzzerInput) (k : Nat) : Byte :=
  (workerWord input (k / 4)).extractLsb' (8 * (k % 4)) 8

def workerGuest (table : DecoderTable) (input : FuzzerInput) : Guest where
  table := table
  memory := .flat (BitVec.ofNat 64 workerGuestMemory) (workerByte input)

def workerCpu (input : FuzzerInput) : A64.State where
  x := Function.update input.initialState.x 30 engineSentinel
  flagN := input.initialState.flagN
  flagZ := input.initialState.flagZ
  flagC := input.initialState.flagC
  flagV := input.initialState.flagV
  pc := input.initialState.pc

def workerResponse (input : FuzzerInput) (status : WorkerStatus) (finalState : CpuSnapshot) :
    FuzzerResponse where
  messageId := input.messageId
  status := status.code
  pad := fun _ => 0
  finalState := finalState

/-- The status for what `bal_engine_run_thread` returned. -/
def workerStatus (status : BalError) : WorkerStatus :=
  if status = .unknownInstruction then .unknownInstruction
  else if status ≠ .success then .executionFailed
  else .ok

/-- An iteration of the worker's loop: the response, and whether the loop ends when it cannot be
written. The engine flags are zero, so nothing counts instructions. -/
inductive BallisticHandles (table : DecoderTable) (input : FuzzerInput) : FuzzerResponse → Bool → Prop
  | tooMany (h : tooManyInstructions input = true) :
      BallisticHandles table input (workerResponse input .compileFailed .zero) false
  | noInterface (h : tooManyInstructions input = false) :
      BallisticHandles table input (workerResponse input .compileFailed .zero) false
  | ran {buffer : Nat → Byte} {hasDebugEntries : Bool} {c : Compiler} {status : BalError}
      {e : Engine Nat} (h : tooManyInstructions input = false)
      (hinit : Compiler.init buffer tier1BufferSizeBytes hasDebugEntries = some c)
      (hreturns : CallReturns (workerGuest table input) .compareExchange (.init (workerCpu input) c)
        status e) :
      BallisticHandles table input
        (workerResponse input (workerStatus status) (captureBalCpu e.cpu 0)) true

/-- The engine is initialised, and the call of `bal_engine_run_thread` does not come back: on a `B` to
itself it runs the block for ever. -/
def BallisticHangs (table : DecoderTable) (input : FuzzerInput) : Prop :=
  tooManyInstructions input = false ∧ ∃ buffer hasDebugEntries c,
    Compiler.init buffer tier1BufferSizeBytes hasDebugEntries = some c ∧
      ¬∃ status e, CallReturns (workerGuest table input) .compareExchange (.init (workerCpu input) c)
        status e

/-- The worker keeps nothing from one input to the next. -/
def ballisticWorker {W : Type} (table : DecoderTable) (start : W) : WorkerProgram W where
  start := start
  handles := fun memory input memory' response final =>
    memory' = memory ∧ BallisticHandles table input response final
  hangs := fun _ input => BallisticHangs table input

/-- The programs of the coordinator, Unicorn's being code of another project. -/
def workerPrograms {W : Type} (table : DecoderTable) (start : W) (unicorn : WorkerProgram W) :
    Role → WorkerProgram W
  | .ballistic => ballisticWorker table start
  | .unicorn => unicorn

end Ballistic.Fuzzer
