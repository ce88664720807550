import Ballistic.Machine.A64
import Ballistic.Machine.Framing
import Ballistic.Types

/-!
# Messages of the fuzzer

The coordinator and its workers exchange two records over pipes, a byte for a byte as they lie in
memory. Neither has padding of its own: what alignment would add is declared as fields.
-/

namespace Ballistic

open Machine

/-- `BAL_FUZZER_MAX_INSTRUCTIONS`. -/
def fuzzerMaxInstructions : Nat := 60

/-- `bal_fuzzer_cpu_snapshot_t`. -/
structure CpuSnapshot where
  x : A64.Register → BitVec 64
  pc : BitVec 64
  flagC : Byte
  flagZ : Byte
  flagN : Byte
  flagV : Byte
  pad0 : BitVec 32
  instructionCount : BitVec 64
  pad1 : Fin 5 → BitVec 64

/-- `bal_fuzzer_input_t`. -/
structure FuzzerInput where
  messageId : BitVec 64
  instructionCount : BitVec 32
  pad : BitVec 32
  instructions : Fin fuzzerMaxInstructions → BitVec 32
  initialState : CpuSnapshot

/-- `bal_fuzzer_worker_status_t`. -/
inductive WorkerStatus where
  | ok
  | compileFailed
  | executionFailed
  | timeout
  | crashed
  | unknownInstruction
  deriving DecidableEq, Repr

def WorkerStatus.code : WorkerStatus → BitVec 32
  | ok => 0
  | compileFailed => 1
  | executionFailed => 2
  | timeout => 3
  | crashed => 4
  | unknownInstruction => 5

/-- `bal_fuzzer_response_t`. The status is what came over the pipe, so any number. -/
structure FuzzerResponse where
  messageId : BitVec 64
  status : BitVec 32
  pad : Fin 52 → Byte
  finalState : CpuSnapshot

/-- A snapshot after `memset`. -/
def CpuSnapshot.zero : CpuSnapshot := ⟨fun _ => 0, 0, 0, 0, 0, 0, 0, 0, fun _ => 0⟩

/-! ### Layout -/

def CpuSnapshot.codec : Codec CpuSnapshot :=
  ((Codec.word64.vec 32).pair <| Codec.word64.pair <| Codec.byte.pair <| Codec.byte.pair <|
    Codec.byte.pair <| Codec.byte.pair <| Codec.word32.pair <| Codec.word64.pair
      (Codec.word64.vec 5)).map
    { toFun := fun p => ⟨p.1, p.2.1, p.2.2.1, p.2.2.2.1, p.2.2.2.2.1, p.2.2.2.2.2.1, p.2.2.2.2.2.2.1,
        p.2.2.2.2.2.2.2.1, p.2.2.2.2.2.2.2.2⟩
      invFun := fun s => (s.x, s.pc, s.flagC, s.flagZ, s.flagN, s.flagV, s.pad0, s.instructionCount,
        s.pad1)
      left_inv := fun _ => rfl
      right_inv := fun _ => rfl }

def FuzzerInput.codec : Codec FuzzerInput :=
  (Codec.word64.pair <| Codec.word32.pair <| Codec.word32.pair <|
    (Codec.word32.vec fuzzerMaxInstructions).pair CpuSnapshot.codec).map
    { toFun := fun p => ⟨p.1, p.2.1, p.2.2.1, p.2.2.2.1, p.2.2.2.2⟩
      invFun := fun i => (i.messageId, i.instructionCount, i.pad, i.instructions, i.initialState)
      left_inv := fun _ => rfl
      right_inv := fun _ => rfl }

def FuzzerResponse.codec : Codec FuzzerResponse :=
  (Codec.word64.pair <| Codec.word32.pair <| (Codec.byte.vec 52).pair CpuSnapshot.codec).map
    { toFun := fun p => ⟨p.1, p.2.1, p.2.2.1, p.2.2.2⟩
      invFun := fun r => (r.messageId, r.status, r.pad, r.finalState)
      left_inv := fun _ => rfl
      right_inv := fun _ => rfl }

/-- The size that the static assertion of the header asks for. -/
theorem CpuSnapshot.size_codec : CpuSnapshot.codec.size = cpuSize := rfl

theorem FuzzerInput.size_codec : FuzzerInput.codec.size = 576 := rfl

theorem FuzzerResponse.size_codec : FuzzerResponse.codec.size = 384 := rfl

end Ballistic
