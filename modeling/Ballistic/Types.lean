import Ballistic.Machine.Memory

/-!
# Shared types of the engine

Status codes, engine flags, the guest CPU record and the memory interface.
-/

namespace Ballistic

open Machine

inductive BalError where
  | success
  | invalidArgument
  | allocationFailed
  | structCorrupted
  | bufferOverflow
  | memoryAlignment
  | memoryFault
  | engineAlreadyRunning
  | pcAlignment
  | unknownInstruction
  | threadCreation
  | threadCleanup
  | instructionOverflow
  | incorrectRegisterType
  | branchOffsetOverflow
  | capacityTooBig
  | registerAllocatorCorrupted
  deriving DecidableEq, Repr

/-- A set of engine flags, as the bits of `bal_engine_flags.h`. -/
abbrev EngineFlags := BitVec 32

namespace EngineFlags

def jitDebug : EngineFlags := 1 <<< 0

def singleStep : EngineFlags := 1 <<< 1

def interruptPending : EngineFlags := 1 <<< 2

def wfiYieldsHost : EngineFlags := 1 <<< 3

def disableBlockCache : EngineFlags := 1 <<< 5

def instructionCounting : EngineFlags := 1 <<< 7

def strictAlignment : EngineFlags := 1 <<< 8

def trapSvc : EngineFlags := 1 <<< 9

def trapSmcHvc : EngineFlags := 1 <<< 10

/-- `flags & flag`. -/
def has (flags flag : EngineFlags) : Bool := flags &&& flag != 0

end EngineFlags

/-! ### Field offsets of `bal_cpu_t` -/

def offsetX (armRegister : Nat) : Nat := 8 * armRegister

def offsetPc : Nat := 256

def offsetFlagC : Nat := 272

def offsetFlagZ : Nat := 273

def offsetFlagN : Nat := 274

def offsetFlagV : Nat := 275

def offsetInstructionCount : Nat := 280

/-- `sizeof(bal_cpu_t)`. -/
def cpuSize : Nat := 320

/-! ### Guest memory -/

/-- `bal_memory_interface_t` with the guest memory behind it. `translate` answers how many bytes
are readable from a guest address on, or none for a fault; the words read through the host pointer
it returns are the guest words from that address on. -/
structure MemoryInterface where
  translate : Address → Option Nat
  word : Address → BitVec 32

end Ballistic
