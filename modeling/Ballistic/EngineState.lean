import Ballistic.Engine
import Ballistic.Machine.Memory

/-!
# The state behind the engine

`internal_engine_state_t` is one record in the host's memory, and `bal_engine_reset` clears a part of
it by `memset`, so for the reset the places of the fields matter. What the compiler, the request flags
and the block cache hold is kept as in `Engine`; the pointers to the code buffer, its size, the debug
context and whatever lies behind the record are bytes of the memory.
-/

namespace Ballistic

open Machine

/-! ### Layout -/

/-- `tier1_compiler.assembler.buffer`. -/
def offsetAssemblerBuffer : Nat := 0

/-- `tier1_compiler.assembler.rx_buffer`. -/
def offsetAssemblerRxBuffer : Nat := 8

/-- `tier1_buffer.rw_pointer`: the compiler before it takes 256 bytes. -/
def offsetTier1Buffer : Nat := 256

/-- `tier1_buffer.rx_pointer`. -/
def offsetTier1BufferRx : Nat := 264

def offsetTier1BufferSize : Nat := 272

/-- `debug_context`, after forty bytes of padding. -/
def offsetDebugContext : Nat := 320

def debugContextSize : Nat := 128

def offsetThreadState : Nat := 448

def offsetBlockCache : Nat := 512

/-- `sizeof(internal_engine_state_t)`. -/
def internalEngineStateSize : Nat := offsetBlockCache + 4096 * 64

def tier1BufferSizeBytes : Nat := 1024 * 1024 * 16

/-! ### Engines in memory -/

/-- An engine with the memory in which its record lies. -/
structure HostEngine where
  memory : Memory
  engineState : Address
  engine : Engine Nat

namespace HostEngine

/-- The word at an offset in the record. -/
def field (h : HostEngine) (offset : Nat) : BitVec 64 := h.memory.read64 (above h.engineState offset)

/-- What the allocator and `bal_jit_debug_init` give to `bal_engine_init`. -/
structure Allocation where
  memory : Memory
  engineState : Address
  rwPointer : Address
  rxPointer : Address
  buffer : Nat → Byte
  /-- The bytes of the debug context, all zero when it could not be set up. -/
  debugContext : Nat → Byte

/-- A record with the given bytes as its debug context. -/
def withDebugContext (m : Memory) (engineState : Address) (debugContext : Nat → Byte) : Memory :=
  fun x =>
    if offsetDebugContext ≤ distance engineState x ∧
        distance engineState x < offsetDebugContext + debugContextSize then
      debugContext (distance engineState x - offsetDebugContext)
    else m x

/-- The record as `bal_engine_init` fills it. -/
def Allocation.record (a : Allocation) : Memory :=
  let m := a.memory.memset a.engineState internalEngineStateSize
  let m := m.write64 (above a.engineState offsetTier1BufferSize) (BitVec.ofNat 64 tier1BufferSizeBytes)
  let m := m.write64 (above a.engineState offsetTier1Buffer) a.rwPointer
  let m := m.write64 (above a.engineState offsetTier1BufferRx) a.rxPointer
  let m := withDebugContext m a.engineState a.debugContext
  let m := m.write64 (above a.engineState offsetAssemblerBuffer) a.rwPointer
  m.write64 (above a.engineState offsetAssemblerRxBuffer) a.rxPointer

/-- `bal_engine_init`; none for the allocations that it or the compiler refuses. The pointer to the
entries is the first field of the debug context. -/
def init (a : Allocation) (cpu : A64.State) : Option HostEngine :=
  if a.engineState = 0 ∨ a.rwPointer = 0 ∨ a.rxPointer = 0 then none
  else
    (Compiler.init a.buffer tier1BufferSizeBytes
      (decide (a.record.read64 (above a.engineState offsetDebugContext) ≠ 0))).map fun c =>
        { memory := a.record, engineState := a.engineState, engine := .init cpu c }

/-- A `memset` of `count` bytes from `tier1_buffer` on covers the bytes at the offset. -/
def covers (count offset size : Nat) : Prop := offset + size ≤ offsetTier1Buffer + count

instance (count offset size : Nat) : Decidable (covers count offset size) :=
  inferInstanceAs (Decidable (_ ≤ _))

/-- The flags and the cache after the `memset`. -/
def clearTail (count : Nat) (e : Engine Nat) : Engine Nat :=
  { e with
    compiler :=
      { e.compiler with
        hasDebugEntries := e.compiler.hasDebugEntries && !decide (covers count offsetDebugContext 8) }
    isExecuting := e.isExecuting && !decide (covers count offsetThreadState 1)
    stopRequested := e.stopRequested && !decide (covers count (offsetThreadState + 1) 1)
    clearCacheRequested := e.clearCacheRequested && !decide (covers count (offsetThreadState + 2) 1)
    blockCache := fun set way =>
      let offset := offsetBlockCache + 64 * set + 16 * way
      { guestAddress :=
          if covers count offset 8 then 0 else (e.blockCache set way).guestAddress
        hostCode :=
          if covers count (offset + 8) 8 then none else (e.blockCache set way).hostCode } }

/-- `bal_engine_reset`: the address of the field is cleared, not what the field points to. -/
def reset (h : HostEngine) : HostEngine :=
  let count := (h.field offsetTier1BufferSize).toNat
  let e := clearTail count { h.engine with status := .success }
  { h with
    memory := h.memory.memset (above h.engineState offsetTier1Buffer) count
    engine := { e with compiler := e.compiler.reset } }

end HostEngine

end Ballistic
