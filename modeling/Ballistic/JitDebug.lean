import Ballistic.Tier1Compiler

/-!
# The debug table

`bal_jit_debug.c` and the search of `bal_jit_debug_signal.c`. Compiled blocks are appended to a table
of fixed capacity, with the guest offsets of their instructions in an arena. When the host faults
inside the code buffer, the handler looks up the block and then the instruction.
-/

namespace Ballistic

open Machine

/-- `bal_jit_block_entry_t` with the metadata behind it. Host addresses are numbers. -/
structure JitBlockEntry where
  rxStart : Nat
  rxSize : BitVec 32
  baseGuestPc : Address
  mappings : List (BitVec 32 × BitVec 32)
  deriving DecidableEq, Repr

structure JitDebugContext where
  entries : List JitBlockEntry
  entryCapacity : Nat
  arenaOffset : Nat
  arenaCapacity : Nat
  jitBufferStart : Nat
  jitBufferEnd : Nat
  status : BalError

namespace JitDebugContext

/-- `bal_jit_debug_init` and `bal_jit_debug_register_signal_handler`. -/
def init (buffer size : Nat) : JitDebugContext where
  entries := []
  entryCapacity := 8192
  arenaOffset := 0
  arenaCapacity := 4 * 1024 * 1024
  jitBufferStart := buffer
  jitBufferEnd := buffer + size
  status := .success

/-- `bal_jit_debug_add_block`. A context that has refused a block refuses every later one. -/
def addBlock (context : JitDebugContext) (entry : JitBlockEntry) : JitDebugContext :=
  if context.status ≠ .success then context
  else if entry.mappings.length = 0 then { context with status := .invalidArgument }
  else if context.entries.length ≥ context.entryCapacity then
    { context with status := .bufferOverflow }
  else
    let totalMappingSize := entry.mappings.length * 8
    let totalMemoryRequired := totalMappingSize + 32
    if context.arenaOffset + totalMemoryRequired > context.arenaCapacity then
      { context with status := .bufferOverflow }
    else
      { context with
        entries := context.entries ++ [entry]
        arenaOffset := context.arenaOffset + totalMemoryRequired }

end JitDebugContext

/-- The host address is inside the block of the entry. -/
def JitBlockEntry.covers (entry : JitBlockEntry) (rip : Nat) : Bool :=
  decide (entry.rxStart ≤ rip) && decide (rip < entry.rxStart + entry.rxSize.toNat)

/-- The loop over the mappings, which breaks at the first one that begins behind the offset. -/
def searchMappings (baseGuestPc : Address) (blockOffset : BitVec 32) :
    Address → List (BitVec 32 × BitVec 32) → Address
  | guestPc, [] => guestPc
  | guestPc, (x86Offset, guestPcOffset) :: mappings =>
      if x86Offset > blockOffset then guestPc
      else searchMappings baseGuestPc blockOffset (baseGuestPc + guestPcOffset.setWidth 64) mappings

/-- The guest address that is reported for a host address inside the block. -/
def JitBlockEntry.guestPc (entry : JitBlockEntry) (rip : Nat) : Address :=
  searchMappings entry.baseGuestPc (BitVec.ofNat 32 (rip - entry.rxStart)) entry.baseGuestPc
    entry.mappings

/-- What `handle_jit_fault` makes of a fault: a crash that is reported for an entry and a guest
address, a crash in an unknown block, or a fault that is not its own. -/
inductive FaultReport where
  | crash (entry : JitBlockEntry) (guestPc : Address)
  | unknownBlock
  | unhandled
  deriving DecidableEq, Repr

/-- The loop of `handle_jit_fault` over the entries: the first one that covers the address. -/
def JitDebugContext.findEntry (context : JitDebugContext) (rip : Nat) : Option JitBlockEntry :=
  context.entries.find? fun entry => entry.covers rip

/-- `handle_jit_fault`, for a fault on a CPU record with this debug context. -/
def JitDebugContext.handleJitFault (context : JitDebugContext) (rip : Nat) : FaultReport :=
  match context.findEntry rip with
  | some entry => .crash entry (entry.guestPc rip)
  | none =>
      if context.jitBufferStart ≤ rip ∧ rip < context.jitBufferEnd then .unknownBlock else .unhandled

/-- What `bal_tier1_compiler_translate` hands to the debugger, for a buffer mapped at `rxBuffer`. -/
def DebugBlock.entry (block : DebugBlock) (rxBuffer : Nat) : JitBlockEntry where
  rxStart := rxBuffer + block.rxStart
  rxSize := block.rxSize
  baseGuestPc := block.guestAddressBase
  mappings := block.mappings

/-- The debug context after a translation. -/
def JitDebugContext.record (context : JitDebugContext) (rxBuffer : Nat) (t : Translation) :
    JitDebugContext :=
  match t.debugBlock with
  | some block => context.addBlock (block.entry rxBuffer)
  | none => context

end Ballistic
