import Ballistic.JitDebug

/-!
# The debug table in memory

`bal_jit_debug_add_block` on the memory it works on. The entries point to metadata in an arena, and
the metadata points on to the mappings behind it; `JitDebugTable.block` follows these pointers as the
fault handler does.
-/

namespace Ballistic

open Machine

/-- `bal_jit_block_entry_t`. -/
structure JitEntry where
  rxStart : Address
  rxSize : BitVec 32
  metadata : Address

/-- `bal_jit_debug_context_t` with the memory that its arena is a part of. The array of entries is an
allocation of its own; `alive` says that the magic number is that of a live context. -/
structure JitDebugTable where
  entries : Nat → JitEntry
  metadataArena : Address
  entryCount : Nat
  entryCapacity : Nat
  arenaOffset : Nat
  arenaCapacity : Nat
  status : BalError
  alive : Bool
  memory : Memory

/-- The arguments of `bal_jit_debug_add_block`; the mapping is none when its pointer is `NULL`. -/
structure JitDebugCall where
  rxStart : Address
  rxSize : BitVec 32
  baseGuestPc : Address
  mapping : Option (Nat → BitVec 32 × BitVec 32)
  instructionCount : BitVec 32

/-- The size of `bal_jit_block_metadata_t`. -/
def jitMetadataSize : Nat := 32

/-- The size of `bal_jit_instruction_map_t`. -/
def jitMapSize : Nat := 8

/-- The `memcpy` of the mappings. -/
def copyMappings (m : Memory) (a : Address) : List (BitVec 32 × BitVec 32) → Memory
  | [] => m
  | (x86Offset, guestPcOffset) :: mappings =>
      copyMappings ((m.write32 a x86Offset).write32 (above a 4) guestPcOffset) (above a jitMapSize)
        mappings

/-- The stores to the fields of `bal_jit_block_metadata_t`. -/
def writeMetadata (m : Memory) (metadata : Address) (baseGuestPc : Address)
    (instructionCount : BitVec 32) (mappings : Address) : Memory :=
  let m := m.write64 metadata baseGuestPc
  let m := m.write32 (above metadata 8) instructionCount
  m.write64 (above metadata 16) mappings

namespace JitDebugTable

/-- `bal_jit_debug_init`, once it has its two allocations. -/
def init (memory : Memory) (entries : Nat → JitEntry) (metadataArena : Address) : JitDebugTable where
  entries := entries
  metadataArena := metadataArena
  entryCount := 0
  entryCapacity := 8192
  arenaOffset := 0
  arenaCapacity := 4 * 1024 * 1024
  status := .success
  alive := true
  memory := memory

/-- The stores of `bal_jit_debug_add_block`. -/
def record (table : JitDebugTable) (call : JitDebugCall)
    (mappings : List (BitVec 32 × BitVec 32)) : JitDebugTable :=
  let metadata := above table.metadataArena table.arenaOffset
  let arenaMapping := above metadata jitMetadataSize
  let memory := writeMetadata table.memory metadata call.baseGuestPc call.instructionCount
    arenaMapping
  { table with
    memory := copyMappings memory arenaMapping mappings
    arenaOffset := table.arenaOffset + (mappings.length * jitMapSize + jitMetadataSize)
    entries := Function.update table.entries table.entryCount
      { rxStart := call.rxStart, rxSize := call.rxSize, metadata := metadata }
    entryCount := table.entryCount + 1
    status := .success }

/-- `bal_jit_debug_add_block`; the status is the result. -/
def addBlock (table : JitDebugTable) (call : JitDebugCall) : JitDebugTable :=
  if table.status ≠ .success then table
  else
    let table := { table with status := .invalidArgument }
    if call.rxStart = 0 then table
    else
      match call.mapping with
      | none => table
      | some mapping =>
          if call.instructionCount = 0 then table
          else if table.entryCapacity ≤ table.entryCount then { table with status := .bufferOverflow }
          else if !table.alive then { table with status := .structCorrupted }
          else
            let mappings := (List.range call.instructionCount.toNat).map mapping
            let totalMemoryRequired := mappings.length * jitMapSize + jitMetadataSize
            if table.arenaCapacity < table.arenaOffset + totalMemoryRequired then
              { table with status := .bufferOverflow }
            else table.record call mappings

/-- A sequence of calls. -/
def addBlocks (table : JitDebugTable) (calls : List JitDebugCall) : JitDebugTable :=
  calls.foldl addBlock table

/-! ### Reading -/

/-- The number of mappings of an entry. -/
def mappingCount (table : JitDebugTable) (i : Nat) : Nat :=
  (table.memory.read32 (above (table.entries i).metadata 8)).toNat

/-- The mappings that the metadata of an entry points to. -/
def mappings (table : JitDebugTable) (i : Nat) : List (BitVec 32 × BitVec 32) :=
  let a := table.memory.read64 (above (table.entries i).metadata 16)
  (List.range (table.mappingCount i)).map fun k =>
    (table.memory.read32 (above a (jitMapSize * k)),
      table.memory.read32 (above a (jitMapSize * k + 4)))

/-- An entry with the metadata behind it. -/
def block (table : JitDebugTable) (i : Nat) : JitBlockEntry where
  rxStart := (table.entries i).rxStart.toNat
  rxSize := (table.entries i).rxSize
  baseGuestPc := table.memory.read64 (table.entries i).metadata
  mappings := table.mappings i

/-- The offset in the arena at which the record of an entry starts. -/
def start (table : JitDebugTable) (i : Nat) : Nat :=
  distance table.metadataArena (table.entries i).metadata

/-- The offset behind the record of an entry. -/
def finish (table : JitDebugTable) (i : Nat) : Nat :=
  table.start i + jitMetadataSize + jitMapSize * table.mappingCount i

end JitDebugTable

/-- What a call asks to be recorded. -/
def JitDebugCall.entry (call : JitDebugCall) (mapping : Nat → BitVec 32 × BitVec 32) :
    JitBlockEntry where
  rxStart := call.rxStart.toNat
  rxSize := call.rxSize
  baseGuestPc := call.baseGuestPc
  mappings := (List.range call.instructionCount.toNat).map mapping

end Ballistic
