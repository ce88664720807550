import Ballistic.EngineInit
import Ballistic.Machine.Ledger

/-!
# The lifetime of engines

`bal_engine_destroy` on Linux, and a process that initialises and destroys engines in any order with
one allocator. An engine holds what the fields of its record point to; the disposition of the fault
signals belongs to the process.
-/

namespace Ballistic

open Machine

/-- The pointers in `internal_engine_state_t` to what the engine has to release. -/
structure EngineRecord where
  engineState : Address
  tier1Buffer : ExecutableBuffer
  entries : Address
  metadataArena : Address
  deriving DecidableEq, Repr

/-- The pointers of the debug context behind `bal_jit_debug_init`; a context that could not be
initialised is cleared. -/
def Host.debugTables (host : Host) (calls : List AllocatorCall) : Address × Address :=
  let entries := host.allocate calls memoryAlignment jitDebugEntriesSize
  let arena := host.allocate (calls ++ [.allocate jitDebugEntriesSize entries]) memoryAlignment
    jitDebugArenaSize
  if entries = 0 ∨ arena = 0 then (0, 0) else (entries, arena)

/-- The record that `bal_engine_init` makes after the calls so far. -/
def Host.engineRecord (host : Host) (calls : List AllocatorCall) : EngineRecord :=
  let engineState := host.allocate calls memoryAlignment internalEngineStateSize
  let calls := calls ++ [.allocate internalEngineStateSize engineState]
  let buffer := host.allocateExecutable calls 4096 tier1BufferSizeBytes
  let tables := host.debugTables (calls ++ [.allocateExecutable tier1BufferSizeBytes buffer])
  { engineState := engineState, tier1Buffer := buffer, entries := tables.1,
    metadataArena := tables.2 }

/-- `bal_jit_debug_destroy`. -/
def EngineRecord.jitDebugDestroy (r : EngineRecord) : List AllocatorCall :=
  (if r.entries ≠ 0 then [.free r.entries jitDebugEntriesSize] else []) ++
    if r.metadataArena ≠ 0 then [.free r.metadataArena jitDebugArenaSize] else []

/-- The calls of the allocator in `bal_engine_destroy`. -/
def EngineRecord.destroyCalls (r : EngineRecord) : List AllocatorCall :=
  (if r.tier1Buffer.rwPointer ≠ 0 then [.freeExecutable r.tier1Buffer tier1BufferSizeBytes] else []) ++
    (r.jitDebugDestroy ++ [.free r.engineState internalEngineStateSize])

/-- A process with its engine variables: the calls of the allocator so far, the signals whose
disposition is the fault handler, and `engine->engine_state`, none being `NULL`. -/
structure Process (V : Type) where
  calls : List AllocatorCall
  handled : FaultSignal → Bool
  engines : V → Option EngineRecord

inductive LifecycleCall (V : Type) where
  | init (v : V) (arguments : InitArguments)
  | destroy (v : V)

namespace Process

variable {V : Type} [DecidableEq V] (host : Host)

def start : Process V := ⟨[], fun _ => false, fun _ => none⟩

/-- What `bal_engine_init` returns and leaves in the process. -/
def initResult (p : Process V) (arguments : InitArguments) : BalError × InitState :=
  balEngineInit host arguments { InitState.start 0 0 .success with calls := p.calls }

def init (p : Process V) (v : V) (arguments : InitArguments) : Process V :=
  let result := p.initResult host arguments
  { calls := result.2.calls
    handled := fun signal => p.handled signal || result.2.registrations.any fun x => x.1 == signal
    engines :=
      if result.1 = .success then Function.update p.engines v (some (host.engineRecord p.calls))
      else p.engines }

/-- `bal_engine_destroy`: the signals get their default disposition. -/
def destroy (p : Process V) (v : V) : Process V :=
  match p.engines v with
  | none => p
  | some r =>
      { calls := p.calls ++ r.destroyCalls
        handled := fun signal => p.handled signal && !host.sigaction signal
        engines := Function.update p.engines v none }

def perform (p : Process V) : LifecycleCall V → Process V
  | .init v arguments => p.init host v arguments
  | .destroy v => p.destroy host v

def performAll (p : Process V) (calls : List (LifecycleCall V)) : Process V :=
  calls.foldl (perform host) p

end Process

end Ballistic
