import Ballistic.EngineState

/-!
# The initialisation of an engine

`bal_engine_init` on Linux, as a sequence of calls of the host's allocator. The allocator may refuse
any request, so it is a function of the requests it has already seen, and what counts afterwards is
the log of all calls with the registrations of the fault handler.
-/

namespace Ballistic

open Machine

/-- `bal_executable_buffer_t`; an address of zero is `NULL`. -/
structure ExecutableBuffer where
  rwPointer : Address
  rxPointer : Address
  deriving DecidableEq, Repr

/-- A call of the allocator, with its result. -/
inductive AllocatorCall where
  | allocate (size : Nat) (pointer : Address)
  | allocateExecutable (size : Nat) (buffer : ExecutableBuffer)
  | free (pointer : Address) (size : Nat)
  | freeExecutable (buffer : ExecutableBuffer) (size : Nat)
  deriving DecidableEq, Repr

/-- The signals that the fault handler is for. -/
inductive FaultSignal where
  | segv
  | ill
  deriving DecidableEq, Repr

/-- The host: what `bal_allocator_t` answers after the calls so far to a request for an alignment and
a size, and whether `sigaction` succeeds. -/
structure Host where
  allocate : List AllocatorCall → Nat → Nat → Address
  allocateExecutable : List AllocatorCall → Nat → Nat → ExecutableBuffer
  sigaction : FaultSignal → Bool

/-- What the initialisation changes: the calls of the allocator, oldest first, the signals for which
the handler is registered with the debug context given for it, `cpu->debug_context`, and two fields of
the engine. -/
structure InitState where
  calls : List AllocatorCall
  registrations : List (FaultSignal × Address)
  cpuDebugContext : Address
  engineState : Address
  status : BalError

/-- Which of the pointers that `bal_engine_init` checks are there, in the order of the checks. -/
structure InitArguments where
  engine : Bool
  cpu : Bool
  allocator : Bool
  allocate : Bool
  free : Bool
  allocateExecutable : Bool
  protectRw : Bool
  protectRx : Bool
  freeExecutable : Bool
  memoryInterface : Bool
  memoryContext : Bool
  translate : Bool

/-- The checks behind the one of the engine itself. -/
def InitArguments.checked (a : InitArguments) : Bool :=
  a.cpu && a.allocator && a.allocate && a.free && a.allocateExecutable && a.protectRw &&
    a.protectRx && a.freeExecutable && a.memoryInterface && a.memoryContext && a.translate

def InitArguments.valid (a : InitArguments) : Bool := a.engine && a.checked

/-- `MEMORY_ALIGNMENT`, and the alignment that `bal_jit_debug_init` asks for. -/
def memoryAlignment : Nat := 64

/-- The bytes of the entries: `BAL_JIT_DEBUG_ENTRY_CAPACITY` of 32 bytes each. -/
def jitDebugEntriesSize : Nat := 8192 * 32

/-- `BAL_JIT_DEBUG_ARENA_CAPACITY_BYTES`. -/
def jitDebugArenaSize : Nat := 4 * 1024 * 1024

namespace InitState

/-- Before the call. -/
def start (cpuDebugContext engineState : Address) (status : BalError) : InitState where
  calls := []
  registrations := []
  cpuDebugContext := cpuDebugContext
  engineState := engineState
  status := status

variable (s : InitState)

def call (c : AllocatorCall) : InitState := { s with calls := s.calls ++ [c] }

def fail (e : BalError) : BalError × InitState := (e, { s with status := e })

def register (signal : FaultSignal) (context : Address) : InitState :=
  { s with registrations := s.registrations ++ [(signal, context)] }

end InitState

section Init

variable (host : Host)

def balJitDebugInit (s : InitState) : BalError × InitState :=
  let entries := host.allocate s.calls memoryAlignment jitDebugEntriesSize
  let s := s.call (.allocate jitDebugEntriesSize entries)
  if entries = 0 then (.allocationFailed, s)
  else
    let arena := host.allocate s.calls memoryAlignment jitDebugArenaSize
    let s := s.call (.allocate jitDebugArenaSize arena)
    if arena = 0 then (.allocationFailed, s.call (.free entries jitDebugEntriesSize))
    else (.success, s)

def balJitDebugRegisterSignalHandler (context jitBufferStart : Address) (jitBufferSize : Nat)
    (s : InitState) : BalError × InitState :=
  if context = 0 ∨ jitBufferStart = 0 ∨ jitBufferSize = 0 then (.invalidArgument, s)
  else if !host.sigaction .segv then (.allocationFailed, s)
  else
    let s := s.register .segv context
    if !host.sigaction .ill then (.allocationFailed, s) else (.success, s.register .ill context)

/-- The result of `bal_tier1_compiler_init`; the assembler and the window are initialised with
pointers and a size that have passed the same checks. -/
def balTier1CompilerInit (buffer : ExecutableBuffer) (bufferSize : Nat) : BalError :=
  if buffer.rwPointer = 0 ∨ buffer.rxPointer = 0 then .invalidArgument
  else if bufferSize = 0 then .invalidArgument
  else .success

/-- `bal_engine_init` behind the allocation of the executable buffer. -/
def finishEngineInit (engineState : Address) (buffer : ExecutableBuffer) (s : InitState) :
    BalError × InitState :=
  let debugContext := above engineState offsetDebugContext
  let debug := balJitDebugInit host s
  let s :=
    if debug.1 = .success then
      { (balJitDebugRegisterSignalHandler host debugContext buffer.rxPointer tier1BufferSizeBytes
          debug.2).2 with
        cpuDebugContext := debugContext }
    else debug.2
  let status := balTier1CompilerInit buffer tier1BufferSizeBytes
  if status ≠ .success then
    -- The address of the field is freed, with the size of the whole record.
    let s := s.call (.free (above engineState offsetTier1Buffer) internalEngineStateSize)
    let s := s.call (.free engineState internalEngineStateSize)
    s.fail status
  else (.success, { s with engineState := engineState, status := .success })

def balEngineInit (arguments : InitArguments) (s : InitState) : BalError × InitState :=
  if !arguments.engine then (.invalidArgument, s)
  else if !arguments.checked then s.fail .invalidArgument
  else
    let engineState := host.allocate s.calls memoryAlignment internalEngineStateSize
    let s := s.call (.allocate internalEngineStateSize engineState)
    if engineState = 0 then s.fail .allocationFailed
    else
      let buffer := host.allocateExecutable s.calls 4096 tier1BufferSizeBytes
      let s := s.call (.allocateExecutable tier1BufferSizeBytes buffer)
      if buffer.rwPointer = 0 then s.fail .allocationFailed
      else finishEngineInit host engineState buffer s

end Init

end Ballistic
