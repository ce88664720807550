import Ballistic.BlockCache
import Ballistic.BlockCall
import Ballistic.Tier1Compiler

/-!
# The engine

`bal_engine_run_thread` as a machine of atomic steps. The steps are those at which another thread can
see or change something: the compare-exchange, the loads and stores of the request flags, and the
release. What lies between the last check of an iteration and the next one is one step, `Dispatch`:
the interrupt flag, the sentinel, the cache, the compiler with its retry, and the call of the block.

Host code is of any type with a position in the code buffer, so that a run can carry along when a
block was compiled; the engine itself has positions only.
-/

namespace Ballistic

open Machine

/-- `MAX_INSTRUCTIONS`. -/
def maxBlockInstructions : Nat := 65535

def engineSentinel : Address := 0xFFFFFFFFFFFFFFFF

/-- The guest program: what the memory interface and the decoder table say. -/
structure Guest where
  table : DecoderTable
  memory : MemoryInterface

/-- `bal_engine_t` with the state behind it. -/
structure Engine (Code : Type) where
  cpu : A64.State
  flags : EngineFlags
  status : BalError
  compiler : Compiler
  blockCache : BlockCache Code
  isExecuting : Bool
  stopRequested : Bool
  clearCacheRequested : Bool

/-- How host code is told from its position in the code buffer. -/
structure CodeKind (Code : Type) where
  position : Code → Nat
  ofPosition : Nat → Code

section Dispatch

variable {Code : Type} (guest : Guest) (kind : CodeKind Code)

/-- The arguments of the translation: a single step asks for one instruction. -/
def Guest.input (flags : EngineFlags) : TranslateInput where
  table := guest.table
  memory := guest.memory
  maxInstructions := if flags.has EngineFlags.singleStep then 1 else maxBlockInstructions
  engineFlags := flags

/-- The first translation returns `NULL` with a full buffer, so it is tried again after a reset. -/
def Retries (flags : EngineFlags) (c : Compiler) (pc : Address) (t : Translation) : Prop :=
  Translates (guest.input flags) c pc t ∧ t.entry = none ∧
    t.compiler.assembler.status = .instructionOverflow

/-- The compilation of the block at `pc`, with the retry. The reset between the two translations is taken
to come through, see `Assembler.resetThrough`. -/
inductive Compiles (flags : EngineFlags) (c : Compiler) (pc : Address) : Translation → Prop
  | once {t : Translation} (htranslates : Translates (guest.input flags) c pc t)
      (hdone : t.entry ≠ none ∨ t.compiler.assembler.status ≠ .instructionOverflow) :
      Compiles flags c pc t
  | again {t t' : Translation} (hretries : Retries guest flags c pc t)
      (htranslates : Translates (guest.input flags) t.compiler.reset pc t') :
      Compiles flags c pc t'

def Engine.cacheDisabled (e : Engine Code) : Bool := e.flags.has EngineFlags.disableBlockCache

/-- The host code an iteration gets for the block at the program counter: from the cache, or
compiled, with the compiler after it. -/
inductive Obtains (e : Engine Code) : Compiler → Code → Prop
  | cached {code : Code} (hcache : e.cacheDisabled = false)
      (hlookup : e.blockCache.lookup e.cpu.pc = some code) : Obtains e e.compiler code
  | compiled {t : Translation} {entry : Nat}
      (hmiss : e.cacheDisabled = true ∨ e.blockCache.lookup e.cpu.pc = none)
      (hcompiles : Compiles guest e.flags e.compiler e.cpu.pc t) (hentry : t.entry = some entry) :
      Obtains e t.compiler (kind.ofPosition entry)

/-- The engine with the block entered in the cache and the CPU as the block leaves it. -/
def Engine.afterBlock (e : Engine Code) (c : Compiler) (code : Code) (cpu : A64.State) :
    Engine Code :=
  { e with
    cpu := cpu
    compiler := c
    blockCache := if e.cacheDisabled then e.blockCache else e.blockCache.insert e.cpu.pc code }

/-- Neither an interrupt nor the sentinel ends the loop. -/
def Engine.Proceeds (e : Engine Code) : Prop :=
  e.flags.has EngineFlags.interruptPending = false ∧ e.cpu.pc ≠ engineSentinel

/-- An iteration from the check of the interrupt flag on: the engine after it, the host code that was
executed, and whether the loop goes on. -/
inductive Dispatch (e : Engine Code) : Engine Code → Option Code → Bool → Prop
  | interrupt (h : e.flags.has EngineFlags.interruptPending = true) :
      Dispatch e { e with flags := e.flags &&& ~~~EngineFlags.interruptPending } none false
  | sentinel (h : e.flags.has EngineFlags.interruptPending = false)
      (hpc : e.cpu.pc = engineSentinel) : Dispatch e e none false
  | failure {t : Translation} (h : e.Proceeds)
      (hmiss : e.cacheDisabled = true ∨ e.blockCache.lookup e.cpu.pc = none)
      (hcompiles : Compiles guest e.flags e.compiler e.cpu.pc t) (hentry : t.entry = none) :
      Dispatch e { e with compiler := t.compiler, status := t.compiler.status } none false
  | block {c : Compiler} {code : Code} {cpu : A64.State} (h : e.Proceeds)
      (hobtains : Obtains guest kind e c code)
      (hruns : RunsBlock c.assembler.buffer (kind.position code) e.cpu cpu) :
      Dispatch e (e.afterBlock c code cpu) (some code) (!e.flags.has EngineFlags.singleStep)

end Dispatch

/-! ### Threads -/

/-- Where a caller of `bal_engine_run_thread` stands. -/
inductive RunPoint where
  | outside
  | compareExchange
  | stopCheck
  | clearCheck
  | clearReset
  | clearStore
  | dispatch
  | release
  | returned (status : BalError)
  deriving DecidableEq, Repr

/-- Inside the execution loop: past the compare-exchange and before the release. -/
def RunPoint.inLoop : RunPoint → Bool
  | stopCheck | clearCheck | clearReset | clearStore | dispatch | release => true
  | _ => false

section Threads

variable {Code : Type} (guest : Guest) (kind : CodeKind Code)

/-- One atomic step of `bal_engine_run_thread`: from a point and a shared engine to the next, with
the host code that the step executes. -/
inductive RunStep : RunPoint → Engine Code → RunPoint → Engine Code → Option Code → Prop
  | entered {e : Engine Code} (h : e.isExecuting = false) :
      -- the value that the compare-exchange stores is `false` as well
      RunStep .compareExchange e .stopCheck { e with isExecuting := false } none
  | refused {e : Engine Code} (h : e.isExecuting = true) :
      RunStep .compareExchange e (.returned .engineAlreadyRunning) e none
  | stopped {e : Engine Code} (h : e.stopRequested = true) :
      RunStep .stopCheck e .release e none
  | unstopped {e : Engine Code} (h : e.stopRequested = false) :
      RunStep .stopCheck e .clearCheck e none
  | cleared {e : Engine Code} (h : e.clearCacheRequested = true) :
      RunStep .clearCheck e .clearReset e none
  | uncleared {e : Engine Code} (h : e.clearCacheRequested = false) :
      RunStep .clearCheck e .dispatch e none
  | reset {e : Engine Code} :
      RunStep .clearReset e .clearStore
        { e with compiler := e.compiler.reset, blockCache := .empty } none
  | stored {e : Engine Code} :
      RunStep .clearStore e .dispatch { e with clearCacheRequested := false } none
  | dispatched {e e' : Engine Code} {executed : Option Code} {again : Bool}
      (h : Dispatch guest kind e e' executed again) :
      RunStep .dispatch e (if again then .stopCheck else .release) e' executed
  | released {e : Engine Code} :
      RunStep .release e (.returned e.status) { e with isExecuting := false } none

/-- `bal_engine_is_running`. -/
def Engine.isRunning (e : Engine Code) : Bool := e.isExecuting

/-- `bal_engine_stop_thread`. -/
def Engine.stopThread (e : Engine Code) : Engine Code := { e with stopRequested := true }

/-- `bal_engine_clear_cache`. -/
def Engine.clearCache (e : Engine Code) : Engine Code := { e with clearCacheRequested := true }

/-- An engine as `bal_engine_init` leaves it, on a CPU record with the guest state `cpu`. -/
def Engine.init (cpu : A64.State) (c : Compiler) : Engine Code where
  cpu := cpu
  flags := 0
  status := .success
  compiler := c
  blockCache := .empty
  isExecuting := false
  stopRequested := false
  clearCacheRequested := false

end Threads

end Ballistic
