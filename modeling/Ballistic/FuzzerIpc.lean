import Ballistic.FuzzerProtocol

/-!
# The fuzzer's processes and pipes

A caller of `bal_fuzzer_ipc.c` and the workers it has spawned, each with a pipe to its standard input
and one from its standard output. A step is one system call of one process, with the computation up to
the next one: a `read` or `write` transfers any number of bytes that is possible, and what makes a call
wait (a full pipe, an empty one, a `poll` that times out or is interrupted) is that it has no step.
`Fault` has what the surroundings can do at any time: calls that fail, processes that are killed.

The ends of a pipe are closed when no process has them any more. A worker inherits the caller's ends of
the pipes of every worker before it, since nothing closes them between `fork` and `execl`.
-/

namespace Ballistic.Fuzzer

open Machine

variable {ι W : Type}

/-- What a worker's loop makes of an input: the response, and whether the loop ends when the response
cannot be written. At an early exit it goes on with the next input. Where the program `hangs` it may
never come to a response, and then stays with the input for ever. -/
structure WorkerProgram (W : Type) where
  start : W
  handles : W → FuzzerInput → W → FuzzerResponse → Bool → Prop
  hangs : W → FuzzerInput → Prop

inductive WorkerPoint where
  | reading (got : List Byte)
  | handling (input : FuzzerInput)
  | writing (response : FuzzerResponse) (final : Bool) (written : Nat)
  | exited

/-- A worker with its pipes, and what `bal_fuzzer_worker_handle_t` still has of them. -/
structure Worker (ι W : Type) where
  program : ι
  memory : W
  point : WorkerPoint
  /-- What is in the pipe to the standard input. -/
  input : List Byte
  /-- What is in the pipe from the standard output. -/
  output : List Byte
  /-- The caller's ends are open: the descriptors of the handle are not `-1`. -/
  handle : Bool
  /-- The workers whose caller's ends were open at the `fork`. -/
  inherited : List Nat
  /-- A response of an early exit was given up. -/
  abandoned : Bool

/-- The calls of the library, on workers by the order in which they were spawned. -/
inductive IpcCall (ι : Type) where
  | spawn (program : ι)
  | send (w : Nat) (input : FuzzerInput)
  | receive (w : Nat)
  | destroy (w : Nat)

/-- The worker that has to be there for the call. -/
def IpcCall.worker : IpcCall ι → Option Nat
  | spawn _ => none
  | send w _ | receive w | destroy w => some w

/-- What a call came to. A failed `bal_fuzzer_ipc_receive` leaves what it had read in the response. -/
inductive IpcResult where
  | spawned
  | spawnFailed (status : BalError)
  | refusedSend (w : Nat) (input : FuzzerInput)
  | sent (w : Nat) (input : FuzzerInput)
  | sendFailed (w : Nat) (input : FuzzerInput)
  | refusedReceive (w : Nat)
  | received (w : Nat) (response : FuzzerResponse)
  | receiveFailed (w : Nat) (response : FuzzerResponse)
  | destroyed (w : Nat)

/-- The status that the call returns. The last status of the enumeration is out of the range that a
response is checked for. -/
def IpcResult.status : IpcResult → BalError
  | spawned | sent _ _ | destroyed _ => .success
  | spawnFailed status => status
  | refusedSend _ _ | refusedReceive _ => .invalidArgument
  | sendFailed _ _ | receiveFailed _ _ => .threadCleanup
  | received _ response =>
      if WorkerStatus.crashed.code < response.status then .structCorrupted else .success

inductive CallerPoint where
  | between
  | sending (w : Nat) (input : FuzzerInput) (written : Nat)
  | receiving (w : Nat) (got : List Byte)
  | exited

structure System (ι W : Type) where
  workers : List (Worker ι W)
  point : CallerPoint
  history : List IpcResult

/-- What is fixed in a run: the programs, the caller, which decides by what its calls came to, the
capacity of a pipe, and whether the processes were started with `SIGPIPE` ignored. -/
structure Harness (ι W : Type) where
  programs : ι → WorkerProgram W
  caller : List IpcResult → Option (IpcCall ι)
  capacity : Nat
  ignoresSigpipe : Bool

def System.init : System ι W := ⟨[], .between, []⟩

/-- Some process other than the worker has the far ends of its pipes. -/
def System.Held (s : System ι W) (w : Nat) : Prop :=
  (s.point ≠ .exited ∧ ∃ x, s.workers[w]? = some x ∧ x.handle = true) ∨
    ∃ (j : Nat) (y : Worker ι W), s.workers[j]? = some y ∧ w ∈ y.inherited ∧ y.point ≠ .exited

def System.setWorker (s : System ι W) (w : Nat) (x : Worker ι W) : System ι W :=
  { s with workers := s.workers.set w x }

/-- A call returns. -/
def System.returns (s : System ι W) (result : IpcResult) : System ι W :=
  { s with point := .between, history := s.history ++ [result] }

/-! ### Workers -/

/-- `read_exact`, after a `read` that returned `bytes`. -/
def Worker.readExact (x : Worker ι W) (got bytes rest : List Byte) : Worker ι W :=
  { x with
    input := rest
    point :=
      if (got ++ bytes).length = FuzzerInput.codec.size then
        .handling (FuzzerInput.codec.decode (got ++ bytes))
      else .reading (got ++ bytes) }

/-- `write_exact`, after a `write` that returned `n`. -/
def Worker.writeExact (x : Worker ι W) (response : FuzzerResponse) (final : Bool) (written n : Nat) :
    Worker ι W :=
  { x with
    output := x.output ++ ((FuzzerResponse.codec.encode response).drop written).take n
    point :=
      if written + n = FuzzerResponse.codec.size then .reading []
      else .writing response final (written + n) }

/-- The response cannot be written any further. -/
def Worker.giveUp (x : Worker ι W) (goesOn : Bool) : Worker ι W :=
  { x with
    point := if goesOn then .reading [] else .exited
    abandoned := x.abandoned || goesOn }

/-- A step of a worker, `held` being whether the far ends of its pipes are open. -/
inductive WorkerStep (harness : Harness ι W) (held : Prop) (x : Worker ι W) : Worker ι W → Prop
  | read {got bytes rest : List Byte} (hpoint : x.point = .reading got)
      (hinput : x.input = bytes ++ rest) (hne : bytes ≠ [])
      (hle : (got ++ bytes).length ≤ FuzzerInput.codec.size) :
      WorkerStep harness held x (x.readExact got bytes rest)
  | endOfFile {got : List Byte} (hpoint : x.point = .reading got) (hempty : x.input = [])
      (hclosed : ¬held) : WorkerStep harness held x { x with point := .exited }
  | handle {input : FuzzerInput} {memory : W} {response : FuzzerResponse} {final : Bool}
      (hpoint : x.point = .handling input)
      (hhandles : (harness.programs x.program).handles x.memory input memory response final) :
      WorkerStep harness held x { x with memory := memory, point := .writing response final 0 }
  | write {response : FuzzerResponse} {final : Bool} {written n : Nat}
      (hpoint : x.point = .writing response final written) (hpos : 0 < n)
      (hle : written + n ≤ FuzzerResponse.codec.size)
      (hroom : x.output.length + n ≤ harness.capacity) (hheld : held) :
      WorkerStep harness held x (x.writeExact response final written n)
  | brokenPipe {response : FuzzerResponse} {final : Bool} {written : Nat}
      (hpoint : x.point = .writing response final written) (hclosed : ¬held) :
      WorkerStep harness held x (x.giveUp (harness.ignoresSigpipe && !final))

/-- A worker dies, or a `write` of it fails. -/
inductive WorkerFault (x : Worker ι W) : Worker ι W → Prop
  | dies : WorkerFault x { x with point := .exited }
  | writeFails {response : FuzzerResponse} {final : Bool} {written : Nat}
      (hpoint : x.point = .writing response final written) : WorkerFault x (x.giveUp !final)

/-! ### The caller -/

/-- A worker as it is after `execl`. -/
def System.newWorker (s : System ι W) (program : ι) (memory : W) : Worker ι W where
  program := program
  memory := memory
  point := .reading []
  input := []
  output := []
  handle := true
  inherited := (List.range s.workers.length).filter fun k => s.workers[k]?.any (·.handle)
  abandoned := false

/-- `bal_fuzzer_ipc_spawn`. -/
def System.ipcSpawn (s : System ι W) (program : ι) (memory : W) : System ι W :=
  ({ s with workers := s.workers ++ [s.newWorker program memory] } : System ι W).returns .spawned

/-- `bal_fuzzer_ipc_send`, after a `write` that returned `n`. -/
def System.ipcSend (s : System ι W) (w : Nat) (x : Worker ι W) (input : FuzzerInput)
    (written n : Nat) : System ι W :=
  let bytes := ((FuzzerInput.codec.encode input).drop written).take n
  let s := s.setWorker w { x with input := x.input ++ bytes }
  if written + n = FuzzerInput.codec.size then s.returns (.sent w input)
  else { s with point := .sending w input (written + n) }

/-- `bal_fuzzer_ipc_receive`, after a `read` that returned `bytes`. -/
def System.ipcReceive (s : System ι W) (w : Nat) (x : Worker ι W) (got bytes rest : List Byte) :
    System ι W :=
  let s := s.setWorker w { x with output := rest }
  if (got ++ bytes).length = FuzzerResponse.codec.size then
    s.returns (.received w (FuzzerResponse.codec.decode (got ++ bytes)))
  else { s with point := .receiving w (got ++ bytes) }

/-- The response as it is when no more can be read into it. -/
def tornResponse (got : List Byte) : FuzzerResponse :=
  FuzzerResponse.codec.decode
    (got ++ List.replicate (FuzzerResponse.codec.size - got.length) 0)

/-- `bal_fuzzer_ipc_destroy`: closed, killed and reaped. -/
def Worker.destroy (x : Worker ι W) : Worker ι W :=
  if x.handle then { x with handle := false, point := .exited } else x

/-- The test of `bal_fuzzer_ipc_send` on its input. -/
def tooManyInstructions (input : FuzzerInput) : Bool :=
  decide (fuzzerMaxInstructions < input.instructionCount.toNat)

inductive Step (harness : Harness ι W) (s : System ι W) : System ι W → Prop
  | worker {w : Nat} {x x' : Worker ι W} (hw : s.workers[w]? = some x)
      (hstep : WorkerStep harness (s.Held w) x x') : Step harness s (s.setWorker w x')
  | spawn {program : ι} (hpoint : s.point = .between)
      (hcall : harness.caller s.history = some (.spawn program)) :
      Step harness s (s.ipcSpawn program (harness.programs program).start)
  | refuseSend {w : Nat} {x : Worker ι W} {input : FuzzerInput} (hpoint : s.point = .between)
      (hcall : harness.caller s.history = some (.send w input)) (hw : s.workers[w]? = some x)
      (hrefused : x.handle = false ∨ tooManyInstructions input = true) :
      Step harness s (s.returns (.refusedSend w input))
  | send {w : Nat} {x : Worker ι W} {input : FuzzerInput} (hpoint : s.point = .between)
      (hcall : harness.caller s.history = some (.send w input)) (hw : s.workers[w]? = some x)
      (hhandle : x.handle = true) (hfew : tooManyInstructions input = false) :
      Step harness s { s with point := .sending w input 0 }
  | sendPiece {w written n : Nat} {x : Worker ι W} {input : FuzzerInput}
      (hpoint : s.point = .sending w input written) (hw : s.workers[w]? = some x) (hpos : 0 < n)
      (hle : written + n ≤ FuzzerInput.codec.size)
      (hroom : x.input.length + n ≤ harness.capacity) (hreader : x.point ≠ .exited) :
      Step harness s (s.ipcSend w x input written n)
  | sendBroken {w written : Nat} {x : Worker ι W} {input : FuzzerInput}
      (hpoint : s.point = .sending w input written) (hw : s.workers[w]? = some x)
      (hclosed : x.point = .exited) :
      Step harness s
        (if harness.ignoresSigpipe then s.returns (.sendFailed w input)
        else { s with point := .exited })
  | refuseReceive {w : Nat} {x : Worker ι W} (hpoint : s.point = .between)
      (hcall : harness.caller s.history = some (.receive w)) (hw : s.workers[w]? = some x)
      (hrefused : x.handle = false) : Step harness s (s.returns (.refusedReceive w))
  | receive {w : Nat} {x : Worker ι W} (hpoint : s.point = .between)
      (hcall : harness.caller s.history = some (.receive w)) (hw : s.workers[w]? = some x)
      (hhandle : x.handle = true) : Step harness s { s with point := .receiving w [] }
  | receivePiece {w : Nat} {x : Worker ι W} {got bytes rest : List Byte}
      (hpoint : s.point = .receiving w got) (hw : s.workers[w]? = some x)
      (houtput : x.output = bytes ++ rest) (hne : bytes ≠ [])
      (hle : (got ++ bytes).length ≤ FuzzerResponse.codec.size) :
      Step harness s (s.ipcReceive w x got bytes rest)
  | receiveEnd {w : Nat} {x : Worker ι W} {got : List Byte} (hpoint : s.point = .receiving w got)
      (hw : s.workers[w]? = some x) (hempty : x.output = []) (hclosed : x.point = .exited) :
      Step harness s (s.returns (.receiveFailed w (tornResponse got)))
  | destroy {w : Nat} {x : Worker ι W} (hpoint : s.point = .between)
      (hcall : harness.caller s.history = some (.destroy w)) (hw : s.workers[w]? = some x) :
      Step harness s ((s.setWorker w x.destroy).returns (.destroyed w))
  | exit (hpoint : s.point = .between) (hcall : harness.caller s.history = none) :
      Step harness s { s with point := .exited }

/-- What the surroundings can do. -/
inductive Fault (harness : Harness ι W) (s : System ι W) : System ι W → Prop
  | worker {w : Nat} {x x' : Worker ι W} (hw : s.workers[w]? = some x) (hfault : WorkerFault x x') :
      Fault harness s (s.setWorker w x')
  | spawnFails {program : ι} {status : BalError} (hpoint : s.point = .between)
      (hcall : harness.caller s.history = some (.spawn program))
      (hstatus : status = .invalidArgument ∨ status = .threadCreation) :
      Fault harness s (s.returns (.spawnFailed status))
  | sendFails {w written : Nat} {input : FuzzerInput}
      (hpoint : s.point = .sending w input written) :
      Fault harness s (s.returns (.sendFailed w input))
  | receiveFails {w : Nat} {got : List Byte} (hpoint : s.point = .receiving w got) :
      Fault harness s (s.returns (.receiveFailed w (tornResponse got)))
  | killed : Fault harness s { s with point := .exited }

inductive Reached (harness : Harness ι W) : System ι W → Prop
  | init : Reached harness .init
  | step {s s' : System ι W} (h : Reached harness s) (hstep : Step harness s s') :
      Reached harness s'
  | fault {s s' : System ι W} (h : Reached harness s) (hfault : Fault harness s s') :
      Reached harness s'

end Ballistic.Fuzzer
