import Ballistic.FuzzerIpc
import Ballistic.FuzzerState

/-!
# The coordinator

`main` of the fuzzer, which sends one input to a worker of each kind and compares what the two come to.
The calls of a run and what they came to decide the next call; when there is none left, they decide the
verdict. The coordinator goes on when a call of `bal_fuzzer_ipc_send` has failed.
-/

namespace Ballistic.Fuzzer

open Machine

inductive Role where
  | ballistic
  | unicorn
  deriving DecidableEq, Repr

/-- The next call of `main`. -/
def coordinator (input : FuzzerInput) (history : List IpcResult) : Option (IpcCall Role) :=
  match history with
  | [] => some (.spawn .ballistic)
  | [.spawned] => some (.spawn .unicorn)
  | [.spawned, .spawnFailed _] => some (.destroy 0)
  | [.spawned, .spawned] => some (.send 0 input)
  | [.spawned, .spawned, _] => some (.send 1 input)
  | [.spawned, .spawned, _, _] => some (.receive 0)
  | [.spawned, .spawned, _, _, _] => some (.receive 1)
  | [.spawned, .spawned, _, _, _, _] => some (.destroy 0)
  | [.spawned, .spawned, _, _, _, _, _] => some (.destroy 1)
  | _ => none

/-- The words of `instructions`. -/
def mainWords : List (BitVec 32) :=
  [0xD2800C81, 0xD2801902, 0x8B020023, 0xD2800644, 0xCB040065, 0xD2801FE6, 0x8A0600A7, 0x910014E0,
    0xF103FC1F]

/-- The input of `main`. -/
def mainInput : FuzzerInput where
  messageId := 1
  instructionCount := 9
  pad := 0
  instructions := fun k => mainWords.getD k 0
  initialState := .zero

/-- The messages with which `main` ends. -/
inductive Verdict where
  | spawnFailed (worker : Role)
  | disconnected (worker : Role)
  | executionError (status : BitVec 32)
  | matched
  | mismatch (result : ComparisonResult)
  deriving DecidableEq, Repr

/-- The response record that the caller passed, after the call. -/
def IpcResult.response : IpcResult → FuzzerResponse
  | received _ response | receiveFailed _ response => response
  | _ => ⟨0, 0, fun _ => 0, .zero⟩

def judge (ballistic unicorn : IpcResult) : Verdict :=
  if ballistic.status ≠ .success then .disconnected .ballistic
  else if unicorn.status ≠ .success then .disconnected .unicorn
  else if ballistic.response.status ≠ WorkerStatus.ok.code then
    .executionError ballistic.response.status
  else
    let result := balFuzzerStateCompare unicorn.response.finalState ballistic.response.finalState
    if result.isMatch then .matched else .mismatch result

/-- What `main` comes to, when it has no call left. -/
def verdict (history : List IpcResult) : Option Verdict :=
  match history with
  | [.spawnFailed _] => some (.spawnFailed .ballistic)
  | [.spawned, .spawnFailed _, _] => some (.spawnFailed .unicorn)
  | [_, _, _, _, ballistic, unicorn, _, _] => some (judge ballistic unicorn)
  | _ => none

/-- The coordinator and the programs it spawns. -/
def fuzzer {W : Type} (programs : Role → WorkerProgram W) (input : FuzzerInput) (capacity : Nat)
    (ignoresSigpipe : Bool) : Harness Role W where
  programs := programs
  caller := coordinator input
  capacity := capacity
  ignoresSigpipe := ignoresSigpipe

end Ballistic.Fuzzer
