import Ballistic.FuzzerIpc
import Mathlib.Data.List.Infix

/-!
# Exchanges with a worker

What the caller gets from a worker, it gets in the order in which it sent, and whole: as long as no
call on the worker has failed half way, the responses received are the first of those that the worker's
program gives to the first of the inputs sent. This holds whatever the other processes do, however the
bytes are cut on their way, and when a process dies.
-/

namespace Ballistic.Fuzzer

open Machine

variable {ι W : Type}

/-! ### What the history says of a worker -/

/-- The input that was sent to `w`. -/
def IpcResult.sentInput (w : Nat) : IpcResult → Option FuzzerInput
  | sent v input => if v = w then some input else none
  | _ => none

/-- The response that was read from `w`, whatever its status. -/
def IpcResult.readResponse (w : Nat) : IpcResult → Option FuzzerResponse
  | received v response => if v = w then some response else none
  | _ => none

/-- A call on `w` failed, perhaps after a part of a message. -/
def IpcResult.breaks (w : Nat) : IpcResult → Bool
  | sendFailed v _ | receiveFailed v _ => decide (v = w)
  | _ => false

def sentTo (w : Nat) (history : List IpcResult) : List FuzzerInput :=
  history.filterMap (IpcResult.sentInput w)

def receivedFrom (w : Nat) (history : List IpcResult) : List FuzzerResponse :=
  history.filterMap (IpcResult.readResponse w)

def Unbroken (w : Nat) (history : List IpcResult) : Prop :=
  ∀ result ∈ history, result.breaks w = false

section Histories

variable {w : Nat} {history : List IpcResult} {result : IpcResult}

theorem sentTo_append (h : result.sentInput w = none) :
    sentTo w (history ++ [result]) = sentTo w history := by
  rw [sentTo, List.filterMap_append, List.filterMap_cons_none h, List.filterMap_nil, List.append_nil,
    sentTo]

theorem receivedFrom_append (h : result.readResponse w = none) :
    receivedFrom w (history ++ [result]) = receivedFrom w history := by
  rw [receivedFrom, List.filterMap_append, List.filterMap_cons_none h, List.filterMap_nil,
    List.append_nil, receivedFrom]

theorem sentTo_append_sent (w : Nat) (history : List IpcResult) (input : FuzzerInput) :
    sentTo w (history ++ [.sent w input]) = sentTo w history ++ [input] := by
  have hsent : (IpcResult.sent w input).sentInput w = some input := if_pos rfl
  rw [sentTo, List.filterMap_append, List.filterMap_cons_some hsent, List.filterMap_nil, sentTo]

theorem receivedFrom_append_received (w : Nat) (history : List IpcResult)
    (response : FuzzerResponse) :
    receivedFrom w (history ++ [.received w response]) = receivedFrom w history ++ [response] := by
  have hread : (IpcResult.received w response).readResponse w = some response := if_pos rfl
  rw [receivedFrom, List.filterMap_append, List.filterMap_cons_some hread, List.filterMap_nil,
    receivedFrom]

theorem Unbroken.before (h : Unbroken w (history ++ [result])) : Unbroken w history :=
  fun earlier hmem => h earlier (List.mem_append_left _ hmem)

theorem Unbroken.last (h : Unbroken w (history ++ [result])) : result.breaks w = false :=
  h result (List.mem_append_right _ (List.mem_singleton.mpr rfl))

end Histories

/-! ### What a worker has done -/

/-- A run of a worker's program: the inputs it took, the responses to them and its memory after them. -/
inductive WorkerProgram.Handles (program : WorkerProgram W) :
    List FuzzerInput → List FuzzerResponse → W → Prop
  | start : program.Handles [] [] program.start
  | next {inputs : List FuzzerInput} {responses : List FuzzerResponse} {memory memory' : W}
      {input : FuzzerInput} {response : FuzzerResponse} {final : Bool}
      (h : program.Handles inputs responses memory)
      (hhandles : program.handles memory input memory' response final) :
      program.Handles (inputs ++ [input]) (responses ++ [response]) memory'

theorem WorkerProgram.Handles.length_eq {program : WorkerProgram W} {inputs : List FuzzerInput}
    {responses : List FuzzerResponse} {memory : W} (h : program.Handles inputs responses memory) :
    inputs.length = responses.length := by
  induction h with
  | start => rfl
  | next _ _ ih => rw [List.length_append, List.length_append, ih, List.length_singleton,
      List.length_singleton]

theorem WorkerProgram.Handles.memory_of_nil {program : WorkerProgram W}
    {responses : List FuzzerResponse} {memory : W} (h : program.Handles [] responses memory) :
    memory = program.start := by
  generalize hinputs : ([] : List FuzzerInput) = inputs at h
  cases h with
  | start => rfl
  | next => exact absurd hinputs.symm (List.append_ne_nil_of_right_ne_nil _ (List.cons_ne_nil _ _))

/-- Where a worker stands that has taken the inputs `taken` whole and written `responses` whole: it
has `got` of the next input, and has written `part` of the next response. -/
inductive Worker.At (program : WorkerProgram W) (x : Worker ι W) (taken : List FuzzerInput)
    (responses : List FuzzerResponse) : List Byte → List Byte → Prop
  | reading {got : List Byte} (hpoint : x.point = .reading got)
      (hgot : got.length < FuzzerInput.codec.size)
      (h : program.Handles taken responses x.memory) : x.At program taken responses got []
  | handling {before : List FuzzerInput} {input : FuzzerInput} (hpoint : x.point = .handling input)
      (htaken : taken = before ++ [input]) (h : program.Handles before responses x.memory) :
      x.At program taken responses [] []
  | writing {response : FuzzerResponse} {final : Bool} {written : Nat}
      (hpoint : x.point = .writing response final written)
      (hwritten : written < FuzzerResponse.codec.size)
      (h : program.Handles taken (responses ++ [response]) x.memory) :
      x.At program taken responses [] ((FuzzerResponse.codec.encode response).take written)
  | exited {before : List FuzzerInput} {later : List FuzzerResponse} {memory : W}
      {got part : List Byte} (hpoint : x.point = .exited)
      (hpart : part.length < FuzzerResponse.codec.size) (h : program.Handles before later memory)
      (hbefore : before <+: taken) (hlater : responses <+: later) :
      x.At program taken responses got part

section Workers

variable {program : WorkerProgram W} {x x' : Worker ι W} {taken : List FuzzerInput}
  {responses : List FuzzerResponse} {got part : List Byte}

theorem Worker.At.congr (h : x.At program taken responses got part) (hpoint : x'.point = x.point)
    (hmemory : x'.memory = x.memory) : x'.At program taken responses got part := by
  cases h with
  | reading hreading hgot h => exact .reading (hpoint.trans hreading) hgot (hmemory ▸ h)
  | handling hhandling htaken h => exact .handling (hpoint.trans hhandling) htaken (hmemory ▸ h)
  | writing hwriting hwritten h => exact .writing (hpoint.trans hwriting) hwritten (hmemory ▸ h)
  | exited hexited hpart h hbefore hlater =>
      exact .exited (hpoint.trans hexited) hpart h hbefore hlater

theorem length_take_encode {α : Type} (c : Codec α) (a : α) {n : Nat} (hn : n < c.size) :
    ((c.encode a).take n).length < c.size := by
  rw [List.length_take, c.length_encode]
  exact (Nat.min_le_left n _).trans_lt hn

theorem Worker.At.part_lt (h : x.At program taken responses got part) :
    part.length < FuzzerResponse.codec.size := by
  cases h with
  | reading | handling => exact Nat.zero_lt_succ _
  | writing _ hwritten _ => exact length_take_encode _ _ hwritten
  | exited _ hpart => exact hpart

/-- What a worker has done stays when it exits. -/
theorem Worker.At.exit (h : x.At program taken responses got part) (hpoint : x'.point = .exited) :
    x'.At program taken responses got part := by
  have hpart := h.part_lt
  cases h with
  | reading _ _ h => exact .exited hpoint hpart h (List.prefix_refl _) (List.prefix_refl _)
  | handling _ htaken h =>
      exact .exited hpoint hpart h (htaken ▸ List.prefix_append _ _) (List.prefix_refl _)
  | writing _ _ h => exact .exited hpoint hpart h (List.prefix_refl _) (List.prefix_append _ _)
  | exited _ _ h hbefore hlater => exact .exited hpoint hpart h hbefore hlater

/-- The inputs `sent` and `part` of the next one have gone to the worker, and the responses `received`
and `got` of the next one have come from it. -/
def Exchange (program : WorkerProgram W) (x : Worker ι W) (sent : List FuzzerInput) (part : List Byte)
    (received : List FuzzerResponse) (got : List Byte) : Prop :=
  ∃ taken pending owed gotIn partOut, sent = taken ++ pending ∧
    Carries FuzzerInput.codec part x.input gotIn pending ∧
    Carries FuzzerResponse.codec partOut x.output got owed ∧
    x.At program taken (received ++ owed) gotIn partOut

variable {sent : List FuzzerInput} {received : List FuzzerResponse}

theorem Exchange.exit (h : Exchange program x sent part received got)
    (hpoint : x'.point = .exited) (hinput : x'.input = x.input) (houtput : x'.output = x.output) :
    Exchange program x' sent part received got := by
  obtain ⟨taken, pending, owed, gotIn, partOut, hsent, hcarries, hresponses, hat⟩ := h
  exact ⟨taken, pending, owed, gotIn, partOut, hsent, hinput ▸ hcarries, houtput ▸ hresponses,
    hat.exit hpoint⟩

/-- The answers are those of the program. -/
theorem Exchange.genuine (h : Exchange program x sent part received got) :
    ∃ inputs responses memory, program.Handles inputs responses memory ∧ inputs <+: sent ∧
      received <+: responses := by
  obtain ⟨taken, pending, owed, gotIn, partOut, rfl, -, -, hat⟩ := h
  cases hat with
  | reading _ _ h => exact ⟨_, _, _, h, List.prefix_append _ _, List.prefix_append _ _⟩
  | handling _ htaken h =>
      refine ⟨_, _, _, h, ?_, List.prefix_append _ _⟩
      rw [htaken, List.append_assoc]
      exact List.prefix_append _ _
  | writing _ _ h =>
      refine ⟨_, _, _, h, List.prefix_append _ _, ?_⟩
      rw [List.append_assoc]
      exact List.prefix_append _ _
  | exited _ _ h hbefore hlater =>
      exact ⟨_, _, _, h, hbefore.trans (List.prefix_append _ _),
        (List.prefix_append _ _).trans hlater⟩

theorem Exchange.giveUp {goesOn : Bool} (h : Exchange program x sent part received got)
    (habandoned : (x.giveUp goesOn).abandoned = false) :
    Exchange program (x.giveUp goesOn) sent part received got := by
  have hgone : goesOn = false := (Bool.or_eq_false_iff.mp habandoned).2
  subst hgone
  exact h.exit rfl rfl rfl

/-- A step of the worker. -/
theorem WorkerStep.exchange {harness : Harness ι W} {held : Prop}
    (hstep : WorkerStep harness held x x') (hpart : part.length < FuzzerInput.codec.size)
    (habandoned : x'.abandoned = false)
    (h : Exchange (harness.programs x.program) x sent part received got) :
    Exchange (harness.programs x'.program) x' sent part received got := by
  cases hstep with
  | endOfFile => exact h.exit rfl rfl rfl
  | brokenPipe => exact h.giveUp habandoned
  | @read gotIn bytes rest hpoint hinput hne hle =>
      obtain ⟨taken, pending, owed, gotIn', partOut, rfl, hcarries, hresponses, hat⟩ := h
      cases hat with
      | handling hpoint' | writing hpoint' | exited hpoint' =>
          rw [hpoint] at hpoint'
          cases hpoint'
      | reading hpoint' hgot hhandles =>
          rw [hpoint] at hpoint'
          cases hpoint'
          rw [hinput] at hcarries
          by_cases hwhole : (gotIn ++ bytes).length = FuzzerInput.codec.size
          · obtain ⟨input, later, rfl, hgotIn, hlater⟩ := hcarries.take.complete hwhole hpart
            refine ⟨taken ++ [input], later, owed, [], [], ?_, hlater, hresponses,
              .handling ?_ (rfl : taken ++ [input] = _) hhandles⟩
            · rw [List.append_assoc, List.singleton_append]
            · rw [Worker.readExact, if_pos hwhole, hgotIn, Codec.decode_encode]
          · refine ⟨taken, pending, owed, gotIn ++ bytes, [], rfl, hcarries.take, hresponses,
              .reading ?_ (Nat.lt_of_le_of_ne hle hwhole) hhandles⟩
            rw [Worker.readExact, if_neg hwhole]
  | @handle input memory response final hpoint hhandles =>
      obtain ⟨taken, pending, owed, gotIn, partOut, rfl, hcarries, hresponses, hat⟩ := h
      cases hat with
      | reading hpoint' | writing hpoint' | exited hpoint' =>
          rw [hpoint] at hpoint'
          cases hpoint'
      | handling hpoint' htaken hbefore =>
          rw [hpoint] at hpoint'
          cases hpoint'
          exact ⟨taken, pending, owed, [], [], rfl, hcarries, hresponses,
            .writing rfl (Nat.zero_lt_succ _) (htaken ▸ hbefore.next hhandles)⟩
  | @write response final written n hpoint hpos hle hroom hheld =>
      obtain ⟨taken, pending, owed, gotIn, partOut, rfl, hcarries, hresponses, hat⟩ := h
      cases hat with
      | reading hpoint' | handling hpoint' | exited hpoint' =>
          rw [hpoint] at hpoint'
          cases hpoint'
      | writing hpoint' hwritten hhandles =>
          rw [hpoint] at hpoint'
          cases hpoint'
          have hput := hresponses.put
            (((FuzzerResponse.codec.encode response).drop written).take n)
          rw [← List.take_add] at hput
          by_cases hwhole : written + n = FuzzerResponse.codec.size
          · rw [hwhole, List.take_of_length_le (FuzzerResponse.codec.length_encode _).le] at hput
            refine ⟨taken, pending, owed ++ [response], [], [], rfl, hcarries, hput.close,
              .reading ?_ (Nat.zero_lt_succ _) ?_⟩
            · rw [Worker.writeExact, if_pos hwhole]
            · rw [← List.append_assoc]
              exact hhandles
          · refine ⟨taken, pending, owed, [], _, rfl, hcarries, hput,
              .writing (?_ : _ = WorkerPoint.writing response final (written + n))
                (Nat.lt_of_le_of_ne hle hwhole) hhandles⟩
            rw [Worker.writeExact, if_neg hwhole]

theorem WorkerFault.exchange (hfault : WorkerFault x x') (habandoned : x'.abandoned = false)
    (h : Exchange program x sent part received got) : Exchange program x' sent part received got := by
  cases hfault with
  | dies => exact h.exit rfl rfl rfl
  | writeFails => exact h.giveUp habandoned

/-- The caller has written `n` bytes more of an input. -/
theorem Exchange.send {input : FuzzerInput} {written : Nat} (n : Nat)
    (h : Exchange program x sent ((FuzzerInput.codec.encode input).take written) received got) :
    Exchange program
      { x with input := x.input ++ ((FuzzerInput.codec.encode input).drop written).take n } sent
      ((FuzzerInput.codec.encode input).take (written + n)) received got := by
  obtain ⟨taken, pending, owed, gotIn, partOut, rfl, hcarries, hresponses, hat⟩ := h
  have hput := hcarries.put (((FuzzerInput.codec.encode input).drop written).take n)
  rw [← List.take_add] at hput
  exact ⟨taken, pending, owed, gotIn, partOut, rfl, hput, hresponses, hat.congr rfl rfl⟩

/-- The input is whole. -/
theorem Exchange.sendWhole {input : FuzzerInput}
    (h : Exchange program x sent (FuzzerInput.codec.encode input) received got) :
    Exchange program x (sent ++ [input]) [] received got := by
  obtain ⟨taken, pending, owed, gotIn, partOut, rfl, hcarries, hresponses, hat⟩ := h
  exact ⟨taken, pending ++ [input], owed, gotIn, partOut, List.append_assoc .., hcarries.close,
    hresponses, hat⟩

theorem Exchange.receive {bytes rest : List Byte} (houtput : x.output = bytes ++ rest)
    (h : Exchange program x sent part received got) :
    Exchange program { x with output := rest } sent part received (got ++ bytes) := by
  obtain ⟨taken, pending, owed, gotIn, partOut, rfl, hcarries, hresponses, hat⟩ := h
  rw [houtput] at hresponses
  exact ⟨taken, pending, owed, gotIn, partOut, rfl, hcarries, hresponses.take, hat.congr rfl rfl⟩

/-- The response is whole. -/
theorem Exchange.receiveWhole (h : Exchange program x sent part received got)
    (hgot : got.length = FuzzerResponse.codec.size) :
    Exchange program x sent part (received ++ [FuzzerResponse.codec.decode got]) [] := by
  obtain ⟨taken, pending, owed, gotIn, partOut, rfl, hcarries, hresponses, hat⟩ := h
  obtain ⟨response, later, rfl, rfl, hlater⟩ := hresponses.complete hgot hat.part_lt
  refine ⟨taken, pending, later, gotIn, partOut, rfl, hcarries, hlater, ?_⟩
  rw [Codec.decode_encode, List.append_assoc]
  exact hat

end Workers

end Ballistic.Fuzzer
