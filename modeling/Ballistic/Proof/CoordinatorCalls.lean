import Ballistic.FuzzerCoordinator
import Ballistic.Proof.FuzzerHistories

/-!
# Calls of the coordinator

The coordinator sends its input once to each worker, and so what it gets from a worker is what the
worker's program gives to the input.
-/

namespace Ballistic.Fuzzer

open Machine

variable {ι W : Type}

/-- What the program can answer when it is new. -/
def WorkerProgram.Answers (program : WorkerProgram W) (input : FuzzerInput)
    (response : FuzzerResponse) : Prop :=
  ∃ memory final, program.handles program.start input memory response final

theorem WorkerProgram.Handles.answers {program : WorkerProgram W} {inputs : List FuzzerInput}
    {responses : List FuzzerResponse} {memory : W} (h : program.Handles inputs responses memory)
    {input : FuzzerInput} {response : FuzzerResponse} (hinputs : inputs <+: [input])
    (hresponses : [response] <+: responses) : program.Answers input response := by
  have hlength := h.length_eq
  have hle := hinputs.length_le
  have hge := hresponses.length_le
  rw [List.length_singleton] at hle hge
  obtain rfl : inputs = [input] := hinputs.eq_of_length (by rw [List.length_singleton]; omega)
  obtain rfl : [response] = responses :=
    hresponses.eq_of_length (by rw [List.length_singleton]; omega)
  generalize hin : [input] = inputs at h
  generalize hout : [response] = responses at h
  cases h with
  | start => cases hin
  | @next before earlier memory _ _ _ final h hhandles =>
      have hin' : [] ++ [input] = before ++ [_] := hin
      have hout' : [] ++ [response] = earlier ++ [_] := hout
      obtain ⟨hbefore, hinput⟩ := List.append_inj' hin' rfl
      obtain rfl := List.singleton_inj.mp hinput
      obtain rfl := List.singleton_inj.mp (List.append_inj' hout' rfl).2
      cases h with
      | start => exact ⟨_, _, hhandles⟩
      | next =>
          exact absurd hbefore.symm (List.append_ne_nil_of_right_ne_nil _ (List.cons_ne_nil _ _))

/-! ### The calls of a run -/

section Calls

variable {caller : List IpcResult → Option (IpcCall ι)} {history : List IpcResult}
  {programs : List ι}

/-- The last of the results. -/
theorem Follows.last (history : List IpcResult) (result : IpcResult)
    (h : Follows caller (history ++ [result]) programs) :
    ∃ call before, caller history = some call ∧ result.Answers call ∧ Follows caller history before ∧
      (result = .spawned → ∃ program, call = .spawn program ∧ programs = before ++ [program]) ∧
      (result ≠ .spawned → programs = before) := by
  generalize hlist : history ++ [result] = results at h
  cases h with
  | nil => exact absurd hlist (List.append_ne_nil_of_right_ne_nil _ (List.cons_ne_nil _ _))
  | spawned h hcall =>
      obtain ⟨rfl, hlast⟩ := List.append_inj' hlist rfl
      obtain rfl := List.singleton_inj.mp hlast
      exact ⟨_, _, hcall, .spawned, h, fun _ => ⟨_, rfl, rfl⟩, fun hne => absurd rfl hne⟩
  | snoc h hcall hanswers hne =>
      obtain ⟨rfl, hlast⟩ := List.append_inj' hlist rfl
      obtain rfl := List.singleton_inj.mp hlast
      exact ⟨_, _, hcall, hanswers, h, fun heq => absurd heq hne, fun _ => rfl⟩

theorem Follows.exists_send (h : Follows caller history programs) {w : Nat} {input : FuzzerInput}
    (hmem : input ∈ sentTo w history) : ∃ before, caller before = some (.send w input) := by
  induction h with
  | nil => cases hmem
  | spawned _ _ ih =>
      rw [sentTo_append rfl] at hmem
      exact ih hmem
  | @snoc history programs call result h hcall hanswers hne ih =>
      cases hsent : result.sentInput w with
      | none =>
          rw [sentTo_append hsent] at hmem
          exact ih hmem
      | some input' =>
          cases hanswers with
          | @sent v input'' =>
              by_cases hvw : v = w
              · subst hvw
                rw [sentTo_append_sent] at hmem
                rcases List.mem_append.mp hmem with hmem | hmem
                · exact ih hmem
                · rw [List.mem_singleton.mp hmem]
                  exact ⟨history, hcall⟩
              · rw [IpcResult.sentInput, if_neg hvw] at hsent
                cases hsent
          | spawned | spawnFailed | refusedSend | sendFailed | refusedReceive | received
          | receiveFailed | destroyed => cases hsent

end Calls

section Coordinators

variable {input : FuzzerInput} {programs : List Role}

/-- The coordinator sends once to each worker. -/
theorem coordinator_sendsOnce (input : FuzzerInput) (w : Nat) : SendsOnce (coordinator input) w := by
  intro history programs input' h hcall
  unfold coordinator at hcall
  split at hcall
  · cases hcall
  · cases hcall
  · cases hcall
  · cases hcall
    intro result hmem
    rcases List.mem_pair.mp hmem with rfl | rfl <;> rfl
  · next result =>
      cases hcall
      obtain ⟨call, -, hcall, hanswers, -⟩ := Follows.last [.spawned, .spawned] result h
      cases hcall
      intro earlier hmem
      rcases List.mem_cons.mp hmem with rfl | hmem
      · rfl
      · rcases List.mem_pair.mp hmem with rfl | rfl
        · rfl
        · cases hanswers <;> exact decide_eq_false Nat.zero_ne_one
  all_goals cases hcall

theorem coordinator_input {history : List IpcResult} {w : Nat} {input' : FuzzerInput}
    (hcall : coordinator input history = some (.send w input')) : input' = input := by
  unfold coordinator at hcall
  split at hcall <;> cases hcall <;> rfl

theorem Follows.sentTo_prefix {history : List IpcResult} (w : Nat)
    (h : Follows (coordinator input) history programs) : sentTo w history <+: [input] := by
  have hlength := h.length_sentTo_le (coordinator_sendsOnce input w)
  cases hsent : sentTo w history with
  | nil => exact List.nil_prefix
  | cons first later =>
      rw [hsent, List.length_cons] at hlength
      obtain rfl : later = [] := List.length_eq_zero_iff.mp (by omega)
      have hmem : first ∈ sentTo w history := by
        rw [hsent]
        exact List.mem_singleton.mpr rfl
      obtain ⟨before, hcall⟩ := h.exists_send hmem
      rw [coordinator_input hcall]

/-- There are at most eight calls. -/
theorem coordinator_eq_none (input : FuzzerInput) (history : List IpcResult)
    (hlong : 8 ≤ history.length) : coordinator input history = none := by
  unfold coordinator
  split
  all_goals first
    | rfl
    | simp at hlong

end Coordinators

section Answers

variable {programs : Role → WorkerProgram W} {input : FuzzerInput} {capacity : Nat}
  {ignoresSigpipe : Bool} {s : System Role W}

/-- The response that came from a worker is one that its program gives to the input. -/
theorem fuzzer_answers (h : Reached (fuzzer programs input capacity ignoresSigpipe) s) {w : Nat}
    {role : Role} {response : FuzzerResponse} (hrole : (s.workers.map Worker.program)[w]? = some role)
    (hreceives : ∀ response, .receiveFailed w response ∉ s.history)
    (hreceived : receivedFrom w s.history = [response]) : (programs role).Answers input response := by
  rw [List.getElem?_map, Option.map_eq_some_iff] at hrole
  obtain ⟨x, hw, rfl⟩ := hrole
  obtain ⟨part, got, -, hexchange⟩ := h.view_of_once (coordinator_sendsOnce input w) hreceives hw
    (hreceived ▸ List.cons_ne_nil _ _)
  obtain ⟨inputs, responses, memory, hhandles, hinputs, hresponses⟩ := hexchange.genuine
  rw [hreceived] at hresponses
  exact hhandles.answers (hinputs.trans (h.followed.history.sentTo_prefix w)) hresponses

end Answers

end Ballistic.Fuzzer
