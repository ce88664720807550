import Ballistic.Proof.FuzzerRounds

/-!
# Verdicts of the coordinator

What any caller gets from a worker are the answers of the worker's program, in the order of its inputs.
For the coordinator this says what its verdicts are worth: whatever fails during a run of the fuzzer, and wherever it fails, a verdict on the two states is a
verdict on what the two programs made of the input: the coordinator never compares a record that was
torn, or one that belongs to something else.
-/

namespace Ballistic.Fuzzer

open Machine

variable {ι W : Type}

section Callers

variable {harness : Harness ι W} {s : System ι W} {w : Nat} {x : Worker ι W}

/-- **Responses are genuine.** As long as no call on a worker has failed and it has given up no
response, the responses from it are the first ones of a run of its program on the first inputs that
were sent to it. -/
theorem responses_genuine (h : Reached harness s) (hw : s.workers[w]? = some x)
    (hunbroken : Unbroken w s.history) (habandoned : x.abandoned = false) :
    ∃ inputs responses memory, (harness.programs x.program).Handles inputs responses memory ∧
      inputs <+: sentTo w s.history ∧ receivedFrom w s.history <+: responses := by
  obtain ⟨part, got, -, hexchange⟩ := h.sound.view hw hunbroken habandoned
  exact hexchange.genuine

end Callers

/-- The last call of a run was before the caller exited. -/
theorem exists_before_exit {harness : Harness ι W} {s : System ι W}
    (h : Relation.ReflTransGen (Step harness) .init s) :
    ∃ t, Relation.ReflTransGen (Step harness) .init t ∧ t.point ≠ .exited ∧ t.history = s.history := by
  induction h with
  | refl => exact ⟨_, .refl, CallerPoint.noConfusion, rfl⟩
  | @tail s s' hsteps hstep ih =>
      by_cases hexited : s'.point = .exited
      · have hsame : s'.history = s.history := by
          cases hstep with
          | worker | exit => rfl
          | spawn | refuseSend | send | refuseReceive | receive | receiveEnd | destroy => cases hexited
          | sendBroken =>
              by_cases hignores : harness.ignoresSigpipe = true
              · rw [if_pos hignores] at hexited
                cases hexited
              · rw [if_neg hignores]
          | sendPiece =>
              rw [System.ipcSend] at hexited
              split at hexited <;> cases hexited
          | receivePiece =>
              rw [System.ipcReceive] at hexited
              split at hexited <;> cases hexited
        rw [hsame]
        exact ih
      · exact ⟨s', hsteps.tail hstep, hexited, rfl⟩

/-- A round in which both programs leave the state as it is. -/
theorem exists_echo_round : ∃ (s : System Role Unit) (u : FuzzerResponse),
    Reached (fuzzer (fun _ => echo) emptyInput 65536 false) s ∧
      s.Calm (fuzzer (fun _ => echo) emptyInput 65536 false) ∧ s.point ≠ .exited ∧
        s.history = roundResults emptyInput u u ∧ u.status = 0 := by
  have hanswer : echo.Answers emptyInput ⟨1, 0, fun _ => 0, .zero⟩ := ⟨(), true, rfl⟩
  obtain ⟨s, hsteps, hhistory⟩ : ∃ s,
      Relation.ReflTransGen (Step (fuzzer (fun _ => echo) emptyInput 65536 false)) .init s ∧
        s.history = roundResults emptyInput _ _ :=
    exists_round (by decide) rfl hanswer hanswer
  obtain ⟨t, hsteps', hrunning, hsame⟩ := exists_before_exit hsteps
  obtain ⟨hreached, hcalm⟩ := calm_of_steps hsteps'
  exact ⟨t, _, hreached, hcalm, hrunning, hsame.trans hhistory, rfl⟩

/-- What came from the first worker of such a round. -/
theorem responses_genuine_echo :
    ∃ (s : System Role Unit) (x : Worker Role Unit),
      Reached (fuzzer (fun _ => echo) emptyInput 65536 false) s ∧ s.workers[0]? = some x ∧
        receivedFrom 0 s.history ≠ [] ∧
          ∃ inputs responses memory, echo.Handles inputs responses memory ∧
            inputs <+: sentTo 0 s.history ∧ receivedFrom 0 s.history <+: responses := by
  obtain ⟨s, u, hreached, hcalm, hrunning, hhistory, -⟩ := exists_echo_round
  obtain ⟨k, b, v, -, hround, hprograms⟩ := hcalm.round hreached rfl
  have hlength := congrArg List.length (hhistory.symm.trans hround)
  rw [List.length_take] at hlength
  have hwhole : 8 ≤ k := by
    change 8 = min k 8 at hlength
    omega
  rw [List.take_of_length_le ((by decide : [Role.ballistic, .unicorn].length ≤ 8).trans hwhole)]
    at hprograms
  cases hworkers : s.workers with
  | nil =>
      rw [hworkers] at hprograms
      cases hprograms
  | cons x later =>
      have hw : s.workers[0]? = some x := by rw [hworkers, List.getElem?_cons_zero]
      refine ⟨s, x, hreached, hw, ?_,
        responses_genuine hreached hw (hcalm.unbroken 0) (hcalm.live hrunning hw).1⟩
      rw [hhistory]
      exact List.cons_ne_nil _ _

section Coordinators

variable {input : FuzzerInput} {programs : List Role}

/-- A history that is long enough for a verdict on the workers. -/
theorem Follows.results {r₀ r₁ r₂ r₃ r₄ r₅ r₆ r₇ : IpcResult}
    (h : Follows (coordinator input) [r₀, r₁, r₂, r₃, r₄, r₅, r₆, r₇] programs) :
    programs = [.ballistic, .unicorn] ∧ r₀ = .spawned ∧ r₁ = .spawned ∧
      r₂.Answers (.send 0 input : IpcCall Role) ∧ r₃.Answers (.send 1 input : IpcCall Role) ∧
      r₄.Answers (.receive 0 : IpcCall Role) ∧ r₅.Answers (.receive 1 : IpcCall Role) ∧
      r₆.Answers (.destroy 0 : IpcCall Role) ∧ r₇.Answers (.destroy 1 : IpcCall Role) := by
  obtain ⟨c₇, p₇, hcall₇, ha₇, h₆, -, hp₇⟩ := Follows.last [r₀, r₁, r₂, r₃, r₄, r₅, r₆] r₇ h
  obtain ⟨c₆, p₆, hcall₆, ha₆, h₅, -, hp₆⟩ := Follows.last [r₀, r₁, r₂, r₃, r₄, r₅] r₆ h₆
  obtain ⟨c₅, p₅, hcall₅, ha₅, h₄, -, hp₅⟩ := Follows.last [r₀, r₁, r₂, r₃, r₄] r₅ h₅
  obtain ⟨c₄, p₄, hcall₄, ha₄, h₃, -, hp₄⟩ := Follows.last [r₀, r₁, r₂, r₃] r₄ h₄
  obtain ⟨c₃, p₃, hcall₃, ha₃, h₂, -, hp₃⟩ := Follows.last [r₀, r₁, r₂] r₃ h₃
  obtain ⟨c₂, p₂, hcall₂, ha₂, h₁, -, hp₂⟩ := Follows.last [r₀, r₁] r₂ h₂
  obtain ⟨c₁, p₁, hcall₁, ha₁, h₀, hspawned₁, -⟩ := Follows.last [r₀] r₁ h₁
  obtain ⟨c₀, p₀, hcall₀, ha₀, hnil, hspawned₀, -⟩ := Follows.last [] r₀ h₀
  cases hcall₀
  cases ha₀ with
  | spawnFailed => cases hcall₁
  | spawned =>
      cases hcall₁
      cases ha₁ with
      | spawnFailed =>
          cases hcall₂
          cases hcall₃
      | spawned =>
          cases hcall₂
          cases hcall₃
          cases hcall₄
          cases hcall₅
          cases hcall₆
          cases hcall₇
          have hnew : ∀ {r : IpcResult} {call : IpcCall Role} {w : Nat}, r.Answers call →
              call.worker = some w → r ≠ .spawned := by
            rintro r call w hanswers hworker rfl
            cases hanswers
            cases hworker
          have hprograms : programs = p₂ := by
            rw [hp₇ (hnew ha₇ rfl), hp₆ (hnew ha₆ rfl),
              hp₅ (hnew ha₅ rfl), hp₄ (hnew ha₄ rfl),
              hp₃ (hnew ha₃ rfl), hp₂ (hnew ha₂ rfl)]
          obtain ⟨_, hrole₁, rfl⟩ := hspawned₁ rfl
          obtain ⟨_, hrole₀, rfl⟩ := hspawned₀ rfl
          cases hrole₁
          cases hrole₀
          generalize hempty : ([] : List IpcResult) = history at hnil
          cases hnil with
          | spawned | snoc =>
              exact absurd hempty.symm (List.append_ne_nil_of_right_ne_nil _ (List.cons_ne_nil _ _))
          | nil => exact ⟨hprograms, rfl, rfl, ha₂, ha₃, ha₄, ha₅, ha₆, ha₇⟩

theorem IpcResult.Answers.of_receive {r : IpcResult} {w : Nat}
    (h : r.Answers (.receive w : IpcCall Role)) (hok : r.status = .success) :
    r = .received w r.response ∧ ¬WorkerStatus.crashed.code < r.response.status := by
  cases h with
  | refusedReceive | receiveFailed => cases hok
  | @received w response =>
      refine ⟨rfl, fun hlarge => ?_⟩
      have hcorrupted : (IpcResult.received w response).status = .structCorrupted := if_pos hlarge
      rw [hcorrupted] at hok
      cases hok

/-- Only a call to receive can come to a response. -/
theorem IpcResult.Answers.not_response {r : IpcResult} {call : IpcCall Role} (h : r.Answers call)
    (hcall : ∀ w, call ≠ .receive w) (w : Nat) :
    r.readResponse w = none ∧ ∀ response, .receiveFailed w response ≠ r := by
  cases h with
  | spawned | spawnFailed | refusedSend | sent | sendFailed | destroyed =>
      exact ⟨rfl, fun _ heq => by cases heq⟩
  | refusedReceive | received | receiveFailed => exact absurd rfl (hcall _)

/-- What a history that ends in a comparison says of the two responses. -/
theorem received_results {r₂ r₃ r₆ r₇ : IpcResult} {b u : FuzzerResponse}
    (h₂ : r₂.Answers (.send 0 input : IpcCall Role)) (h₃ : r₃.Answers (.send 1 input : IpcCall Role))
    (h₆ : r₆.Answers (.destroy 0 : IpcCall Role)) (h₇ : r₇.Answers (.destroy 1 : IpcCall Role))
    {history : List IpcResult}
    (hhistory : history = [.spawned, .spawned, r₂, r₃, .received 0 b, .received 1 u, r₆, r₇]) :
    receivedFrom 0 history = [b] ∧ receivedFrom 1 history = [u] ∧
      ∀ w response, .receiveFailed w response ∉ history := by
  have hnone₂ := h₂.not_response fun _ heq => by cases heq
  have hnone₃ := h₃.not_response fun _ heq => by cases heq
  have hnone₆ := h₆.not_response fun _ heq => by cases heq
  have hnone₇ := h₇.not_response fun _ heq => by cases heq
  have hown : ∀ w response, (IpcResult.received w response).readResponse w = some response :=
    fun _ _ => if_pos rfl
  have hother : ∀ {v w response}, v ≠ w → (IpcResult.received v response).readResponse w = none :=
    fun hne => if_neg hne
  subst hhistory
  refine ⟨?_, ?_, fun w response hmem => ?_⟩
  · rw [receivedFrom, List.filterMap_cons_none rfl, List.filterMap_cons_none rfl,
      List.filterMap_cons_none (hnone₂ 0).1, List.filterMap_cons_none (hnone₃ 0).1,
      List.filterMap_cons_some (hown _ _), List.filterMap_cons_none (hother Nat.one_ne_zero),
      List.filterMap_cons_none (hnone₆ 0).1, List.filterMap_cons_none (hnone₇ 0).1, List.filterMap_nil]
  · rw [receivedFrom, List.filterMap_cons_none rfl, List.filterMap_cons_none rfl,
      List.filterMap_cons_none (hnone₂ 1).1, List.filterMap_cons_none (hnone₃ 1).1,
      List.filterMap_cons_none (hother Nat.zero_ne_one), List.filterMap_cons_some (hown _ _),
      List.filterMap_cons_none (hnone₆ 1).1, List.filterMap_cons_none (hnone₇ 1).1, List.filterMap_nil]
  · simp only [List.mem_cons, List.not_mem_nil, or_false, (hnone₂ w).2 response,
      (hnone₃ w).2 response, (hnone₆ w).2 response, (hnone₇ w).2 response, reduceCtorEq]
      at hmem

end Coordinators

/-- The verdict says how the states compare: they agree, or it lists where they differ. -/
def Verdict.Compares (v : Verdict) (expected actual : CpuSnapshot) : Prop :=
  v = .matched ∧ Agrees expected actual ∨
    ∃ result, v = .mismatch result ∧ result.divergences ≠ [] ∧
      result.divergences = differences expected actual

theorem judge_received {b u : FuzzerResponse} (hb : b.status = WorkerStatus.ok.code)
    (hu : ¬WorkerStatus.crashed.code < u.status) :
    judge (.received 0 b) (.received 1 u) =
      if (balFuzzerStateCompare u.finalState b.finalState).isMatch then .matched
      else .mismatch (balFuzzerStateCompare u.finalState b.finalState) := by
  have hstatus : ∀ {w : Nat} {response : FuzzerResponse}, ¬WorkerStatus.crashed.code < response.status →
      (IpcResult.received w response).status = .success := fun hsmall => if_neg hsmall
  have hok : ¬WorkerStatus.crashed.code < b.status := by
    rw [hb]
    decide
  rw [judge, if_neg (not_not_intro (hstatus hok)), if_neg (not_not_intro (hstatus hu))]
  exact if_neg (not_not_intro hb)

theorem judge_compares {b u : FuzzerResponse} (hb : b.status = WorkerStatus.ok.code)
    (hu : ¬WorkerStatus.crashed.code < u.status) :
    (judge (.received 0 b) (.received 1 u)).Compares u.finalState b.finalState := by
  rw [judge_received hb hu]
  by_cases hmatch : (balFuzzerStateCompare u.finalState b.finalState).isMatch = true
  · exact .inl ⟨if_pos hmatch, balFuzzerStateCompare_isMatch.mp hmatch⟩
  · have hfound := balFuzzerStateCompare_found u.finalState b.finalState
    refine .inr ⟨_, if_neg hmatch, fun hnil => hmatch ?_, hfound.1⟩
    rw [hfound.1] at hnil
    exact balFuzzerStateCompare_isMatch.mpr (differences_eq_nil.mp hnil)

section Verdicts

variable {programs : Role → WorkerProgram W} {input : FuzzerInput} {capacity : Nat}
  {ignoresSigpipe : Bool} {s : System Role W}

/-- A verdict on the states is a judgement of two answers to the input. -/
theorem exists_answers (h : Reached (fuzzer programs input capacity ignoresSigpipe) s) {v : Verdict}
    (hverdict : verdict s.history = some v) (hcompares : v = .matched ∨ ∃ result, v = .mismatch result) :
    ∃ b u, (programs .ballistic).Answers input b ∧ (programs .unicorn).Answers input u ∧
      b.status = WorkerStatus.ok.code ∧ ¬WorkerStatus.crashed.code < u.status ∧
      v = judge (.received 0 b) (.received 1 u) := by
  have hfollows := h.followed.history
  unfold verdict at hverdict
  split at hverdict
  · cases hverdict
    rcases hcompares with hv | ⟨result, hv⟩ <;> cases hv
  · cases hverdict
    rcases hcompares with hv | ⟨result, hv⟩ <;> cases hv
  · next r₀ r₁ r₂ r₃ r₄ r₅ r₆ r₇ hhistory =>
      rw [hhistory] at hfollows
      obtain ⟨hprograms, rfl, rfl, h₂, h₃, h₄, h₅, h₆, h₇⟩ := hfollows.results
      obtain rfl := Option.some.inj hverdict
      by_cases hstatus₄ : r₄.status = .success
      · by_cases hstatus₅ : r₅.status = .success
        · obtain ⟨hr₄, -⟩ := h₄.of_receive hstatus₄
          obtain ⟨hr₅, hsmall⟩ := h₅.of_receive hstatus₅
          by_cases hok : r₄.response.status = WorkerStatus.ok.code
          · rw [hr₄, hr₅] at hhistory
            obtain ⟨hballistic, hunicorn, hreceives⟩ := received_results h₂ h₃ h₆ h₇ hhistory
            refine ⟨r₄.response, r₅.response,
              fuzzer_answers h (by rw [hprograms]; rfl) (hreceives 0) hballistic,
              fuzzer_answers h (by rw [hprograms]; rfl) (hreceives 1) hunicorn, hok, hsmall, ?_⟩
            rw [← hr₄, ← hr₅]
          · rw [judge, if_neg (not_not_intro hstatus₄), if_neg (not_not_intro hstatus₅),
              if_pos hok] at hcompares
            rcases hcompares with hv | ⟨result, hv⟩ <;> cases hv
        · rw [judge, if_neg (not_not_intro hstatus₄), if_pos hstatus₅] at hcompares
          rcases hcompares with hv | ⟨result, hv⟩ <;> cases hv
      · rw [judge, if_pos hstatus₄] at hcompares
        rcases hcompares with hv | ⟨result, hv⟩ <;> cases hv
  · cases hverdict

/-- **Verdicts are genuine.** When the coordinator says whether the states match, they are those that
the two programs give to the input, and Ballistic's is one of a successful execution. -/
theorem fuzzer_verdict (h : Reached (fuzzer programs input capacity ignoresSigpipe) s) {v : Verdict}
    (hverdict : verdict s.history = some v) (hcompares : v = .matched ∨ ∃ result, v = .mismatch result) :
    ∃ b u, (programs .ballistic).Answers input b ∧ (programs .unicorn).Answers input u ∧
      b.status = WorkerStatus.ok.code ∧ v.Compares u.finalState b.finalState := by
  obtain ⟨b, u, hballistic, hunicorn, hok, hsmall, rfl⟩ := exists_answers h hverdict hcompares
  exact ⟨b, u, hballistic, hunicorn, hok, judge_compares hok hsmall⟩

end Verdicts

/-- The states of such a round match. -/
theorem fuzzer_verdict_echo :
    ∃ b u, echo.Answers emptyInput b ∧ echo.Answers emptyInput u ∧ b.status = WorkerStatus.ok.code ∧
      Verdict.matched.Compares u.finalState b.finalState := by
  obtain ⟨s, u, hreached, -, -, hhistory, hok⟩ := exists_echo_round
  have hmatch : (balFuzzerStateCompare u.finalState u.finalState).isMatch = true :=
    balFuzzerStateCompare_isMatch.mpr ⟨rfl, rfl, rfl, rfl, rfl, rfl⟩
  have hsmall : ¬WorkerStatus.crashed.code < u.status := by
    rw [hok]
    decide
  refine fuzzer_verdict hreached ?_ (.inl rfl)
  rw [hhistory]
  change some (judge (.received 0 u) (.received 1 u)) = _
  rw [judge_received hok hsmall, if_pos hmatch]

end Ballistic.Fuzzer
