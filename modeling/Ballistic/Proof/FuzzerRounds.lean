import Ballistic.Proof.CoordinatorCalls
import Mathlib.Tactic.IntervalCases

/-!
# Rounds without faults

Where nothing goes wrong around the processes, a round of the fuzzer ends, whatever the order of the
steps and the cut of the bytes: the coordinator gets a response from each worker and compares them, and
no process is left.
-/

namespace Ballistic.Fuzzer

open Machine

variable {ι W : Type}

/-! ### Runs without faults -/

/-- The result comes from no fault, only from the calls before it. -/
def IpcResult.Calm (before : List IpcResult) : IpcResult → Prop
  | spawnFailed _ | sendFailed _ _ | receiveFailed _ _ => False
  | refusedSend w input => tooManyInstructions input = true ∨ .destroyed w ∈ before
  | refusedReceive w => .destroyed w ∈ before
  | spawned | sent _ _ | received _ _ | destroyed _ => True

structure System.Calm (harness : Harness ι W) (s : System ι W) : Prop where
  closed : ∀ {w : Nat} {x : Worker ι W}, s.workers[w]? = some x → x.handle = false →
    x.point = .exited ∧ .destroyed w ∈ s.history
  live : s.point ≠ .exited → ∀ {w : Nat} {x : Worker ι W}, s.workers[w]? = some x →
    x.abandoned = false ∧ (x.handle = true → x.point ≠ .exited)
  done : s.point = .exited → harness.caller s.history = none
  results : ∀ {before result}, before ++ [result] <+: s.history → result.Calm before

section Calm

variable {harness : Harness ι W} {s s' : System ι W} {w : Nat} {x x' : Worker ι W}
  {result : IpcResult}

theorem System.Calm.setWorker (h : s.Calm harness) (hw : s.workers[w]? = some x)
    (hclosed : x'.handle = false → x'.point = .exited ∧ .destroyed w ∈ s.history)
    (hlive : s.point ≠ .exited → x'.abandoned = false ∧ (x'.handle = true → x'.point ≠ .exited)) :
    (s.setWorker w x').Calm harness where
  closed := by
    intro v y hv hhandle
    by_cases hvw : w = v
    · subst hvw
      rw [getElem?_setWorker_self hw] at hv
      obtain rfl := Option.some.inj hv
      exact hclosed hhandle
    · rw [getElem?_setWorker_ne hvw] at hv
      exact h.closed hv hhandle
  live := by
    intro hne v y hv
    by_cases hvw : w = v
    · subst hvw
      rw [getElem?_setWorker_self hw] at hv
      obtain rfl := Option.some.inj hv
      exact hlive hne
    · rw [getElem?_setWorker_ne hvw] at hv
      exact h.live hne hv
  done := h.done
  results := h.results

theorem System.Calm.moves (h : s.Calm harness) (hne : s.point ≠ .exited) {point : CallerPoint}
    (hdone : point = .exited → harness.caller s.history = none) :
    ({ s with point := point } : System ι W).Calm harness :=
  ⟨h.closed, fun _ => h.live hne, hdone, h.results⟩

theorem System.Calm.returns (h : s.Calm harness) (hne : s.point ≠ .exited)
    (hresult : result.Calm s.history) : (s.returns result).Calm harness where
  closed := fun hw hhandle =>
    (h.closed hw hhandle).imp_right fun hmem => List.mem_append_left _ hmem
  live := fun _ => h.live hne
  done := fun hexited => by cases hexited
  results := by
    intro before last hpart
    rcases List.prefix_concat_iff.mp hpart with heq | hearlier
    · obtain ⟨rfl, hlast⟩ := List.append_inj' heq rfl
      rw [List.singleton_inj.mp hlast]
      exact hresult
    · exact h.results hearlier

theorem System.Calm.setSame (h : s.Calm harness) (hw : s.workers[w]? = some x) (x' : Worker ι W)
    (hhandle : x'.handle = x.handle) (hpoint : x'.point = x.point)
    (habandoned : x'.abandoned = x.abandoned) : (s.setWorker w x').Calm harness := by
  refine h.setWorker hw (fun hclosed => ?_) fun hne => ?_
  · rw [hpoint]
    exact h.closed hw (hhandle ▸ hclosed)
  · rw [habandoned, hhandle, hpoint]
    exact h.live hne hw

/-- While the caller is there, its ends of the pipes are. -/
theorem System.Calm.workerStep (h : s.Calm harness) (hw : s.workers[w]? = some x)
    (hstep : WorkerStep harness (s.Held w) x x') : (s.setWorker w x').Calm harness := by
  have hhandle : x.handle = true := by
    by_contra hclosed
    have hexited := (h.closed hw (Bool.eq_false_iff.mpr hclosed)).1
    cases hstep with
    | read hpoint | endOfFile hpoint | handle hpoint | write hpoint | brokenPipe hpoint =>
        rw [hpoint] at hexited
        cases hexited
  refine h.setWorker hw (fun hclosed => ?_) fun hne => ?_
  · rw [hstep.handle_eq, hhandle] at hclosed
    cases hclosed
  · have hheld : s.Held w := .inl ⟨hne, x, hw, hhandle⟩
    have habandoned := (h.live hne hw).1
    cases hstep with
    | read =>
        refine ⟨habandoned, fun _ => ?_⟩
        rw [Worker.readExact]
        split <;> exact WorkerPoint.noConfusion
    | handle => exact ⟨habandoned, fun _ => WorkerPoint.noConfusion⟩
    | write =>
        refine ⟨habandoned, fun _ => ?_⟩
        rw [Worker.writeExact]
        split <;> exact WorkerPoint.noConfusion
    | endOfFile _ _ hclosed | brokenPipe _ hclosed => exact absurd hheld hclosed

theorem CallerPoint.ne_exited_of_worker {point : CallerPoint} (h : point.worker = some w) :
    point ≠ .exited := by
  rintro rfl
  cases h

theorem System.Calm.ipcSpawn (h : s.Calm harness) (hpoint : s.point = .between) (program : ι)
    (memory : W) : (s.ipcSpawn program memory).Calm harness := by
  have hne : s.point ≠ .exited := by
    rw [hpoint]
    exact CallerPoint.noConfusion
  have hnew : ∀ {v : Nat} {y : Worker ι W}, (s.workers ++ [s.newWorker program memory])[v]? = some y →
      s.workers[v]? = some y ∨ y = s.newWorker program memory := by
    intro v y hv
    by_cases hlt : v < s.workers.length
    · rw [List.getElem?_append_left hlt] at hv
      exact .inl hv
    · rw [List.getElem?_append_right (Nat.le_of_not_lt hlt)] at hv
      exact .inr (List.mem_singleton.mp (List.mem_of_getElem? hv))
  have hspawned : ({ s with workers := s.workers ++ [s.newWorker program memory] } :
      System ι W).Calm harness := by
    refine ⟨fun hv hhandle => ?_, fun _ => ?_, h.done, h.results⟩
    · rcases hnew hv with hold | rfl
      · exact h.closed hold hhandle
      · cases hhandle
    · intro v y hv
      rcases hnew hv with hold | rfl
      · exact h.live hne hold
      · exact ⟨rfl, fun _ => WorkerPoint.noConfusion⟩
  exact hspawned.returns hne trivial

theorem System.Calm.destroy (h : s.Calm harness) (hpoint : s.point = .between)
    (hw : s.workers[w]? = some x) :
    ((s.setWorker w x.destroy).returns (.destroyed w)).Calm harness where
  closed := by
    intro v y hv hhandle
    change (s.setWorker w x.destroy).workers[v]? = some y at hv
    by_cases hvw : w = v
    · subst hvw
      rw [getElem?_setWorker_self hw] at hv
      obtain rfl := Option.some.inj hv
      refine ⟨?_, List.mem_append_right _ (List.mem_singleton.mpr rfl)⟩
      rcases x.destroy_cases with hsame | ⟨-, hdestroyed⟩
      · rw [hsame] at hhandle ⊢
        exact (h.closed hw hhandle).1
      · rw [hdestroyed]
    · rw [getElem?_setWorker_ne hvw] at hv
      exact (h.closed hv hhandle).imp_right fun hmem => List.mem_append_left _ hmem
  live := by
    intro _ v y hv
    have hne : s.point ≠ .exited := by
      rw [hpoint]
      exact CallerPoint.noConfusion
    change (s.setWorker w x.destroy).workers[v]? = some y at hv
    by_cases hvw : w = v
    · subst hvw
      rw [getElem?_setWorker_self hw] at hv
      obtain rfl := Option.some.inj hv
      rcases x.destroy_cases with hsame | ⟨-, hdestroyed⟩
      · rw [hsame]
        exact h.live hne hw
      · rw [hdestroyed]
        exact ⟨(h.live hne hw).1, fun hhandle => by cases hhandle⟩
    · rw [getElem?_setWorker_ne hvw] at hv
      exact h.live hne hv
  done := fun hexited => by cases hexited
  results := by
    have hset : (s.returns (.destroyed w)).Calm harness := by
      refine h.returns ?_ trivial
      rw [hpoint]
      exact CallerPoint.noConfusion
    intro before result hpart
    exact hset.results hpart

theorem Step.calm (hstep : Step harness s s') (hformed : s.Formed) (h : s.Calm harness) :
    s'.Calm harness := by
  have hnot : s.point = .between → s.point ≠ .exited := by
    intro hpoint hexited
    rw [hpoint] at hexited
    cases hexited
  -- In a call the worker is alive, so its pipes are not broken.
  have halive : ∀ {w : Nat} {x : Worker ι W}, s.point.worker = some w → s.workers[w]? = some x → x.point ≠ .exited := by
    intro w x hworker hw
    obtain ⟨y, hy, hopen⟩ := hformed.opened hworker
    rw [hw] at hy
    obtain rfl := Option.some.inj hy
    exact (h.live (CallerPoint.ne_exited_of_worker hworker) hw).2 hopen
  cases hstep with
  | worker hw hstep => exact h.workerStep hw hstep
  | spawn hpoint => exact h.ipcSpawn hpoint _ _
  | refuseSend hpoint _ hw hrefused =>
      exact h.returns (hnot hpoint)
        (hrefused.symm.imp_right fun hclosed => (h.closed hw hclosed).2)
  | refuseReceive hpoint _ hw hclosed => exact h.returns (hnot hpoint) (h.closed hw hclosed).2
  | send hpoint | receive hpoint => exact h.moves (hnot hpoint) fun hexited => by cases hexited
  | @sendPiece w written n x input hpoint hw =>
      have hne := CallerPoint.ne_exited_of_worker (congrArg CallerPoint.worker hpoint)
      have hset := h.setSame hw
        { x with input := x.input ++ ((FuzzerInput.codec.encode input).drop written).take n } rfl rfl
        rfl
      rw [System.ipcSend]
      split
      · exact hset.returns hne trivial
      · exact hset.moves hne fun hexited => by cases hexited
  | @receivePiece w x got bytes rest hpoint hw =>
      have hne := CallerPoint.ne_exited_of_worker (congrArg CallerPoint.worker hpoint)
      have hset := h.setSame hw { x with output := rest } rfl rfl rfl
      rw [System.ipcReceive]
      split
      · exact hset.returns hne trivial
      · exact hset.moves hne fun hexited => by cases hexited
  | sendBroken hpoint hw hclosed =>
      exact absurd hclosed (halive (congrArg CallerPoint.worker hpoint) hw)
  | receiveEnd hpoint hw _ hclosed =>
      exact absurd hclosed (halive (congrArg CallerPoint.worker hpoint) hw)
  | destroy hpoint _ hw => exact h.destroy hpoint hw
  | exit hpoint hcall => exact h.moves (hnot hpoint) fun _ => hcall

theorem System.init_calm : (System.init : System ι W).Calm harness where
  closed := fun hw => by cases hw
  live := by
    intro _ w x hw
    cases hw
  done := fun hexited => by cases hexited
  results := fun hpart => absurd (List.prefix_nil.mp hpart)
    (List.append_ne_nil_of_right_ne_nil _ (List.cons_ne_nil _ _))

/-- What is reached without faults. -/
theorem calm_of_steps (h : Relation.ReflTransGen (Step harness) .init s) :
    Reached harness s ∧ s.Calm harness := by
  induction h with
  | refl =>
      exact ⟨.init, System.init_calm⟩
  | tail _ hstep ih => exact ⟨ih.1.step hstep, hstep.calm ih.1.formed ih.2⟩

theorem System.Calm.unbroken (h : s.Calm harness) (w : Nat) : Unbroken w s.history := by
  intro result hmem
  obtain ⟨before, after, hhistory⟩ := List.append_of_mem hmem
  have hcalm : result.Calm before := h.results ⟨after, by rw [hhistory, List.append_assoc]; rfl⟩
  cases result with
  | sendFailed | receiveFailed => exact absurd hcalm not_false
  | spawned | spawnFailed | refusedSend | sent | refusedReceive | received | destroyed => rfl

end Calm

/-! ### Rounds -/

/-- What the calls of a round come to. -/
def roundResults (input : FuzzerInput) (ballistic unicorn : FuzzerResponse) : List IpcResult :=
  [.spawned, .spawned, .sent 0 input, .sent 1 input, .received 0 ballistic, .received 1 unicorn,
    .destroyed 0, .destroyed 1]

section Rounds

variable {input : FuzzerInput} {history : List IpcResult} {programs : List Role}

/-- A part of a round, if the input is not too long. -/
theorem Follows.round (h : Follows (coordinator input) history programs)
    (hresults : ∀ {before result}, before ++ [result] <+: history → result.Calm before)
    (hfew : tooManyInstructions input = false) :
    ∃ k ballistic unicorn, k ≤ 8 ∧ history = (roundResults input ballistic unicorn).take k ∧
      programs = [.ballistic, .unicorn].take k := by
  induction h with
  | nil => exact ⟨0, ⟨0, 0, fun _ => 0, .zero⟩, ⟨0, 0, fun _ => 0, .zero⟩, Nat.zero_le _, rfl, rfl⟩
  | spawned h hcall ih =>
      obtain ⟨k, b, u, hk, rfl, rfl⟩ :=
        ih fun hpart => hresults (hpart.trans (List.prefix_append _ _))
      interval_cases k
      · cases hcall
        exact ⟨1, b, u, by decide, rfl, rfl⟩
      · cases hcall
        exact ⟨2, b, u, by decide, rfl, rfl⟩
      all_goals cases hcall
  | @snoc history programs call result h hcall hanswers hne ih =>
      obtain ⟨k, b, u, hk, rfl, rfl⟩ :=
        ih fun hpart => hresults (hpart.trans (List.prefix_append _ _))
      have hlast := hresults (List.prefix_refl _)
      interval_cases k
      · cases hcall
        cases hanswers with
        | spawned => exact absurd rfl hne
        | spawnFailed => exact absurd hlast not_false
      · cases hcall
        cases hanswers with
        | spawned => exact absurd rfl hne
        | spawnFailed => exact absurd hlast not_false
      · cases hcall
        cases hanswers with
        | sendFailed => exact absurd hlast not_false
        | sent => exact ⟨3, b, u, by decide, rfl, rfl⟩
        | refusedSend =>
            rcases hlast with hmany | hmem
            · rw [hfew] at hmany
              cases hmany
            · simp [roundResults] at hmem
      · cases hcall
        cases hanswers with
        | sendFailed => exact absurd hlast not_false
        | sent => exact ⟨4, b, u, by decide, rfl, rfl⟩
        | refusedSend =>
            rcases hlast with hmany | hmem
            · rw [hfew] at hmany
              cases hmany
            · simp [roundResults] at hmem
      · cases hcall
        cases hanswers with
        | receiveFailed => exact absurd hlast not_false
        | @received w response => exact ⟨5, response, u, by decide, rfl, rfl⟩
        | refusedReceive =>
            simp [roundResults, IpcResult.Calm] at hlast
      · cases hcall
        cases hanswers with
        | receiveFailed => exact absurd hlast not_false
        | @received w response => exact ⟨6, b, response, by decide, rfl, rfl⟩
        | refusedReceive =>
            simp [roundResults, IpcResult.Calm] at hlast
      · cases hcall
        cases hanswers
        exact ⟨7, b, u, by decide, rfl, rfl⟩
      · cases hcall
        cases hanswers
        exact ⟨8, b, u, by decide, rfl, rfl⟩
      · cases hcall

end Rounds

section Fuzzers

variable {programs : Role → WorkerProgram W} {input : FuzzerInput} {capacity : Nat}
  {ignoresSigpipe : Bool} {s : System Role W}

/-- Where the coordinator stands in a round. -/
theorem System.Calm.round (h : s.Calm (fuzzer programs input capacity ignoresSigpipe))
    (hreached : Reached (fuzzer programs input capacity ignoresSigpipe) s)
    (hfew : tooManyInstructions input = false) :
    ∃ k ballistic unicorn, k ≤ 8 ∧ s.history = (roundResults input ballistic unicorn).take k ∧
      s.workers.map Worker.program = [.ballistic, .unicorn].take k :=
  hreached.followed.history.round h.results hfew

theorem System.Calm.orderly (h : s.Calm (fuzzer programs input capacity ignoresSigpipe))
    (hreached : Reached (fuzzer programs input capacity ignoresSigpipe) s)
    (hfew : tooManyInstructions input = false) :
    s.Orderly (fuzzer programs input capacity ignoresSigpipe) := by
  obtain ⟨k, b, u, hk, hhistory, hprograms⟩ := h.round hreached hfew
  have hlength : s.workers.length = ([Role.ballistic, .unicorn].take k).length := by
    rw [← hprograms, List.length_map]
  constructor
  · intro _ call w hcall hworker
    change coordinator input s.history = some call at hcall
    rw [hhistory] at hcall
    rw [hlength]
    interval_cases k <;> cases hcall <;> cases hworker <;> decide
  · intro w hworker
    exact ⟨h.unbroken w, fun x hw => (h.live (CallerPoint.ne_exited_of_worker hworker) hw).1⟩
  · intro w input' written hpoint
    have hcall : coordinator input s.history = some (.send w input') :=
      hreached.followed.sending hpoint
    rw [hhistory] at hcall ⊢
    interval_cases k <;> cases hcall <;> rfl
  · intro w got hpoint
    have hcall : coordinator input s.history = some (.receive w) :=
      hreached.followed.receiving hpoint
    rw [hhistory] at hcall ⊢
    interval_cases k <;> cases hcall <;> exact Nat.zero_lt_one

theorem fuzzer_acc (programs : Role → WorkerProgram W) (input : FuzzerInput) (capacity : Nat)
    (ignoresSigpipe : Bool) :
    Acc (fun t s => Step (fuzzer programs input capacity ignoresSigpipe) s t) .init :=
  Reached.init.acc (coordinator_eq_none input)

theorem System.Calm.whole_round (h : s.Calm (fuzzer programs input capacity ignoresSigpipe))
    (hreached : Reached (fuzzer programs input capacity ignoresSigpipe) s)
    (hfew : tooManyInstructions input = false) (hexited : s.point = .exited) :
    ∃ ballistic unicorn, s.history = roundResults input ballistic unicorn ∧
      s.workers.map Worker.program = [.ballistic, .unicorn] := by
  obtain ⟨k, b, u, hk, hhistory, hprograms⟩ := h.round hreached hfew
  have hdone : coordinator input s.history = none := h.done hexited
  have hwhole : k = 8 := by
    rw [hhistory] at hdone
    interval_cases k <;> first | rfl | cases hdone
  subst hwhole
  exact ⟨b, u, hhistory, hprograms⟩

/-- In a round a worker has no input but the one of the round, and has it at the start. -/
theorem System.Calm.served (h : s.Calm (fuzzer programs input capacity ignoresSigpipe))
    (hreached : Reached (fuzzer programs input capacity ignoresSigpipe) s)
    (hfew : tooManyInstructions input = false)
    (hanswers : ∀ role, ∃ response, (programs role).Answers input response) :
    s.Served (fuzzer programs input capacity ignoresSigpipe) := by
  intro w x input' hw hpoint
  have hview : s.View (fuzzer programs input capacity ignoresSigpipe) w x := by
    by_cases hexited : s.point = .exited
    · obtain ⟨b, u, hhistory, hprograms⟩ := h.whole_round hreached hfew hexited
      refine hreached.view_of_once (coordinator_sendsOnce input w) (fun response hmem => ?_) hw ?_
      · rw [hhistory] at hmem
        simp [roundResults] at hmem
      · have htwo : s.workers.length = 2 := by
          rw [← List.length_map Worker.program, hprograms]
          rfl
        have hlt : w < 2 := htwo ▸ (List.getElem?_eq_some_iff.mp hw).1
        rw [hhistory]
        interval_cases w
        · exact List.cons_ne_nil b []
        · exact List.cons_ne_nil u []
    · exact hreached.sound.view hw (h.unbroken w) (h.live hexited hw).1
  obtain ⟨part, got, -, taken, pending, owed, gotIn, partOut, hsent, -, -, hat⟩ := hview
  cases hat with
  | reading hpoint' | writing hpoint' | exited hpoint' =>
      rw [hpoint] at hpoint'
      cases hpoint'
  | @handling before _ hpoint' htaken hbefore =>
      rw [hpoint] at hpoint'
      cases hpoint'
      -- Nothing but the input of the round was ever sent.
      have hstarts : before ++ [input'] <+: [input] := by
        rw [← htaken]
        exact (List.prefix_append taken pending).trans
          (hsent ▸ hreached.followed.history.sentTo_prefix w)
      have hlength := hstarts.length_le
      rw [List.length_append, List.length_singleton, List.length_singleton] at hlength
      obtain rfl : before = [] := List.eq_nil_of_length_eq_zero (by omega)
      obtain rfl : input' = input := List.singleton_inj.mp (hstarts.eq_of_length rfl)
      have hmemory : x.memory = (programs x.program).start := hbefore.memory_of_nil
      obtain ⟨response, memory, final, hhandles⟩ := hanswers x.program
      exact ⟨memory, response, final, hmemory ▸ hhandles⟩

/-- Where nothing can go on, the round has ended. -/
theorem fuzzer_ended (hanswers : ∀ role, ∃ response, (programs role).Answers input response)
    (hcapacity : 0 < capacity) (hfew : tooManyInstructions input = false)
    (hsteps : Relation.ReflTransGen (Step (fuzzer programs input capacity ignoresSigpipe)) .init s)
    (hstuck : ∀ t, ¬Step (fuzzer programs input capacity ignoresSigpipe) s t) :
    s.point = .exited ∧ (∀ x ∈ s.workers, x.point = .exited) ∧
      ∃ b u, (programs .ballistic).Answers input b ∧ (programs .unicorn).Answers input u ∧
        s.history = roundResults input b u := by
  obtain ⟨hreached, hcalm⟩ := calm_of_steps hsteps
  have hexited : s.point = .exited := by
    by_contra hrunning
    obtain ⟨t, hstep⟩ :=
      (hcalm.orderly hreached hfew).exists_step hreached (hcalm.served hreached hfew hanswers) hcapacity
        hrunning
    exact hstuck t hstep
  refine ⟨hexited, fun x hx => ?_, ?_⟩
  · obtain ⟨w, hw⟩ := List.mem_iff_getElem?.mp hx
    by_contra hlive
    obtain ⟨t, hstep⟩ := hreached.formed.exists_step_of_exited hexited
      (hcalm.served hreached hfew hanswers) hw hlive
    exact hstuck t hstep
  · obtain ⟨b, u, hhistory, hprograms⟩ := hcalm.whole_round hreached hfew hexited
    have hreceives : ∀ w response, .receiveFailed w response ∉ s.history := by
      intro w response hmem
      rw [hhistory] at hmem
      simp [roundResults] at hmem
    have hballistic : receivedFrom 0 s.history = [b] := by
      rw [hhistory]
      rfl
    have hunicorn : receivedFrom 1 s.history = [u] := by
      rw [hhistory]
      rfl
    refine ⟨b, u, fuzzer_answers hreached (by rw [hprograms]; rfl) (hreceives 0) hballistic,
      fuzzer_answers hreached (by rw [hprograms]; rfl) (hreceives 1) hunicorn, hhistory⟩

end Fuzzers

/-! ### Every pair of answers is compared in some run -/

/-- Every answer of `program` is one of `program'`. -/
structure WorkerProgram.Within (program program' : WorkerProgram W) : Prop where
  start : program.start = program'.start
  handles : ∀ {memory input memory' response final},
    program.handles memory input memory' response final →
      program'.handles memory input memory' response final

/-- The program, when its first answer is `response`. -/
def WorkerProgram.only (program : WorkerProgram W) (input : FuzzerInput) (response : FuzzerResponse) :
    WorkerProgram W where
  start := program.start
  handles := fun memory input' memory' response' final =>
    program.handles memory input' memory' response' final ∧
      (memory = program.start → input' = input → response' = response)
  hangs := program.hangs

section Answered

variable {programs programs' : Role → WorkerProgram W} {input : FuzzerInput} {capacity : Nat}
  {ignoresSigpipe : Bool} {s s' : System Role W}

theorem WorkerStep.mono (hwithin : ∀ role, (programs role).Within (programs' role)) {held : Prop}
    {x x' : Worker Role W}
    (hstep : WorkerStep (fuzzer programs input capacity ignoresSigpipe) held x x') :
    WorkerStep (fuzzer programs' input capacity ignoresSigpipe) held x x' := by
  cases hstep with
  | read hpoint hinput hne hle => exact .read hpoint hinput hne hle
  | endOfFile hpoint hempty hclosed => exact .endOfFile hpoint hempty hclosed
  | handle hpoint hhandles => exact .handle hpoint ((hwithin x.program).handles hhandles)
  | write hpoint hpos hle hroom hheld => exact .write hpoint hpos hle hroom hheld
  | brokenPipe hpoint hclosed => exact .brokenPipe hpoint hclosed

theorem Step.mono (hwithin : ∀ role, (programs role).Within (programs' role))
    (hstep : Step (fuzzer programs input capacity ignoresSigpipe) s s') :
    Step (fuzzer programs' input capacity ignoresSigpipe) s s' := by
  cases hstep with
  | worker hw hstep => exact .worker hw (hstep.mono hwithin)
  | @spawn program hpoint hcall =>
      change Step _ s (s.ipcSpawn program (programs program).start)
      rw [(hwithin program).start]
      exact .spawn hpoint hcall
  | refuseSend hpoint hcall hw hrefused => exact .refuseSend hpoint hcall hw hrefused
  | send hpoint hcall hw hhandle hfew => exact .send hpoint hcall hw hhandle hfew
  | sendPiece hpoint hw hpos hle hroom hreader => exact .sendPiece hpoint hw hpos hle hroom hreader
  | sendBroken hpoint hw hclosed => exact .sendBroken hpoint hw hclosed
  | refuseReceive hpoint hcall hw hrefused => exact .refuseReceive hpoint hcall hw hrefused
  | receive hpoint hcall hw hhandle => exact .receive hpoint hcall hw hhandle
  | receivePiece hpoint hw houtput hne hle => exact .receivePiece hpoint hw houtput hne hle
  | receiveEnd hpoint hw hempty hclosed => exact .receiveEnd hpoint hw hempty hclosed
  | destroy hpoint hcall hw => exact .destroy hpoint hcall hw
  | exit hpoint hcall => exact .exit hpoint hcall

theorem WorkerProgram.Responds.answers {program : WorkerProgram W}
    (h : program.Responds program.start input) : ∃ response, program.Answers input response := by
  obtain ⟨-, memory, response, final, hhandles⟩ := h
  exact ⟨response, memory, final, hhandles⟩

theorem WorkerProgram.only_within (program : WorkerProgram W) (input : FuzzerInput)
    (response : FuzzerResponse) : (program.only input response).Within program :=
  ⟨rfl, fun h => h.1⟩

theorem WorkerProgram.Answers.of_only {program : WorkerProgram W} {response response' : FuzzerResponse}
    (h : (program.only input response).Answers input response') : response' = response := by
  obtain ⟨memory, final, -, hfirst⟩ := h
  exact hfirst rfl rfl

theorem WorkerProgram.Answers.only {program : WorkerProgram W} {response : FuzzerResponse}
    (h : program.Answers input response) : (program.only input response).Answers input response := by
  obtain ⟨memory, final, hhandles⟩ := h
  exact ⟨memory, final, hhandles, fun _ _ => rfl⟩

/-- There is a round in which the programs give these answers. -/
theorem exists_round (hcapacity : 0 < capacity) (hfew : tooManyInstructions input = false)
    {b u : FuzzerResponse} (hb : (programs .ballistic).Answers input b)
    (hu : (programs .unicorn).Answers input u) :
    ∃ s, Relation.ReflTransGen (Step (fuzzer programs input capacity ignoresSigpipe)) .init s ∧
      s.history = roundResults input b u := by
  let answers : Role → FuzzerResponse := fun role => if role = .ballistic then b else u
  let chosen : Role → WorkerProgram W := fun role => (programs role).only input (answers role)
  have hanswers : ∀ role, ∃ response, (chosen role).Answers input response := by
    intro role
    cases role with
    | ballistic => exact ⟨b, hb.only⟩
    | unicorn => exact ⟨u, hu.only⟩
  obtain ⟨s, hsteps, hstuck⟩ := exists_end_of_acc (fuzzer_acc chosen input capacity ignoresSigpipe)
  obtain ⟨-, -, b', u', hb', hu', hhistory⟩ := fuzzer_ended hanswers hcapacity hfew hsteps hstuck
  rw [hb'.of_only, hu'.of_only] at hhistory
  refine ⟨s, hsteps.lift id fun _ _ hstep => hstep.mono fun role => ?_, hhistory⟩
  exact (programs role).only_within input _

/-- **A round ends.** Without faults every run of the fuzzer ends, and it ends with a judgement of what
the two programs give to the input, and with all processes gone, if the programs always answer it. Each
pair of answers is judged in some run. -/
theorem fuzzer_finishes (hanswers : ∀ role, (programs role).Responds (programs role).start input)
    (hcapacity : 0 < capacity) (hfew : tooManyInstructions input = false) :
    Acc (fun t s => Step (fuzzer programs input capacity ignoresSigpipe) s t) .init ∧
      (∀ s, Relation.ReflTransGen (Step (fuzzer programs input capacity ignoresSigpipe)) .init s →
        (∀ t, ¬Step (fuzzer programs input capacity ignoresSigpipe) s t) →
          s.point = .exited ∧ (∀ x ∈ s.workers, x.point = .exited) ∧
            ∃ b u, (programs .ballistic).Answers input b ∧ (programs .unicorn).Answers input u ∧
              s.history = roundResults input b u) ∧
      ∀ b u, (programs .ballistic).Answers input b → (programs .unicorn).Answers input u →
        ∃ s, Relation.ReflTransGen (Step (fuzzer programs input capacity ignoresSigpipe)) .init s ∧
          s.history = roundResults input b u :=
  ⟨fuzzer_acc programs input capacity ignoresSigpipe,
    fun _ hsteps hstuck => fuzzer_ended (fun role => (hanswers role).answers) hcapacity hfew hsteps hstuck,
    fun _ _ hb hu => exists_round hcapacity hfew hb hu⟩

end Answered

/-- An input without instructions. -/
def emptyInput : FuzzerInput := ⟨1, 0, 0, fun _ => 0, .zero⟩

/-- Two workers that leave the state as it is. -/
theorem fuzzer_finishes_echo :
    Acc (fun t s => Step (fuzzer (fun _ => echo) emptyInput 65536 false) s t) .init ∧
      (∀ s, Relation.ReflTransGen (Step (fuzzer (fun _ => echo) emptyInput 65536 false)) .init s →
        (∀ t, ¬Step (fuzzer (fun _ => echo) emptyInput 65536 false) s t) →
          s.point = .exited ∧ (∀ x ∈ s.workers, x.point = .exited) ∧
            ∃ b u, echo.Answers emptyInput b ∧ echo.Answers emptyInput u ∧
              s.history = roundResults emptyInput b u) ∧
      ∀ b u, echo.Answers emptyInput b → echo.Answers emptyInput u →
        ∃ s, Relation.ReflTransGen (Step (fuzzer (fun _ => echo) emptyInput 65536 false)) .init s ∧
          s.history = roundResults emptyInput b u :=
  fuzzer_finishes (fun _ => echo_responds () emptyInput) (by decide) rfl

end Ballistic.Fuzzer
