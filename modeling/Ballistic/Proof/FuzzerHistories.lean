import Ballistic.Proof.FuzzerProgress

/-!
# Histories of the fuzzer's calls

Every result in a history belongs to the call that the caller made after the results before it, and the
workers are those whose spawning succeeded. A caller that sends at most once to each worker gets
genuine responses even after a call or a worker has failed in the middle of a message: what is left in
the pipes is too short to be taken for one (`Reached.view_of_once`).
-/

namespace Ballistic.Fuzzer

open Machine

variable {ι W : Type}

/-! ### Results and calls -/

/-- The result is one that the call can have. -/
inductive IpcResult.Answers : IpcResult → IpcCall ι → Prop
  | spawned {program : ι} : Answers .spawned (.spawn program)
  | spawnFailed {program : ι} {status : BalError} : Answers (.spawnFailed status) (.spawn program)
  | refusedSend {w : Nat} {input : FuzzerInput} : Answers (.refusedSend w input) (.send w input)
  | sent {w : Nat} {input : FuzzerInput} : Answers (.sent w input) (.send w input)
  | sendFailed {w : Nat} {input : FuzzerInput} : Answers (.sendFailed w input) (.send w input)
  | refusedReceive {w : Nat} : Answers (.refusedReceive w) (.receive w)
  | received {w : Nat} {response : FuzzerResponse} : Answers (.received w response) (.receive w)
  | receiveFailed {w : Nat} {response : FuzzerResponse} :
      Answers (.receiveFailed w response) (.receive w)
  | destroyed {w : Nat} : Answers (.destroyed w) (.destroy w)

/-- Each result belongs to the call made after those before it, and each program was spawned. -/
inductive Follows (caller : List IpcResult → Option (IpcCall ι)) : List IpcResult → List ι → Prop
  | nil : Follows caller [] []
  | spawned {history : List IpcResult} {programs : List ι} {program : ι}
      (h : Follows caller history programs) (hcall : caller history = some (.spawn program)) :
      Follows caller (history ++ [.spawned]) (programs ++ [program])
  | snoc {history : List IpcResult} {programs : List ι} {call : IpcCall ι} {result : IpcResult}
      (h : Follows caller history programs) (hcall : caller history = some call)
      (hanswers : result.Answers call) (hne : result ≠ .spawned) :
      Follows caller (history ++ [result]) programs

/-- The call that the caller is in. -/
def CallerPoint.call : CallerPoint → Option (IpcCall ι)
  | sending w input _ => some (.send w input)
  | receiving w _ => some (.receive w)
  | between | exited => none

structure System.Followed (harness : Harness ι W) (s : System ι W) : Prop where
  history : Follows harness.caller s.history (s.workers.map Worker.program)
  call : ∀ {call}, s.point.call = some call → harness.caller s.history = some call

section Histories

variable {harness : Harness ι W} {s s' : System ι W} {w : Nat} {x x' : Worker ι W}

theorem map_set_of_eq {α β : Type} (f : α → β) {l : List α} {k : Nat} {a b : α}
    (h : l[k]? = some a) (hsame : f b = f a) : (l.set k b).map f = l.map f := by
  refine List.ext_getElem? fun j => ?_
  rw [List.getElem?_map, List.getElem?_map]
  by_cases hjk : k = j
  · subst hjk
    rw [List.getElem?_set_self (List.getElem?_eq_some_iff.mp h).1, h, Option.map_some,
      Option.map_some, hsame]
  · rw [List.getElem?_set_ne hjk]

theorem WorkerStep.program_eq {held : Prop} (hstep : WorkerStep harness held x x') :
    x'.program = x.program := by
  cases hstep <;> rfl

theorem Worker.destroy_program (x : Worker ι W) : x.destroy.program = x.program := by
  rcases x.destroy_cases with hsame | ⟨-, hdestroyed⟩
  · rw [hsame]
  · rw [hdestroyed]

theorem System.Followed.setWorker (h : s.Followed harness) (hw : s.workers[w]? = some x)
    (x' : Worker ι W) (hprogram : x'.program = x.program) : (s.setWorker w x').Followed harness where
  history := by
    change Follows harness.caller s.history ((s.workers.set w x').map Worker.program)
    rw [map_set_of_eq Worker.program hw hprogram]
    exact h.history
  call := h.call

theorem System.Followed.returns (h : s.Followed harness) {call : IpcCall ι} {result : IpcResult}
    (hcall : harness.caller s.history = some call) (hanswers : result.Answers call)
    (hne : result ≠ .spawned) : (s.returns result).Followed harness where
  history := h.history.snoc hcall hanswers hne
  call := by
    intro call hcall
    cases hcall

theorem System.Followed.moves (h : s.Followed harness) {point : CallerPoint}
    (hcall : ∀ {call}, point.call = some call → harness.caller s.history = some call) :
    ({ s with point := point } : System ι W).Followed harness :=
  ⟨h.history, hcall⟩

theorem System.Followed.sending (h : s.Followed harness) {input : FuzzerInput} {written : Nat}
    (hpoint : s.point = .sending w input written) :
    harness.caller s.history = some (.send w input) :=
  h.call (by rw [hpoint]; rfl)

theorem System.Followed.receiving (h : s.Followed harness) {got : List Byte}
    (hpoint : s.point = .receiving w got) : harness.caller s.history = some (.receive w) :=
  h.call (by rw [hpoint]; rfl)

theorem Step.followed (hstep : Step harness s s') (h : s.Followed harness) :
    s'.Followed harness := by
  cases hstep with
  | worker hw hstep => exact h.setWorker hw _ hstep.program_eq
  | @spawn program hpoint hcall =>
      refine ⟨?_, fun hcall => by cases hcall⟩
      change Follows harness.caller (s.history ++ [.spawned]) ((s.workers ++ [_]).map Worker.program)
      rw [List.map_append]
      exact h.history.spawned hcall
  | refuseSend _ hcall => exact h.returns hcall .refusedSend IpcResult.noConfusion
  | send _ hcall =>
      refine h.moves fun hcall' => ?_
      cases hcall'
      exact hcall
  | sendBroken hpoint =>
      split
      · exact h.returns (h.sending hpoint) .sendFailed IpcResult.noConfusion
      · exact h.moves fun hcall => by cases hcall
  | refuseReceive _ hcall => exact h.returns hcall .refusedReceive IpcResult.noConfusion
  | receive _ hcall =>
      refine h.moves fun hcall' => ?_
      cases hcall'
      exact hcall
  | receiveEnd hpoint =>
      exact h.returns (h.receiving hpoint) .receiveFailed IpcResult.noConfusion
  | destroy _ hcall hw =>
      exact (h.setWorker hw _ (Worker.destroy_program _)).returns hcall .destroyed
        IpcResult.noConfusion
  | exit => exact h.moves fun hcall => by cases hcall
  | @sendPiece w written n x input hpoint hw =>
      have hset := h.setWorker hw
        { x with input := x.input ++ ((FuzzerInput.codec.encode input).drop written).take n } rfl
      rw [System.ipcSend]
      split
      · exact hset.returns (h.sending hpoint) .sent IpcResult.noConfusion
      · refine hset.moves fun hcall => ?_
        cases hcall
        exact h.sending hpoint
  | @receivePiece w x got bytes rest hpoint hw =>
      have hset := h.setWorker hw { x with output := rest } rfl
      rw [System.ipcReceive]
      split
      · exact hset.returns (h.receiving hpoint) .received IpcResult.noConfusion
      · refine hset.moves fun hcall => ?_
        cases hcall
        exact h.receiving hpoint

theorem Fault.followed (hfault : Fault harness s s') (h : s.Followed harness) :
    s'.Followed harness := by
  cases hfault with
  | worker hw hfault => exact h.setWorker hw _ hfault.program
  | spawnFails _ hcall => exact h.returns hcall .spawnFailed IpcResult.noConfusion
  | sendFails hpoint => exact h.returns (h.sending hpoint) .sendFailed IpcResult.noConfusion
  | receiveFails hpoint =>
      exact h.returns (h.receiving hpoint) .receiveFailed IpcResult.noConfusion
  | killed => exact h.moves fun hcall => by cases hcall

theorem Reached.followed (h : Reached harness s) : s.Followed harness := by
  induction h with
  | init => exact ⟨.nil, fun hcall => by cases hcall⟩
  | step _ hstep ih => exact hstep.followed ih
  | fault _ hfault ih => exact hfault.followed ih

end Histories

/-! ### A single input -/

/-- The call was one to send to `w`. -/
def IpcResult.sendsTo (w : Nat) : IpcResult → Bool
  | refusedSend v _ | sent v _ | sendFailed v _ => decide (v = w)
  | _ => false

/-- The caller never sends to `w` a second time. -/
def SendsOnce (caller : List IpcResult → Option (IpcCall ι)) (w : Nat) : Prop :=
  ∀ {history programs input}, Follows caller history programs →
    caller history = some (.send w input) → ∀ result ∈ history, result.sendsTo w = false

section Single

variable {harness : Harness ι W} {s s' : System ι W} {w v : Nat} {x x' : Worker ι W}
  {result : IpcResult} {history : List IpcResult}

theorem sentInput_eq_none (h : result.sendsTo w = false) : result.sentInput w = none := by
  cases result with
  | sent v input => exact if_neg (of_decide_eq_false h)
  | spawned | spawnFailed | refusedSend | sendFailed | refusedReceive | received | receiveFailed
  | destroyed => rfl

theorem sentTo_eq_nil (h : ∀ result ∈ history, result.sendsTo w = false) : sentTo w history = [] :=
  List.filterMap_eq_nil_iff.mpr fun result hmem => sentInput_eq_none (h result hmem)

theorem IpcResult.Answers.of_sendsTo {call : IpcCall ι} (h : result.Answers call)
    (hsends : result.sendsTo w = true) : ∃ input, call = .send w input := by
  cases h with
  | refusedSend | sent | sendFailed =>
      obtain rfl := of_decide_eq_true hsends
      exact ⟨_, rfl⟩
  | spawned | spawnFailed | refusedReceive | received | receiveFailed | destroyed => cases hsends

theorem Follows.length_sentTo_le {caller : List IpcResult → Option (IpcCall ι)} {programs : List ι}
    (h : Follows caller history programs) (honce : SendsOnce caller w) :
    (sentTo w history).length ≤ 1 := by
  induction h with
  | nil => exact Nat.zero_le _
  | spawned h _ ih =>
      rw [sentTo_append rfl]
      exact ih
  | @snoc history programs call result h hcall hanswers hne ih =>
      by_cases hsends : result.sendsTo w = true
      · obtain ⟨input, rfl⟩ := hanswers.of_sendsTo hsends
        have hnone : history.filterMap (IpcResult.sentInput w) = [] := sentTo_eq_nil (honce h hcall)
        rw [sentTo, List.filterMap_append, hnone, List.nil_append]
        exact List.length_filterMap_le _ _
      · rw [sentTo_append (sentInput_eq_none (Bool.eq_false_iff.mpr hsends))]
        exact ih

/-- The worker has exited, or will never have a whole input. -/
def Worker.Silent (x : Worker ι W) : Prop :=
  x.point = .exited ∨
    ∃ got, x.point = .reading got ∧ (got ++ x.input).length < FuzzerInput.codec.size

/-- A worker to which nothing was sent whole has no more than a part of an input. -/
theorem Exchange.silent {program : WorkerProgram W} {part got : List Byte}
    {received : List FuzzerResponse} (h : Exchange program x [] part received got)
    (hpart : part.length < FuzzerInput.codec.size) :
    x.Silent ∧ (got ++ x.output).length < FuzzerResponse.codec.size ∧ received = [] := by
  obtain ⟨taken, pending, owed, gotIn, partOut, hsent, hcarries, howed, hat⟩ := h
  obtain ⟨rfl, rfl⟩ := List.append_eq_nil_iff.mp hsent.symm
  have hinput : gotIn ++ x.input = part := hcarries.symm
  have hlt := hat.part_lt
  have hnone : x.Silent ∧ received ++ owed = [] := by
    cases hat with
    | handling _ htaken =>
        exact absurd htaken.symm (List.append_ne_nil_of_right_ne_nil _ (List.cons_ne_nil _ _))
    | writing _ _ hhandles =>
        have hcount := hhandles.length_eq
        rw [List.length_append] at hcount
        cases hcount
    | reading hpoint _ hhandles =>
        exact ⟨.inr ⟨gotIn, hpoint, hinput ▸ hpart⟩,
          List.length_eq_zero_iff.mp hhandles.length_eq.symm⟩
    | exited hpoint _ hhandles hbefore hlater =>
        obtain rfl := List.prefix_nil.mp hbefore
        obtain rfl := List.length_eq_zero_iff.mp hhandles.length_eq.symm
        exact ⟨.inl hpoint, List.prefix_nil.mp hlater⟩
  obtain ⟨rfl, rfl⟩ := List.append_eq_nil_iff.mp hnone.2
  have houtput : got ++ x.output = partOut := howed.symm
  exact ⟨hnone.1, houtput ▸ hlt, rfl⟩

/-- A worker that is about to answer its only input has nothing else. -/
theorem Exchange.single {program : WorkerProgram W} {part got : List Byte}
    {sent : List FuzzerInput} {received : List FuzzerResponse} {response : FuzzerResponse}
    {final : Bool} {written : Nat} (h : Exchange program x sent part received got)
    (hpart : part.length < FuzzerInput.codec.size) (hpoint : x.point = .writing response final written)
    (hsent : sent.length ≤ 1) :
    sent ≠ [] ∧ x.input.length < FuzzerInput.codec.size ∧
      (got ++ x.output).length < FuzzerResponse.codec.size ∧ received = [] := by
  obtain ⟨taken, pending, owed, gotIn, partOut, rfl, hcarries, howed, hat⟩ := h
  have hlt := hat.part_lt
  cases hat with
  | reading hpoint' | handling hpoint' | exited hpoint' =>
      rw [hpoint] at hpoint'
      cases hpoint'
  | writing hpoint' _ hhandles =>
      have hcount := hhandles.length_eq
      simp only [List.length_append, List.length_singleton] at hcount hsent
      obtain rfl : pending = [] := List.length_eq_zero_iff.mp (by omega)
      obtain rfl : received = [] := List.length_eq_zero_iff.mp (by omega)
      obtain rfl : owed = [] := List.length_eq_zero_iff.mp (by omega)
      have hinput : x.input = part := hcarries.symm
      have houtput : got ++ x.output = _ := howed.symm
      refine ⟨fun hnil => ?_, hinput ▸ hpart, houtput ▸ hlt, rfl⟩
      rw [(List.append_eq_nil_iff.mp hnil).1] at hcount
      cases hcount

/-- What is on its way to `w` and from it is too little for a message, and no more will come. -/
structure System.Mute (s : System ι W) (w : Nat) (x : Worker ι W) : Prop where
  asked : ∃ result ∈ s.history, result.sendsTo w = true
  silent : x.Silent
  short : (s.point.got w ++ x.output).length < FuzzerResponse.codec.size
  received : receivedFrom w s.history = []

theorem System.Mute.congr (h : s.Mute w x) (hgot : s'.point.got w = s.point.got w)
    (hhistory : s'.history = s.history) (hsilent : x'.Silent) (houtput : x'.output = x.output) :
    s'.Mute w x' := by
  refine ⟨?_, hsilent, ?_, ?_⟩
  · rw [hhistory]
    exact h.asked
  · rw [hgot, houtput]
    exact h.short
  · rw [hhistory]
    exact h.received

theorem System.Mute.moves (h : s.Mute w x) {point : CallerPoint} (hgot : point.got w = []) :
    ({ s with point := point } : System ι W).Mute w x := by
  refine ⟨h.asked, h.silent, ?_, h.received⟩
  have hshort := h.short
  rw [List.length_append] at hshort
  rw [hgot, List.nil_append]
  omega

theorem System.Mute.returns (h : s.Mute w x) (hreceived : result.readResponse w = none) :
    (s.returns result).Mute w x := by
  obtain ⟨earlier, hmem, hsends⟩ := h.asked
  have hshort := h.short
  rw [List.length_append] at hshort
  refine ⟨⟨earlier, List.mem_append_left _ hmem, hsends⟩, h.silent, ?_, ?_⟩
  · change ([] ++ x.output).length < _
    rw [List.nil_append]
    omega
  · change receivedFrom w (s.history ++ [result]) = []
    rw [receivedFrom_append hreceived]
    exact h.received

/-- The caller is not sending to the worker any more. -/
theorem System.Mute.ne_send (h : s.Mute w x) (hfollowed : s.Followed harness)
    (honce : SendsOnce harness.caller w) {input : FuzzerInput} :
    harness.caller s.history ≠ some (.send w input) := by
  intro hcall
  obtain ⟨result, hmem, hsends⟩ := h.asked
  rw [honce hfollowed.history hcall result hmem] at hsends
  cases hsends

theorem WorkerStep.silent {held : Prop} (hstep : WorkerStep harness held x x') (h : x.Silent) :
    x'.Silent ∧ x'.output = x.output := by
  cases hstep with
  | endOfFile => exact ⟨.inl rfl, rfl⟩
  | @read got bytes rest hpoint hinput =>
      rcases h with hexited | ⟨got', hpoint', hlt⟩
      · rw [hpoint] at hexited
        cases hexited
      · rw [hpoint] at hpoint'
        cases hpoint'
        rw [hinput, ← List.append_assoc] at hlt
        have hpartial : (got ++ bytes).length ≠ FuzzerInput.codec.size := by
          rw [List.length_append] at hlt
          omega
        refine ⟨.inr ⟨got ++ bytes, ?_, hlt⟩, rfl⟩
        rw [Worker.readExact, if_neg hpartial]
  | handle hpoint | write hpoint | brokenPipe hpoint =>
      rcases h with hpoint' | ⟨got', hpoint', -⟩ <;>
        · rw [hpoint] at hpoint'
          cases hpoint'

theorem WorkerFault.silent (hfault : WorkerFault x x') (h : x.Silent) :
    x'.Silent ∧ x'.output = x.output := by
  cases hfault with
  | dies => exact ⟨.inl rfl, rfl⟩
  | writeFails hpoint =>
      rcases h with hpoint' | ⟨got', hpoint', -⟩ <;>
        · rw [hpoint] at hpoint'
          cases hpoint'

theorem Worker.Silent.destroy (h : x.Silent) : x.destroy.Silent ∧ x.destroy.output = x.output := by
  rcases x.destroy_cases with hsame | ⟨-, hdestroyed⟩
  · rw [hsame]
    exact ⟨h, rfl⟩
  · rw [hdestroyed]
    exact ⟨.inl rfl, rfl⟩

theorem exists_sendsTo (h : sentTo w history ≠ []) : ∃ result ∈ history, result.sendsTo w = true := by
  by_contra hnone
  refine h (sentTo_eq_nil fun result hmem => ?_)
  by_contra hsends
  exact hnone ⟨result, hmem, Bool.eq_true_of_not_eq_false hsends⟩

theorem CallerPoint.Holds.length_got_le {point : CallerPoint} {part got : List Byte}
    (h : point.Holds w part got) : (point.got w).length ≤ got.length := by
  by_cases hexited : point = .exited
  · rw [hexited]
    exact Nat.zero_le _
  · rw [(h.eq hexited).2]

/-- The only response of the worker is given up. -/
theorem System.View.giveUp (h : s.View harness w x) {response : FuzzerResponse} {final : Bool}
    {written : Nat} (hpoint : x.point = .writing response final written)
    (hone : (sentTo w s.history).length ≤ 1) :
    (s.setWorker w (x.giveUp true)).Mute w (x.giveUp true) := by
  obtain ⟨part, got, hholds, hexchange⟩ := h
  obtain ⟨hasked, hinput, hshort, hreceived⟩ := hexchange.single hholds.part_lt hpoint hone
  refine ⟨exists_sendsTo hasked, .inr ⟨[], rfl, hinput⟩, ?_, hreceived⟩
  have hle := hholds.length_got_le
  rw [List.length_append] at hshort
  change (s.point.got w ++ x.output).length < _
  rw [List.length_append]
  omega

/-- The only input for the worker was not sent whole. -/
theorem System.View.sendFailed (h : s.View harness w x) (hnone : sentTo w s.history = [])
    (input : FuzzerInput) : (s.returns (.sendFailed w input)).Mute w x := by
  obtain ⟨part, got, hholds, hexchange⟩ := h
  rw [hnone] at hexchange
  obtain ⟨hsilent, hshort, hreceived⟩ := hexchange.silent hholds.part_lt
  refine ⟨⟨_, List.mem_append_right _ (List.mem_singleton.mpr rfl), decide_eq_true rfl⟩, hsilent, ?_,
    (receivedFrom_append rfl).trans hreceived⟩
  rw [List.length_append] at hshort
  change ([] ++ x.output).length < _
  rw [List.nil_append]
  omega

/-- Either no message to or from `w` was torn, or nothing more comes from it. -/
structure System.Single (s : System ι W) (w : Nat) : Prop where
  fresh : s.workers[w]? = none → Unbroken w s.history
  mute : ∀ x, s.workers[w]? = some x →
    Unbroken w s.history ∧ x.abandoned = false ∨ s.Mute w x

theorem System.Single.moves (h : s.Single w) {point : CallerPoint} (hgot : point.got w = []) :
    ({ s with point := point } : System ι W).Single w :=
  ⟨h.fresh, fun x hw => (h.mute x hw).imp_right fun hmute => hmute.moves hgot⟩

theorem Unbroken.snoc (h : Unbroken w history) (hbreaks : result.breaks w = false) :
    Unbroken w (history ++ [result]) := by
  intro earlier hmem
  rcases List.mem_append.mp hmem with hmem | hmem
  · exact h earlier hmem
  · rw [List.mem_singleton.mp hmem]
    exact hbreaks

theorem System.Single.returns (h : s.Single w) (hbreaks : result.breaks w = false)
    (hreceived : result.readResponse w = none) : (s.returns result).Single w :=
  ⟨fun hw => (h.fresh hw).snoc hbreaks, fun x hw =>
    (h.mute x hw).imp (fun hclean => ⟨hclean.1.snoc hbreaks, hclean.2⟩) fun hmute =>
      hmute.returns hreceived⟩

theorem System.Single.setWorker (h : s.Single w) (hv : s.workers[v]? = some x) (x' : Worker ι W)
    (hclean : v = w → Unbroken w s.history → x.abandoned = false →
      x'.abandoned = false ∨ (s.setWorker v x').Mute w x')
    (hmute : v = w → s.Mute w x → (s.setWorker v x').Mute w x') : (s.setWorker v x').Single w := by
  by_cases hvw : v = w
  · subst hvw
    have hset : (s.setWorker v x').workers[v]? = some x' := getElem?_setWorker_self hv
    refine ⟨fun hnone => ?_, fun y hy => ?_⟩
    · rw [hset] at hnone
      cases hnone
    · rw [hset] at hy
      obtain rfl := Option.some.inj hy
      rcases h.mute x hv with hok | hm
      · exact (hclean rfl hok.1 hok.2).imp_left fun habandoned => ⟨hok.1, habandoned⟩
      · exact .inr (hmute rfl hm)
  · have hset : (s.setWorker v x').workers[w]? = s.workers[w]? := getElem?_setWorker_ne hvw
    refine ⟨fun hnone => h.fresh (hset ▸ hnone), fun y hy => ?_⟩
    exact (h.mute y (hset ▸ hy)).imp_right fun hm => hm.congr rfl rfl hm.silent rfl

theorem System.Single.workerStep (h : s.Single w) (hreached : Reached harness s)
    (honce : SendsOnce harness.caller w) (hv : s.workers[v]? = some x)
    (hstep : WorkerStep harness (s.Held v) x x') : (s.setWorker v x').Single w := by
  refine h.setWorker hv _ (fun hvw hunbroken habandoned => ?_) fun _ hmute => ?_
  · subst hvw
    cases hstep with
    | read | endOfFile | handle | write => exact .inl habandoned
    | @brokenPipe response final written hpoint =>
        by_cases hgoesOn : (harness.ignoresSigpipe && !final) = true
        · rw [hgoesOn]
          exact .inr ((hreached.sound.view hv hunbroken habandoned).giveUp hpoint
            (hreached.followed.history.length_sentTo_le honce))
        · rw [Bool.eq_false_iff.mpr hgoesOn]
          exact .inl (Bool.or_eq_false_iff.mpr ⟨habandoned, rfl⟩)
  · obtain ⟨hsilent, houtput⟩ := hstep.silent hmute.silent
    exact hmute.congr rfl rfl hsilent houtput

theorem System.Single.workerFault (h : s.Single w) (hreached : Reached harness s)
    (honce : SendsOnce harness.caller w) (hv : s.workers[v]? = some x)
    (hfault : WorkerFault x x') : (s.setWorker v x').Single w := by
  refine h.setWorker hv _ (fun hvw hunbroken habandoned => ?_) fun _ hmute => ?_
  · subst hvw
    cases hfault with
    | dies => exact .inl habandoned
    | @writeFails response final written hpoint =>
        cases final with
        | true => exact .inl (Bool.or_eq_false_iff.mpr ⟨habandoned, rfl⟩)
        | false =>
            exact .inr ((hreached.sound.view hv hunbroken habandoned).giveUp hpoint
              (hreached.followed.history.length_sentTo_le honce))
  · obtain ⟨hsilent, houtput⟩ := hfault.silent hmute.silent
    exact hmute.congr rfl rfl hsilent houtput

/-- A call to send fails. -/
theorem System.Single.sendFailed (h : s.Single w) (hreached : Reached harness s)
    (honce : SendsOnce harness.caller w) {input : FuzzerInput} {written : Nat}
    (hpoint : s.point = .sending v input written) : (s.returns (.sendFailed v input)).Single w := by
  by_cases hvw : v = w
  · subst hvw
    have hnone := sentTo_eq_nil
      (honce hreached.followed.history (hreached.followed.sending hpoint))
    obtain ⟨y, hy, -⟩ := hreached.formed.opened (congrArg CallerPoint.worker hpoint)
    refine ⟨fun hfresh => ?_, fun x hw => .inr ?_⟩
    · change s.workers[v]? = none at hfresh
      rw [hy] at hfresh
      cases hfresh
    · rcases h.mute x hw with hclean | hmute
      · exact (hreached.sound.view hw hclean.1 hclean.2).sendFailed hnone input
      · exact hmute.returns rfl
  · exact h.returns (decide_eq_false hvw) rfl

theorem System.Single.ipcSend (h : s.Single w) (hreached : Reached harness s)
    (honce : SendsOnce harness.caller w) {input : FuzzerInput} {written n : Nat}
    (hpoint : s.point = .sending v input written) (hv : s.workers[v]? = some x) :
    (s.ipcSend v x input written n).Single w := by
  have hset := h.setWorker hv
    { x with input := x.input ++ ((FuzzerInput.codec.encode input).drop written).take n }
    (fun _ _ habandoned => .inl habandoned) fun hvw hmute => by
      subst hvw
      exact absurd (hreached.followed.sending hpoint) (hmute.ne_send hreached.followed honce)
  rw [System.ipcSend]
  split
  · exact hset.returns rfl rfl
  · exact hset.moves rfl

theorem System.Single.ipcReceive (h : s.Single w) {got bytes rest : List Byte}
    (hpoint : s.point = .receiving v got) (hv : s.workers[v]? = some x)
    (houtput : x.output = bytes ++ rest) : (s.ipcReceive v x got bytes rest).Single w := by
  by_cases hvw : v = w
  · subst hvw
    have hset : (s.ipcReceive v x got bytes rest).workers[v]? = some { x with output := rest } := by
      rw [System.ipcReceive]
      split <;> exact getElem?_setWorker_self hv
    have hunbroken : Unbroken v s.history → Unbroken v (s.ipcReceive v x got bytes rest).history := by
      intro hclean
      rw [System.ipcReceive]
      split
      · exact hclean.snoc rfl
      · exact hclean
    refine ⟨fun hnone => ?_, fun y hy => ?_⟩
    · rw [hset] at hnone
      cases hnone
    · rw [hset] at hy
      obtain rfl := Option.some.inj hy
      refine (h.mute x hv).imp (fun hclean => ⟨hunbroken hclean.1, hclean.2⟩) fun hmute => ?_
      have hshort : (got ++ (bytes ++ rest)).length < FuzzerResponse.codec.size := by
        have hshort := hmute.short
        rw [hpoint, CallerPoint.got, if_pos rfl, houtput] at hshort
        exact hshort
      rw [← List.append_assoc] at hshort
      have hpartial : (got ++ bytes).length ≠ FuzzerResponse.codec.size := by
        rw [List.length_append] at hshort
        omega
      rw [System.ipcReceive, if_neg hpartial]
      refine ⟨hmute.asked, hmute.silent, ?_, hmute.received⟩
      rw [CallerPoint.got, if_pos rfl]
      exact hshort
  · have hset := h.setWorker hv { x with output := rest }
      (fun _ _ habandoned => .inl habandoned) fun heq => absurd heq hvw
    rw [System.ipcReceive]
    split
    · exact hset.returns rfl (if_neg hvw)
    · exact hset.moves (if_neg hvw)

theorem System.Single.ipcSpawn (h : s.Single w) (program : ι) (memory : W) :
    (s.ipcSpawn program memory).Single w := by
  have hspawned : ({ s with workers := s.workers ++ [s.newWorker program memory] } :
      System ι W).Single w := by
    refine ⟨fun hnone => h.fresh ?_, fun x hw => ?_⟩
    · have hlength := List.getElem?_eq_none_iff.mp hnone
      rw [List.length_append] at hlength
      exact List.getElem?_eq_none ((Nat.le_add_right _ _).trans hlength)
    · change (s.workers ++ [_])[w]? = some x at hw
      by_cases hlt : w < s.workers.length
      · rw [List.getElem?_append_left hlt] at hw
        exact (h.mute x hw).imp_right fun hm => hm.congr rfl rfl hm.silent rfl
      · rw [List.getElem?_append_right (Nat.le_of_not_lt hlt)] at hw
        obtain rfl := List.mem_singleton.mp (List.mem_of_getElem? hw)
        exact .inl ⟨h.fresh (List.getElem?_eq_none (Nat.le_of_not_lt hlt)), rfl⟩
  exact hspawned.returns rfl rfl

theorem Step.single (hstep : Step harness s s') (hreached : Reached harness s)
    (honce : SendsOnce harness.caller w) (hreceives : ∀ response, .receiveFailed w response ∉ s'.history)
    (h : s.Single w) : s'.Single w := by
  cases hstep with
  | worker hv hstep => exact h.workerStep hreached honce hv hstep
  | spawn => exact h.ipcSpawn _ _
  | refuseSend | refuseReceive => exact h.returns rfl rfl
  | send => exact h.moves rfl
  | sendPiece hpoint hv => exact h.ipcSend hreached honce hpoint hv
  | sendBroken hpoint =>
      split
      · exact h.sendFailed hreached honce hpoint
      · exact h.moves rfl
  | receive => exact h.moves (ite_self _)
  | receivePiece hpoint hv houtput => exact h.ipcReceive hpoint hv houtput
  | @receiveEnd v =>
      have hvw : v ≠ w := by
        rintro rfl
        exact hreceives _ (List.mem_append_right _ (List.mem_singleton.mpr rfl))
      exact h.returns (decide_eq_false hvw) rfl
  | destroy _ _ hv =>
      refine (h.setWorker hv _ (fun _ _ habandoned => .inl ?_) fun _ hmute => ?_).returns rfl rfl
      · rcases Worker.destroy_cases _ with hsame | ⟨-, hdestroyed⟩
        · rw [hsame]
          exact habandoned
        · rw [hdestroyed]
          exact habandoned
      · exact hmute.congr rfl rfl hmute.silent.destroy.1 hmute.silent.destroy.2
  | exit => exact h.moves rfl

theorem Fault.single (hfault : Fault harness s s') (hreached : Reached harness s)
    (honce : SendsOnce harness.caller w) (hreceives : ∀ response, .receiveFailed w response ∉ s'.history)
    (h : s.Single w) : s'.Single w := by
  cases hfault with
  | worker hv hfault => exact h.workerFault hreached honce hv hfault
  | spawnFails => exact h.returns rfl rfl
  | sendFails hpoint => exact h.sendFailed hreached honce hpoint
  | @receiveFails v =>
      have hvw : v ≠ w := by
        rintro rfl
        exact hreceives _ (List.mem_append_right _ (List.mem_singleton.mpr rfl))
      exact h.returns (decide_eq_false hvw) rfl
  | killed => exact h.moves rfl

theorem Step.history_prefix (hstep : Step harness s s') : s.history <+: s'.history := by
  cases hstep with
  | worker | send | receive | exit => exact List.prefix_refl _
  | spawn | refuseSend | refuseReceive | receiveEnd | destroy => exact List.prefix_append _ _
  | sendBroken =>
      split
      · exact List.prefix_append _ _
      · exact List.prefix_refl _
  | sendPiece =>
      rw [System.ipcSend]
      split
      · exact List.prefix_append _ _
      · exact List.prefix_refl _
  | receivePiece =>
      rw [System.ipcReceive]
      split
      · exact List.prefix_append _ _
      · exact List.prefix_refl _

theorem Fault.history_prefix (hfault : Fault harness s s') : s.history <+: s'.history := by
  cases hfault with
  | worker | killed => exact List.prefix_refl _
  | spawnFails | sendFails | receiveFails => exact List.prefix_append _ _

theorem Reached.single (h : Reached harness s) (honce : SendsOnce harness.caller w)
    (hreceives : ∀ response, .receiveFailed w response ∉ s.history) : s.Single w := by
  induction h with
  | init => exact ⟨fun _ _ hmem => absurd hmem (List.not_mem_nil), fun _ hw => by cases hw⟩
  | step h hstep ih =>
      exact hstep.single h honce hreceives
        (ih fun response hmem => hreceives response (hstep.history_prefix.subset hmem))
  | fault h hfault ih =>
      exact hfault.single h honce hreceives
        (ih fun response hmem => hreceives response (hfault.history_prefix.subset hmem))

/-- A response to a single input is genuine, whatever has failed on the way. -/
theorem Reached.view_of_once (h : Reached harness s) (honce : SendsOnce harness.caller w)
    (hreceives : ∀ response, .receiveFailed w response ∉ s.history)
    (hw : s.workers[w]? = some x) (hanswered : receivedFrom w s.history ≠ []) :
    s.View harness w x := by
  rcases (h.single honce hreceives).mute x hw with hclean | hmute
  · exact h.sound.view hw hclean.1 hclean.2
  · exact absurd hmute.received hanswered

end Single

end Ballistic.Fuzzer
