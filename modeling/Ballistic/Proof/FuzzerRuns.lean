import Ballistic.Proof.Exchanges

/-!
# Runs of the fuzzer's processes

The exchanges with all workers, carried through a run of the whole system: one lemma for what each
process does, and the induction on the run.
-/

namespace Ballistic.Fuzzer

open Machine

variable {ι W : Type}

/-! ### Where the caller stands with a worker -/

/-- The bytes of an input that a call has written to `w`. -/
def CallerPoint.part (w : Nat) : CallerPoint → List Byte
  | sending v input written => if v = w then (FuzzerInput.codec.encode input).take written else []
  | _ => []

/-- The bytes of a response that a call has read from `w`. -/
def CallerPoint.got (w : Nat) : CallerPoint → List Byte
  | receiving v got => if v = w then got else []
  | _ => []

/-- The caller is in the middle of `part` and `got`, or was when it exited. -/
structure CallerPoint.Holds (point : CallerPoint) (w : Nat) (part got : List Byte) : Prop where
  part_lt : part.length < FuzzerInput.codec.size
  got_lt : got.length < FuzzerResponse.codec.size
  eq : point ≠ .exited → part = point.part w ∧ got = point.got w

theorem CallerPoint.Holds.congr {point point' : CallerPoint} {w : Nat} {part got : List Byte}
    (h : point.Holds w part got) (hne : point ≠ .exited) (hpart : point'.part w = point.part w)
    (hgot : point'.got w = point.got w) : point'.Holds w part got :=
  ⟨h.part_lt, h.got_lt, fun _ => ⟨(h.eq hne).1.trans hpart.symm, (h.eq hne).2.trans hgot.symm⟩⟩

theorem CallerPoint.Holds.exited {point : CallerPoint} {w : Nat} {part got : List Byte}
    (h : point.Holds w part got) : CallerPoint.exited.Holds w part got :=
  ⟨h.part_lt, h.got_lt, fun hne => absurd rfl hne⟩

theorem CallerPoint.Holds.between {point : CallerPoint} {w : Nat} (hpart : point.part w = [])
    (hgot : point.got w = []) : point.Holds w [] [] :=
  ⟨Nat.zero_lt_succ _, Nat.zero_lt_succ _, fun _ => ⟨hpart.symm, hgot.symm⟩⟩

/-- What has passed between the caller and the worker `w`, which is `x`. -/
def System.View (harness : Harness ι W) (s : System ι W) (w : Nat) (x : Worker ι W) : Prop :=
  ∃ part got, s.point.Holds w part got ∧
    Exchange (harness.programs x.program) x (sentTo w s.history) part (receivedFrom w s.history) got

structure System.Sound (harness : Harness ι W) (s : System ι W) : Prop where
  /-- Nothing has passed between the caller and a worker to come. -/
  fresh : ∀ {w}, s.workers.length ≤ w → sentTo w s.history = [] ∧ receivedFrom w s.history = []
  view : ∀ {w x}, s.workers[w]? = some x → Unbroken w s.history → x.abandoned = false →
    s.View harness w x

section Runs

variable {harness : Harness ι W} {s s' : System ι W} {w v : Nat} {x x' : Worker ι W}
  {result : IpcResult}

/-- A change at the caller that has nothing to do with the worker. -/
theorem System.View.congr (h : s.View harness w x) (hne : s.point ≠ .exited)
    (hpart : s'.point.part w = s.point.part w) (hgot : s'.point.got w = s.point.got w)
    (hsent : sentTo w s'.history = sentTo w s.history)
    (hreceived : receivedFrom w s'.history = receivedFrom w s.history) : s'.View harness w x := by
  obtain ⟨part, got, hholds, hexchange⟩ := h
  refine ⟨part, got, hholds.congr hne hpart hgot, ?_⟩
  rw [hsent, hreceived]
  exact hexchange

theorem System.View.exit (h : s.View harness w x) :
    ({ s with point := .exited } : System ι W).View harness w x := by
  obtain ⟨part, got, hholds, hexchange⟩ := h
  exact ⟨part, got, hholds.exited, hexchange⟩

/-- A call on another worker, or one that has no part of a message to show, returns. -/
theorem System.View.returns (h : s.View harness w x) (hne : s.point ≠ .exited)
    (hpart : s.point.part w = []) (hgot : s.point.got w = []) (hsent : result.sentInput w = none)
    (hreceived : result.readResponse w = none) : (s.returns result).View harness w x := by
  exact h.congr hne hpart.symm hgot.symm (sentTo_append hsent) (receivedFrom_append hreceived)

/-! ### Workers -/

theorem getElem?_setWorker_self (hw : s.workers[w]? = some x) :
    (s.setWorker w x').workers[w]? = some x' := by
  obtain ⟨hlt, -⟩ := List.getElem?_eq_some_iff.mp hw
  exact List.getElem?_set_self hlt

theorem getElem?_setWorker_ne (hne : w ≠ v) : (s.setWorker w x').workers[v]? = s.workers[v]? :=
  List.getElem?_set_ne hne

/-- One worker changes, and what has passed between it and the caller stays. -/
theorem System.Sound.setWorker (h : s.Sound harness) (hw : s.workers[w]? = some x)
    (hkept : Unbroken w s.history → x'.abandoned = false →
      (s.setWorker w x').View harness w x') : (s.setWorker w x').Sound harness where
  fresh := fun hle => h.fresh (by rw [System.setWorker, List.length_set] at hle; exact hle)
  view := by
    intro v y hv hunbroken habandoned
    by_cases hvw : w = v
    · subst hvw
      rw [getElem?_setWorker_self hw] at hv
      obtain rfl := Option.some.inj hv
      exact hkept hunbroken habandoned
    · rw [getElem?_setWorker_ne hvw] at hv
      exact h.view hv hunbroken habandoned

theorem WorkerStep.abandoned {held : Prop} (h : WorkerStep harness held x x')
    (hx : x'.abandoned = false) : x.abandoned = false := by
  cases h with
  | read | endOfFile | handle | write => exact hx
  | brokenPipe => exact (Bool.or_eq_false_iff.mp hx).1

theorem WorkerFault.abandoned (h : WorkerFault x x') (hx : x'.abandoned = false) :
    x.abandoned = false := by
  cases h with
  | dies => exact hx
  | writeFails => exact (Bool.or_eq_false_iff.mp hx).1

theorem WorkerFault.program (h : WorkerFault x x') : x'.program = x.program := by
  cases h <;> rfl

theorem System.Sound.workerStep (h : s.Sound harness) (hw : s.workers[w]? = some x)
    (hstep : WorkerStep harness (s.Held w) x x') : (s.setWorker w x').Sound harness := by
  refine h.setWorker hw fun hunbroken habandoned => ?_
  obtain ⟨part, got, hholds, hexchange⟩ := h.view hw hunbroken (hstep.abandoned habandoned)
  exact ⟨part, got, hholds, hstep.exchange hholds.part_lt habandoned hexchange⟩

theorem System.Sound.workerFault (h : s.Sound harness) (hw : s.workers[w]? = some x)
    (hfault : WorkerFault x x') : (s.setWorker w x').Sound harness := by
  refine h.setWorker hw fun hunbroken habandoned => ?_
  obtain ⟨part, got, hholds, hexchange⟩ := h.view hw hunbroken (hfault.abandoned habandoned)
  refine ⟨part, got, hholds, ?_⟩
  rw [hfault.program]
  exact hfault.exchange habandoned hexchange

/-! ### The caller -/

theorem System.Sound.exit (h : s.Sound harness) :
    ({ s with point := .exited } : System ι W).Sound harness where
  fresh := h.fresh
  view := fun hw hunbroken habandoned => (h.view hw hunbroken habandoned).exit

/-- A call begins. -/
theorem System.Sound.begins (h : s.Sound harness) (hpoint : s.point = .between)
    {point : CallerPoint} (hpart : ∀ v, point.part v = []) (hgot : ∀ v, point.got v = []) :
    ({ s with point := point } : System ι W).Sound harness where
  fresh := h.fresh
  view := by
    intro v y hv hunbroken habandoned
    refine (h.view hv hunbroken habandoned).congr ?_ ?_ ?_ rfl rfl
    · rw [hpoint]
      exact CallerPoint.noConfusion
    · rw [hpoint]
      exact hpart v
    · rw [hpoint]
      exact hgot v

/-- A call returns without a message having passed: with a failure it may have been in the middle of
one. -/
theorem System.Sound.returns (h : s.Sound harness) (hne : s.point ≠ .exited)
    (hpart : ∀ v, result.breaks v = false → s.point.part v = [])
    (hgot : ∀ v, result.breaks v = false → s.point.got v = [])
    (hsent : ∀ v, result.sentInput v = none) (hreceived : ∀ v, result.readResponse v = none) :
    (s.returns result).Sound harness where
  fresh := by
    intro v hle
    obtain ⟨hnone, hnone'⟩ := h.fresh hle
    exact ⟨(sentTo_append (hsent v)).trans hnone, (receivedFrom_append (hreceived v)).trans hnone'⟩
  view := by
    intro v y hv hunbroken habandoned
    exact (h.view hv hunbroken.before habandoned).returns hne (hpart v hunbroken.last)
      (hgot v hunbroken.last) (hsent v) (hreceived v)

theorem sending_part_ne {input : FuzzerInput} {written : Nat} (hne : w ≠ v) :
    (CallerPoint.sending w input written).part v = [] := if_neg hne

theorem receiving_got_ne {got : List Byte} (hne : w ≠ v) :
    (CallerPoint.receiving w got).got v = [] := if_neg hne

/-- A message has passed, or a part of one: for the other workers nothing has. -/
theorem System.Sound.passes (h : s.Sound harness) (hw : s.workers[w]? = some x)
    (hne : s.point ≠ .exited) (hworkers : s'.workers = s.workers.set w x')
    (habandoned : x'.abandoned = x.abandoned)
    (hunbroken : ∀ v, Unbroken v s'.history → Unbroken v s.history)
    (hpart : ∀ v, w ≠ v → s.point.part v = [] ∧ s'.point.part v = [])
    (hgot : ∀ v, w ≠ v → s.point.got v = [] ∧ s'.point.got v = [])
    (hsent : ∀ v, w ≠ v → sentTo v s'.history = sentTo v s.history)
    (hreceived : ∀ v, w ≠ v → receivedFrom v s'.history = receivedFrom v s.history)
    (hkept : s.View harness w x → s'.View harness w x') : s'.Sound harness where
  fresh := by
    intro v hle
    rw [hworkers, List.length_set] at hle
    obtain ⟨hlt, -⟩ := List.getElem?_eq_some_iff.mp hw
    have hvw : w ≠ v := by omega
    rw [hsent v hvw, hreceived v hvw]
    exact h.fresh hle
  view := by
    intro v y hv hunbroken' habandoned'
    by_cases hvw : w = v
    · subst hvw
      rw [hworkers, List.getElem?_set_self (List.getElem?_eq_some_iff.mp hw).1] at hv
      obtain rfl := Option.some.inj hv
      exact hkept (h.view hw (hunbroken w hunbroken') (habandoned ▸ habandoned'))
    · rw [hworkers, List.getElem?_set_ne hvw] at hv
      exact (h.view hv (hunbroken v hunbroken') habandoned').congr hne
        ((hpart v hvw).2.trans (hpart v hvw).1.symm) ((hgot v hvw).2.trans (hgot v hvw).1.symm)
        (hsent v hvw) (hreceived v hvw)

theorem System.Sound.ipcSend (h : s.Sound harness) {input : FuzzerInput} {written n : Nat}
    (hpoint : s.point = .sending w input written) (hw : s.workers[w]? = some x)
    (hle : written + n ≤ FuzzerInput.codec.size) :
    (s.ipcSend w x input written n).Sound harness := by
  have hne : s.point ≠ .exited := by
    rw [hpoint]
    exact CallerPoint.noConfusion
  rw [System.ipcSend]
  split
  · next hwhole =>
      refine h.passes hw hne rfl rfl (fun v => Unbroken.before) (fun v hvw => ?_) (fun v hvw => ?_)
        (fun v hvw => ?_) (fun v hvw => ?_) fun hview => ?_
      · rw [hpoint]
        exact ⟨sending_part_ne hvw, rfl⟩
      · rw [hpoint]
        exact ⟨rfl, rfl⟩
      · exact sentTo_append (if_neg hvw)
      · exact receivedFrom_append rfl
      · obtain ⟨part, got, hholds, hexchange⟩ := hview
        obtain ⟨rfl, rfl⟩ := hholds.eq hne
        rw [hpoint, CallerPoint.part, if_pos rfl] at hexchange
        have hsend := hexchange.send n
        rw [hwhole, List.take_of_length_le (FuzzerInput.codec.length_encode _).le] at hsend
        refine ⟨[], [], .between rfl rfl, ?_⟩
        change Exchange _ _ (sentTo w (s.history ++ [_])) [] (receivedFrom w (s.history ++ [_])) []
        rw [sentTo_append_sent, receivedFrom_append rfl]
        exact hsend.sendWhole
  · next hpartial =>
      refine h.passes hw hne rfl rfl (fun v hv => hv) (fun v hvw => ?_) (fun v hvw => ?_)
        (fun v hvw => rfl) (fun v hvw => rfl) fun hview => ?_
      · rw [hpoint]
        exact ⟨sending_part_ne hvw, sending_part_ne hvw⟩
      · rw [hpoint]
        exact ⟨rfl, rfl⟩
      · obtain ⟨part, got, hholds, hexchange⟩ := hview
        obtain ⟨rfl, rfl⟩ := hholds.eq hne
        have hlt : written + n < FuzzerInput.codec.size := Nat.lt_of_le_of_ne hle hpartial
        rw [hpoint, CallerPoint.part, if_pos rfl] at hexchange
        refine ⟨(FuzzerInput.codec.encode input).take (written + n), [],
          ⟨length_take_encode _ _ hlt, Nat.zero_lt_succ _, fun _ => ⟨(if_pos rfl).symm, rfl⟩⟩, ?_⟩
        exact hexchange.send n

/-- A call in the middle of a message fails: nothing is said of that worker any more. -/
theorem System.Sound.sendFailed (h : s.Sound harness) {input : FuzzerInput} {written : Nat}
    (hpoint : s.point = .sending w input written) :
    (s.returns (.sendFailed w input)).Sound harness := by
  refine h.returns ?_ (fun v hv => ?_) (fun v _ => ?_) (fun v => rfl) fun v => rfl
  · rw [hpoint]
    exact CallerPoint.noConfusion
  · rw [hpoint]
    exact if_neg (of_decide_eq_false hv)
  · rw [hpoint]
    rfl

theorem System.Sound.receiveFailed (h : s.Sound harness) {got : List Byte}
    (hpoint : s.point = .receiving w got) {response : FuzzerResponse} :
    (s.returns (.receiveFailed w response)).Sound harness := by
  refine h.returns ?_ (fun v _ => ?_) (fun v hv => ?_) (fun v => rfl) fun v => rfl
  · rw [hpoint]
    exact CallerPoint.noConfusion
  · rw [hpoint]
    rfl
  · rw [hpoint]
    exact if_neg (of_decide_eq_false hv)

theorem System.Sound.ipcReceive (h : s.Sound harness) {got bytes rest : List Byte}
    (hpoint : s.point = .receiving w got) (hw : s.workers[w]? = some x)
    (houtput : x.output = bytes ++ rest)
    (hle : (got ++ bytes).length ≤ FuzzerResponse.codec.size) :
    (s.ipcReceive w x got bytes rest).Sound harness := by
  have hne : s.point ≠ .exited := by
    rw [hpoint]
    exact CallerPoint.noConfusion
  rw [System.ipcReceive]
  split
  · next hwhole =>
      refine h.passes hw hne rfl rfl (fun v => Unbroken.before) (fun v hvw => ?_) (fun v hvw => ?_)
        (fun v hvw => ?_) (fun v hvw => ?_) fun hview => ?_
      · rw [hpoint]
        exact ⟨rfl, rfl⟩
      · rw [hpoint]
        exact ⟨receiving_got_ne hvw, rfl⟩
      · exact sentTo_append rfl
      · exact receivedFrom_append (if_neg hvw)
      · obtain ⟨part, got', hholds, hexchange⟩ := hview
        obtain ⟨rfl, rfl⟩ := hholds.eq hne
        rw [hpoint, CallerPoint.got, if_pos rfl] at hexchange
        refine ⟨[], [], .between rfl rfl, ?_⟩
        change Exchange _ _ (sentTo w (s.history ++ [_])) [] (receivedFrom w (s.history ++ [_])) []
        rw [sentTo_append rfl, receivedFrom_append_received]
        exact (hexchange.receive houtput).receiveWhole hwhole
  · next hpartial =>
      refine h.passes hw hne rfl rfl (fun v hv => hv) (fun v hvw => ?_) (fun v hvw => ?_)
        (fun v hvw => rfl) (fun v hvw => rfl) fun hview => ?_
      · rw [hpoint]
        exact ⟨rfl, rfl⟩
      · rw [hpoint]
        exact ⟨receiving_got_ne hvw, receiving_got_ne hvw⟩
      · obtain ⟨part, got', hholds, hexchange⟩ := hview
        obtain ⟨rfl, rfl⟩ := hholds.eq hne
        rw [hpoint, CallerPoint.got, if_pos rfl] at hexchange
        refine ⟨[], got ++ bytes, ⟨Nat.zero_lt_succ _, Nat.lt_of_le_of_ne hle hpartial,
          fun _ => ⟨rfl, (if_pos rfl).symm⟩⟩, ?_⟩
        exact hexchange.receive houtput

theorem System.Sound.ipcSpawn (h : s.Sound harness) (hpoint : s.point = .between) (program : ι) :
    (s.ipcSpawn program (harness.programs program).start).Sound harness where
  fresh := by
    intro v hle
    rw [System.ipcSpawn, System.returns, List.length_append, List.length_singleton] at hle
    obtain ⟨hsent, hreceived⟩ := h.fresh (w := v) (by omega)
    exact ⟨(sentTo_append rfl).trans hsent, (receivedFrom_append rfl).trans hreceived⟩
  view := by
    intro v y hv hunbroken habandoned
    change (s.workers ++ [_])[v]? = some y at hv
    by_cases hlt : v < s.workers.length
    · rw [List.getElem?_append_left hlt] at hv
      refine (h.view hv hunbroken.before habandoned).congr ?_ ?_ ?_
        (sentTo_append rfl) (receivedFrom_append rfl)
      · rw [hpoint]
        exact CallerPoint.noConfusion
      · rw [hpoint]
        rfl
      · rw [hpoint]
        rfl
    · have hle : s.workers.length ≤ v := Nat.le_of_not_lt hlt
      obtain ⟨hsent, hreceived⟩ := h.fresh hle
      obtain rfl : s.newWorker program (harness.programs program).start = y := by
        rw [List.getElem?_append_right hle] at hv
        exact List.mem_singleton.mp (List.mem_of_getElem? hv) |>.symm
      refine ⟨[], [], .between rfl rfl, [], [], [], [], [], ?_, .empty, .empty,
        .reading rfl (Nat.zero_lt_succ _) ?_⟩
      · exact (sentTo_append rfl).trans hsent
      · change (harness.programs program).Handles [] (receivedFrom v (s.history ++ [.spawned]) ++ []) _
        rw [receivedFrom_append rfl, hreceived]
        exact .start

theorem Worker.destroy_cases (x : Worker ι W) :
    x.destroy = x ∨ x.handle = true ∧ x.destroy = { x with handle := false, point := .exited } := by
  by_cases hhandle : x.handle = true
  · exact .inr ⟨hhandle, if_pos hhandle⟩
  · exact .inl (if_neg hhandle)

theorem System.Sound.destroy (h : s.Sound harness) (hpoint : s.point = .between)
    (hw : s.workers[w]? = some x) :
    ((s.setWorker w x.destroy).returns (.destroyed w)).Sound harness := by
  have hset : (s.setWorker w x.destroy).Sound harness := by
    rcases x.destroy_cases with hsame | ⟨-, hdestroyed⟩
    · have hworkers : s.workers.set w x = s.workers := by
        refine List.ext_getElem? fun v => ?_
        by_cases hvw : w = v
        · subst hvw
          rw [List.getElem?_set_self (List.getElem?_eq_some_iff.mp hw).1, hw]
        · rw [List.getElem?_set_ne hvw]
      rw [hsame, System.setWorker, hworkers]
      exact h
    · refine h.setWorker hw fun hunbroken habandoned => ?_
      rw [hdestroyed] at habandoned ⊢
      obtain ⟨part, got, hholds, hexchange⟩ := h.view hw hunbroken habandoned
      exact ⟨part, got, hholds, hexchange.exit rfl rfl rfl⟩
  have hbetween : (s.setWorker w x.destroy).point = .between := hpoint
  refine hset.returns ?_ (fun v _ => ?_) (fun v _ => ?_) (fun v => rfl) fun v => rfl
  · rw [hbetween]
    exact CallerPoint.noConfusion
  · rw [hbetween]
    rfl
  · rw [hbetween]
    rfl

theorem Step.sound (hstep : Step harness s s') (h : s.Sound harness) : s'.Sound harness := by
  cases hstep with
  | worker hw hstep => exact h.workerStep hw hstep
  | spawn hpoint => exact h.ipcSpawn hpoint _
  | refuseSend hpoint | refuseReceive hpoint =>
      refine h.returns ?_ (fun v _ => ?_) (fun v _ => ?_) (fun v => rfl) fun v => rfl
      · rw [hpoint]
        exact CallerPoint.noConfusion
      · rw [hpoint]
        rfl
      · rw [hpoint]
        rfl
  | send hpoint => exact h.begins hpoint (fun v => ite_self _) fun v => rfl
  | receive hpoint => exact h.begins hpoint (fun v => rfl) fun v => ite_self _
  | sendPiece hpoint hw _ hle => exact h.ipcSend hpoint hw hle
  | receivePiece hpoint hw houtput _ hle => exact h.ipcReceive hpoint hw houtput hle
  | sendBroken hpoint =>
      split
      · exact h.sendFailed hpoint
      · exact h.exit
  | receiveEnd hpoint => exact h.receiveFailed hpoint
  | destroy hpoint _ hw => exact h.destroy hpoint hw
  | exit => exact h.exit

theorem Fault.sound (hfault : Fault harness s s') (h : s.Sound harness) : s'.Sound harness := by
  cases hfault with
  | worker hw hfault => exact h.workerFault hw hfault
  | spawnFails hpoint =>
      refine h.returns ?_ (fun v _ => ?_) (fun v _ => ?_) (fun v => rfl) fun v => rfl
      · rw [hpoint]
        exact CallerPoint.noConfusion
      · rw [hpoint]
        rfl
      · rw [hpoint]
        rfl
  | sendFails hpoint => exact h.sendFailed hpoint
  | receiveFails hpoint => exact h.receiveFailed hpoint
  | killed => exact h.exit

theorem Reached.sound (h : Reached harness s) : s.Sound harness := by
  induction h with
  | init => exact ⟨fun _ => ⟨rfl, rfl⟩, fun hw => by cases hw⟩
  | step _ hstep ih => exact hstep.sound ih
  | fault _ hfault ih => exact hfault.sound ih

end Runs

end Ballistic.Fuzzer
