import Ballistic.Machine.Runs
import Ballistic.Proof.FuzzerRuns
import Mathlib.Algebra.BigOperators.Group.List.Basic

/-!
# The fuzzer's processes come to an end

Nothing but a worker's program, a full pipe or an empty one makes a process wait, and the bytes that
are on their way, with the calls that are left, bound what can still happen. So a caller that asks only
for responses that it is owed is never stuck, and the workers do not outlive their caller: the last of
those that are alive sees the end of its input, although the ones before it have inherited the
caller's ends from each other.
-/

namespace Ballistic.Fuzzer

open Machine

variable {ι W : Type}

/-! ### Shapes -/

structure Worker.Formed (x : Worker ι W) : Prop where
  got_lt : ∀ {got}, x.point = .reading got → got.length < FuzzerInput.codec.size
  written_lt : ∀ {response final written}, x.point = .writing response final written →
    written < FuzzerResponse.codec.size

/-- The worker whose call the caller is in. -/
def CallerPoint.worker : CallerPoint → Option Nat
  | sending w _ _ | receiving w _ => some w
  | between | exited => none

/-- There is something left to do in the call. -/
def CallerPoint.Fits : CallerPoint → Prop
  | sending _ _ written => written < FuzzerInput.codec.size
  | receiving _ got => got.length < FuzzerResponse.codec.size
  | between | exited => True

structure System.Formed (s : System ι W) : Prop where
  worker : ∀ {w : Nat} {x : Worker ι W}, s.workers[w]? = some x → x.Formed
  inherits : ∀ {w v : Nat} {x : Worker ι W}, s.workers[w]? = some x → v ∈ x.inherited → v < w
  fits : s.point.Fits
  opened : ∀ {w : Nat}, s.point.worker = some w →
    ∃ x : Worker ι W, s.workers[w]? = some x ∧ x.handle = true

section Shapes

variable {harness : Harness ι W} {s s' : System ι W} {w : Nat} {x x' : Worker ι W}

theorem Worker.Formed.of_exited (hpoint : x.point = .exited) : x.Formed := by
  refine ⟨fun hreading => ?_, fun hwriting => ?_⟩
  · rw [hpoint] at hreading
    cases hreading
  · rw [hpoint] at hwriting
    cases hwriting

theorem Worker.Formed.of_reading_nil (hpoint : x.point = .reading []) : x.Formed := by
  refine ⟨fun hreading => ?_, fun hwriting => ?_⟩
  · rw [hpoint] at hreading
    cases hreading
    exact Nat.zero_lt_succ _
  · rw [hpoint] at hwriting
    cases hwriting

theorem Worker.Formed.congr (h : x.Formed) (hpoint : x'.point = x.point) : x'.Formed :=
  ⟨fun hreading => h.got_lt (hpoint ▸ hreading), fun hwriting => h.written_lt (hpoint ▸ hwriting)⟩

theorem Worker.giveUp_formed (x : Worker ι W) (goesOn : Bool) : (x.giveUp goesOn).Formed := by
  cases goesOn with
  | false => exact .of_exited rfl
  | true => exact .of_reading_nil rfl

theorem WorkerStep.formed {held : Prop} (hstep : WorkerStep harness held x x') : x'.Formed := by
  cases hstep with
  | endOfFile => exact .of_exited rfl
  | brokenPipe => exact x.giveUp_formed _
  | read hpoint hinput hne hle =>
      refine ⟨fun hreading => ?_, fun hwriting => ?_⟩
      · rw [Worker.readExact] at hreading
        simp only at hreading
        split at hreading
        · cases hreading
        · next hpartial =>
            cases hreading
            exact Nat.lt_of_le_of_ne hle hpartial
      · rw [Worker.readExact] at hwriting
        simp only at hwriting
        split at hwriting <;> cases hwriting
  | handle =>
      refine ⟨fun hreading => ?_, fun hwriting => ?_⟩
      · cases hreading
      · cases hwriting
        exact Nat.zero_lt_succ _
  | write hpoint hpos hle =>
      refine ⟨fun hreading => ?_, fun hwriting => ?_⟩
      · rw [Worker.writeExact] at hreading
        simp only at hreading
        split at hreading
        · cases hreading
          exact Nat.zero_lt_succ _
        · cases hreading
      · rw [Worker.writeExact] at hwriting
        simp only at hwriting
        split at hwriting
        · cases hwriting
        · next hpartial =>
            cases hwriting
            exact Nat.lt_of_le_of_ne hle hpartial

theorem WorkerFault.formed (hfault : WorkerFault x x') : x'.Formed := by
  cases hfault with
  | dies => exact .of_exited rfl
  | writeFails => exact x.giveUp_formed _

theorem WorkerStep.inherited {held : Prop} (hstep : WorkerStep harness held x x') :
    x'.inherited = x.inherited := by
  cases hstep <;> rfl

theorem WorkerFault.inherited (hfault : WorkerFault x x') : x'.inherited = x.inherited := by
  cases hfault <;> rfl

theorem WorkerStep.handle_eq {held : Prop} (hstep : WorkerStep harness held x x') :
    x'.handle = x.handle := by
  cases hstep <;> rfl

theorem WorkerFault.handle_eq (hfault : WorkerFault x x') : x'.handle = x.handle := by
  cases hfault <;> rfl

theorem System.Formed.setWorker (h : s.Formed) (hw : s.workers[w]? = some x) (x' : Worker ι W)
    (hformed : x'.Formed) (hinherited : x'.inherited = x.inherited)
    (hhandle : x'.handle = x.handle ∨ s.point.worker = none) : (s.setWorker w x').Formed where
  worker := by
    intro v y hv
    by_cases hvw : w = v
    · subst hvw
      rw [getElem?_setWorker_self hw] at hv
      exact Option.some.inj hv ▸ hformed
    · rw [getElem?_setWorker_ne hvw] at hv
      exact h.worker hv
  inherits := by
    intro v u y hv hu
    by_cases hvw : w = v
    · subst hvw
      rw [getElem?_setWorker_self hw] at hv
      obtain rfl := Option.some.inj hv
      exact h.inherits hw (hinherited ▸ hu)
    · rw [getElem?_setWorker_ne hvw] at hv
      exact h.inherits hv hu
  fits := h.fits
  opened := by
    intro v hv
    obtain ⟨y, hy, hopen⟩ := h.opened hv
    by_cases hvw : w = v
    · subst hvw
      obtain rfl := Option.some.inj (hw.symm.trans hy)
      rcases hhandle with hsame | hnone
      · exact ⟨x', getElem?_setWorker_self hw, hsame.trans hopen⟩
      · rw [System.setWorker, hnone] at hv
        cases hv
    · exact ⟨y, (getElem?_setWorker_ne hvw).trans hy, hopen⟩

/-- The caller gets to another point. -/
theorem System.Formed.moves (h : s.Formed) {point : CallerPoint} (history : List IpcResult)
    (hfits : point.Fits) (hworker : ∀ v, point.worker = some v →
      s.point.worker = some v ∨ ∃ y : Worker ι W, s.workers[v]? = some y ∧ y.handle = true) :
    ({ s with point := point, history := history } : System ι W).Formed where
  worker := h.worker
  inherits := h.inherits
  fits := hfits
  opened := by
    intro v hv
    rcases hworker v hv with hsame | hopen
    · exact h.opened hsame
    · exact hopen

theorem System.Formed.returns (h : s.Formed) (result : IpcResult) : (s.returns result).Formed :=
  h.moves _ trivial fun _ hv => by cases hv

theorem System.Formed.exit (h : s.Formed) : ({ s with point := .exited } : System ι W).Formed :=
  h.moves _ trivial fun _ hv => by cases hv

theorem System.Formed.ipcSpawn (h : s.Formed) (hpoint : s.point = .between) (program : ι)
    (memory : W) : (s.ipcSpawn program memory).Formed := by
  refine System.Formed.returns (s := ⟨s.workers ++ [s.newWorker program memory], s.point, s.history⟩)
    { worker := ?_, inherits := ?_, fits := h.fits, opened := ?_ } _
  · intro v y hv
    by_cases hlt : v < s.workers.length
    · rw [List.getElem?_append_left hlt] at hv
      exact h.worker hv
    · rw [List.getElem?_append_right (Nat.le_of_not_lt hlt)] at hv
      obtain rfl := List.mem_singleton.mp (List.mem_of_getElem? hv)
      exact .of_reading_nil rfl
  · intro v u y hv hu
    by_cases hlt : v < s.workers.length
    · rw [List.getElem?_append_left hlt] at hv
      exact h.inherits hv hu
    · have hle := Nat.le_of_not_lt hlt
      rw [List.getElem?_append_right hle] at hv
      obtain rfl := List.mem_singleton.mp (List.mem_of_getElem? hv)
      have hrange := (List.mem_filter.mp hu).1
      exact (List.mem_range.mp hrange).trans_le hle
  · intro v hv
    rw [hpoint] at hv
    cases hv

theorem System.init_formed : (System.init : System ι W).Formed where
  worker := by
    intro w x hw
    cases hw
  inherits := by
    intro w v x hw
    cases hw
  fits := trivial
  opened := by
    intro w hw
    cases hw

theorem Worker.destroy_formed (h : x.Formed) : x.destroy.Formed := by
  rcases x.destroy_cases with hsame | ⟨-, hdestroyed⟩
  · rw [hsame]
    exact h
  · rw [hdestroyed]
    exact .of_exited rfl

theorem Worker.destroy_inherited (x : Worker ι W) : x.destroy.inherited = x.inherited := by
  rcases x.destroy_cases with hsame | ⟨-, hdestroyed⟩
  · rw [hsame]
  · rw [hdestroyed]

theorem Step.formed (hstep : Step harness s s') (h : s.Formed) : s'.Formed := by
  cases hstep with
  | worker hw hstep => exact h.setWorker hw _ hstep.formed hstep.inherited (.inl hstep.handle_eq)
  | spawn hpoint => exact h.ipcSpawn hpoint _ _
  | refuseSend | refuseReceive | receiveEnd => exact h.returns _
  | send _ _ hw hhandle =>
      refine h.moves _ (Nat.zero_lt_succ _) fun v hv => ?_
      cases hv
      exact .inr ⟨_, hw, hhandle⟩
  | receive _ _ hw hhandle =>
      refine h.moves _ (Nat.zero_lt_succ _) fun v hv => ?_
      cases hv
      exact .inr ⟨_, hw, hhandle⟩
  | sendBroken =>
      split
      · exact h.returns _
      · exact h.exit
  | destroy hpoint _ hw =>
      refine (h.setWorker hw _ (Worker.destroy_formed (h.worker hw)) (Worker.destroy_inherited _)
        (.inr ?_)).returns _
      rw [hpoint]
      rfl
  | exit => exact h.exit
  | @sendPiece w written n x input hpoint hw hpos hle =>
      have hset := h.setWorker hw
        { x with input := x.input ++ ((FuzzerInput.codec.encode input).drop written).take n }
        ((h.worker hw).congr rfl) rfl (.inl rfl)
      rw [System.ipcSend]
      split
      · exact hset.returns _
      · next hpartial =>
          refine hset.moves _ (Nat.lt_of_le_of_ne hle hpartial) fun v hv => .inl ?_
          rw [← hv]
          change s.point.worker = _
          rw [hpoint]
          rfl
  | @receivePiece w x got bytes rest hpoint hw houtput hne hle =>
      have hset := h.setWorker hw { x with output := rest } ((h.worker hw).congr rfl) rfl (.inl rfl)
      rw [System.ipcReceive]
      split
      · exact hset.returns _
      · next hpartial =>
          refine hset.moves _ (Nat.lt_of_le_of_ne hle hpartial) fun v hv => .inl ?_
          rw [← hv]
          change s.point.worker = _
          rw [hpoint]
          rfl

theorem Fault.formed (hfault : Fault harness s s') (h : s.Formed) : s'.Formed := by
  cases hfault with
  | worker hw hfault => exact h.setWorker hw _ hfault.formed hfault.inherited (.inl hfault.handle_eq)
  | spawnFails | sendFails | receiveFails => exact h.returns _
  | killed => exact h.exit

theorem Reached.formed (h : Reached harness s) : s.Formed := by
  induction h with
  | init => exact System.init_formed
  | step _ hstep ih => exact hstep.formed ih
  | fault _ hfault ih => exact hfault.formed ih

end Shapes

/-! ### What is left to do -/

/-- More than the steps of a worker before it reads again: what it is given makes it write 384 bytes
for 576 that it reads. -/
def Worker.work (x : Worker ι W) : Nat :=
  match x.point with
  | .reading got => 1001 * x.input.length + 1000 * got.length + 1
  | .handling _ => 1001 * x.input.length + 387
  | .writing _ _ written => 1001 * x.input.length + (384 - written) + 2
  | .exited => 0

def CallerPoint.work : CallerPoint → Nat
  | between => 577154
  | sending _ _ written => 1002 * (576 - written) + 1
  | receiving _ got => (384 - got.length) + 1
  | exited => 0

/-- With a caller that makes at most `calls` calls. -/
def System.work (calls : Nat) (s : System ι W) : Nat :=
  577156 * (calls - s.history.length) + s.point.work + (s.workers.map Worker.work).sum

section Work

variable {harness : Harness ι W} {s s' : System ι W} {w calls : Nat} {x x' : Worker ι W}

theorem sum_map_set {α : Type} (f : α → Nat) {l : List α} {k : Nat} {a b : α}
    (h : l[k]? = some a) : ((l.set k b).map f).sum + f a = (l.map f).sum + f b := by
  induction l generalizing k with
  | nil => cases h
  | cons c l ih =>
      cases k with
      | zero =>
          obtain rfl := Option.some.inj h
          simp only [List.set_cons_zero, List.map_cons, List.sum_cons]
          omega
      | succ k =>
          have htail := ih h
          simp only [List.set_cons_succ, List.map_cons, List.sum_cons]
          omega

theorem WorkerStep.work_lt {held : Prop} (hstep : WorkerStep harness held x x') (h : x.Formed) :
    x'.work < x.work := by
  cases hstep with
  | @read got bytes rest hpoint hinput hne hle =>
      have hpos : 0 < bytes.length := List.length_pos_of_ne_nil hne
      have hlength : x.input.length = bytes.length + rest.length := by
        rw [hinput, List.length_append]
      have hsum : (got ++ bytes).length = got.length + bytes.length := List.length_append
      rw [Worker.work, Worker.work, hpoint, Worker.readExact]
      by_cases hwhole : (got ++ bytes).length = FuzzerInput.codec.size
      · rw [if_pos hwhole]
        rw [FuzzerInput.size_codec] at hwhole
        simp only
        omega
      · rw [if_neg hwhole]
        simp only
        omega
  | endOfFile hpoint =>
      rw [Worker.work, Worker.work, hpoint]
      exact Nat.zero_lt_succ _
  | handle hpoint =>
      rw [Worker.work, Worker.work, hpoint]
      simp only
      omega
  | @write response final written n hpoint hpos hle =>
      have hwritten := h.written_lt hpoint
      rw [FuzzerResponse.size_codec] at hle hwritten
      rw [Worker.work, Worker.work, hpoint, Worker.writeExact]
      by_cases hwhole : written + n = FuzzerResponse.codec.size
      · rw [if_pos hwhole]
        simp only [List.length_nil]
        omega
      · rw [if_neg hwhole]
        simp only
        omega
  | brokenPipe hpoint =>
      rw [Worker.work, Worker.work, hpoint, Worker.giveUp]
      cases harness.ignoresSigpipe && !_ with
      | false => exact Nat.zero_lt_succ _
      | true =>
          simp only [if_true, List.length_nil]
          omega

theorem System.work_setWorker (calls : Nat) (hw : s.workers[w]? = some x) (x' : Worker ι W) :
    (s.setWorker w x').work calls + x.work = s.work calls + x'.work := by
  have hsum := sum_map_set Worker.work (b := x') hw
  change 577156 * (calls - s.history.length) + s.point.work +
    ((s.workers.set w x').map Worker.work).sum + x.work = _
  rw [System.work]
  omega

theorem System.work_returns (result : IpcResult) (hlt : s.history.length < calls) :
    (s.returns result).work calls + s.point.work + 2 = s.work calls := by
  change 577156 * (calls - (s.history ++ [result]).length) + CallerPoint.between.work +
    (s.workers.map Worker.work).sum + s.point.work + 2 = _
  rw [System.work, List.length_append, List.length_singleton, CallerPoint.work]
  obtain ⟨left, rfl⟩ := Nat.exists_eq_add_of_lt hlt
  have hbefore : s.history.length + left + 1 - s.history.length = left + 1 := by omega
  have hafter : s.history.length + left + 1 - (s.history.length + 1) = left := by omega
  rw [hbefore, hafter, Nat.mul_succ]
  omega

theorem Worker.destroy_work_le (x : Worker ι W) : x.destroy.work ≤ x.work := by
  rcases x.destroy_cases with hsame | ⟨-, hdestroyed⟩
  · rw [hsame]
  · rw [hdestroyed]
    exact Nat.zero_le _

/-- In a call the caller has one left. -/
def System.Within (calls : Nat) (s : System ι W) : Prop :=
  ∀ w, s.point.worker = some w → s.history.length < calls

theorem System.work_moves (calls : Nat) (s : System ι W) (point : CallerPoint) :
    ({ s with point := point } : System ι W).work calls + s.point.work =
      s.work calls + point.work := by
  change 577156 * (calls - s.history.length) + point.work + (s.workers.map Worker.work).sum + _ = _
  rw [System.work]
  omega

theorem Worker.work_input_le (x : Worker ι W) {bytes : List Byte} {n : Nat}
    (hle : bytes.length ≤ n) :
    Worker.work { x with input := x.input ++ bytes } ≤ x.work + 1001 * n := by
  have hmul : 1001 * bytes.length ≤ 1001 * n := Nat.mul_le_mul_left _ hle
  rw [Worker.work, Worker.work]
  cases x.point <;> simp only [List.length_append, Nat.mul_add] <;> omega

theorem System.ipcSend_work_lt {input : FuzzerInput} {written n : Nat}
    (hpoint : s.point = .sending w input written) (hw : s.workers[w]? = some x) (hpos : 0 < n)
    (hbefore : s.history.length < calls) (hle : written + n ≤ FuzzerInput.codec.size) :
    (s.ipcSend w x input written n).work calls < s.work calls := by
  have hbytes : (((FuzzerInput.codec.encode input).drop written).take n).length ≤ n :=
    List.length_take_le _ _
  have hgrows := x.work_input_le hbytes
  have hset := System.work_setWorker calls hw
    { x with input := x.input ++ ((FuzzerInput.codec.encode input).drop written).take n }
  rw [FuzzerInput.size_codec] at hle
  rw [System.ipcSend]
  generalize hsent : s.setWorker w
    { x with input := x.input ++ ((FuzzerInput.codec.encode input).drop written).take n } = sent
  have hsame : sent.point = .sending w input written ∧ sent.history = s.history := by
    rw [← hsent]
    exact ⟨hpoint, rfl⟩
  rw [hsent] at hset
  split
  · have hreturns := System.work_returns (s := sent) (.sent w input) (hsame.2 ▸ hbefore)
    simp only [hsame.1, CallerPoint.work] at hreturns
    omega
  · have hmoves := sent.work_moves calls (.sending w input (written + n))
    simp only [hsame.1, CallerPoint.work] at hmoves
    omega

theorem System.ipcReceive_work_lt {got bytes rest : List Byte}
    (hpoint : s.point = .receiving w got) (hw : s.workers[w]? = some x) (hne : bytes ≠ [])
    (hbefore : s.history.length < calls)
    (hle : (got ++ bytes).length ≤ FuzzerResponse.codec.size) :
    (s.ipcReceive w x got bytes rest).work calls < s.work calls := by
  have hpos : 0 < bytes.length := List.length_pos_of_ne_nil hne
  have hset := System.work_setWorker calls hw { x with output := rest }
  have hwork : Worker.work { x with output := rest } = x.work := rfl
  rw [FuzzerResponse.size_codec, List.length_append] at hle
  rw [System.ipcReceive]
  generalize hread : s.setWorker w { x with output := rest } = read
  have hsame : read.point = .receiving w got ∧ read.history = s.history := by
    rw [← hread]
    exact ⟨hpoint, rfl⟩
  rw [hread] at hset
  split
  · have hreturns := System.work_returns (s := read)
      (.received w (FuzzerResponse.codec.decode (got ++ bytes))) (hsame.2 ▸ hbefore)
    omega
  · have hmoves := read.work_moves calls (.receiving w (got ++ bytes))
    simp only [hsame.1, CallerPoint.work, List.length_append] at hmoves
    omega

theorem Step.work_lt (hstep : Step harness s s') (h : s.Formed) (hwithin : s.Within calls)
    (hbounded : ∀ history, calls ≤ history.length → harness.caller history = none) :
    s'.work calls < s.work calls := by
  have hcalls : ∀ {call}, harness.caller s.history = some call → s.history.length < calls := by
    intro call hcall
    by_contra hle
    rw [hbounded _ (Nat.le_of_not_lt hle)] at hcall
    cases hcall
  have hfits := h.fits
  cases hstep with
  | @worker w x x' hw hstep =>
      have hset := System.work_setWorker calls hw x'
      have hlt := hstep.work_lt (h.worker hw)
      omega
  | @spawn program hpoint hcall =>
      have hreturns := System.work_returns .spawned (hcalls hcall)
      have hnew : (s.ipcSpawn program (harness.programs program).start).work calls =
          (s.returns .spawned).work calls + 1 := by
        change _ + ((s.workers ++ [_]).map Worker.work).sum = _
        rw [List.map_append, List.sum_append]
        rfl
      rw [hpoint] at hreturns
      omega
  | @refuseSend w x input _ hcall =>
      have hreturns := System.work_returns (.refusedSend w input) (hcalls hcall)
      omega
  | @refuseReceive w x _ hcall =>
      have hreturns := System.work_returns (.refusedReceive w) (hcalls hcall)
      omega
  | @send w x input hpoint =>
      have hmoves := s.work_moves calls (.sending w input 0)
      simp only [hpoint, CallerPoint.work] at hmoves
      omega
  | @receive w x hpoint =>
      have hmoves := s.work_moves calls (.receiving w [])
      simp only [hpoint, CallerPoint.work, List.length_nil] at hmoves
      omega
  | exit hpoint =>
      have hmoves := s.work_moves calls .exited
      simp only [hpoint, CallerPoint.work] at hmoves
      omega
  | @sendBroken w written x input hpoint =>
      have hworker : s.point.worker = some w := congrArg CallerPoint.worker hpoint
      have hreturns := System.work_returns (.sendFailed w input) (hwithin _ hworker)
      have hmoves := s.work_moves calls .exited
      simp only [hpoint, CallerPoint.work] at hreturns hmoves
      split <;> omega
  | @receiveEnd w x got hpoint =>
      have hworker : s.point.worker = some w := congrArg CallerPoint.worker hpoint
      have hreturns := System.work_returns (.receiveFailed w (tornResponse got)) (hwithin _ hworker)
      omega
  | @destroy w x hpoint hcall hw =>
      have hreturns := System.work_returns (s := s.setWorker w x.destroy) (.destroyed w)
        (hcalls hcall)
      have hset := System.work_setWorker calls hw x.destroy
      have hle := x.destroy_work_le
      omega
  | sendPiece hpoint hw hpos hle =>
      have hworker : s.point.worker = some _ := congrArg CallerPoint.worker hpoint
      exact System.ipcSend_work_lt hpoint hw hpos (hwithin _ hworker) hle
  | receivePiece hpoint hw houtput hne hle =>
      have hworker : s.point.worker = some _ := congrArg CallerPoint.worker hpoint
      exact System.ipcReceive_work_lt hpoint hw hne (hwithin _ hworker) hle

theorem Step.within (hstep : Step harness s s') (h : s.Within calls)
    (hbounded : ∀ history, calls ≤ history.length → harness.caller history = none) :
    s'.Within calls := by
  have hcalls : ∀ {call}, harness.caller s.history = some call → s.history.length < calls := by
    intro call hcall
    by_contra hle
    rw [hbounded _ (Nat.le_of_not_lt hle)] at hcall
    cases hcall
  cases hstep with
  | worker => exact h
  | send _ hcall | receive _ hcall => exact fun _ _ => hcalls hcall
  | spawn | refuseSend | refuseReceive | receiveEnd | destroy | exit => exact fun _ hw => by cases hw
  | sendBroken =>
      split <;> exact fun _ hw => by cases hw
  | sendPiece hpoint =>
      have hworker : s.point.worker = some _ := congrArg CallerPoint.worker hpoint
      rw [System.ipcSend]
      split
      · exact fun _ hw => by cases hw
      · exact fun _ _ => h _ hworker
  | receivePiece hpoint =>
      have hworker : s.point.worker = some _ := congrArg CallerPoint.worker hpoint
      rw [System.ipcReceive]
      split
      · exact fun _ hw => by cases hw
      · exact fun _ _ => h _ hworker

theorem Fault.within (hfault : Fault harness s s') (h : s.Within calls) : s'.Within calls := by
  cases hfault with
  | worker => exact h
  | spawnFails | sendFails | receiveFails | killed => exact fun _ hw => by cases hw

/-- Without faults, every run of a caller that makes at most `calls` calls ends. -/
theorem Reached.acc (h : Reached harness s)
    (hbounded : ∀ history, calls ≤ history.length → harness.caller history = none) :
    Acc (fun t s => Step harness s t) s := by
  have hwithin : s.Within calls := by
    induction h with
    | init => exact fun _ hw => by cases hw
    | step _ hstep ih => exact hstep.within ih hbounded
    | fault _ hfault ih => exact hfault.within ih
  refine acc_of_decreases (P := fun s => s.Formed ∧ s.Within calls) (System.work calls)
    (fun hs hstep => ?_) ⟨h.formed, hwithin⟩
  exact ⟨⟨hstep.formed hs.1, hstep.within hs.2 hbounded⟩, hstep.work_lt hs.1 hs.2 hbounded⟩

/-- Without the caller only workers have steps. -/
theorem Step.of_exited (hstep : Step harness s s') (hexited : s.point = .exited) :
    ∃ w x x', s.workers[w]? = some x ∧ WorkerStep harness (s.Held w) x x' ∧
      s' = s.setWorker w x' := by
  cases hstep with
  | worker hw hstep => exact ⟨_, _, _, hw, hstep, rfl⟩
  | spawn hpoint | refuseSend hpoint | send hpoint | sendPiece hpoint | sendBroken hpoint
  | refuseReceive hpoint | receive hpoint | receivePiece hpoint | receiveEnd hpoint
  | destroy hpoint | exit hpoint =>
      rw [hexited] at hpoint
      cases hpoint

/-- Without the caller every run of the workers ends, and it stays away. -/
theorem System.Formed.acc_of_exited (h : s.Formed) (hexited : s.point = .exited) :
    Acc (fun t s => Step harness s t) s := by
  refine acc_of_decreases (P := fun s => s.Formed ∧ s.point = .exited) (System.work 0)
    (fun {s t} hs hstep => ?_) ⟨h, hexited⟩
  obtain ⟨w, x, x', hw, hworker, rfl⟩ := hstep.of_exited hs.2
  have hset := System.work_setWorker 0 hw x'
  have hlt := hworker.work_lt (hs.1.worker hw)
  exact ⟨⟨hstep.formed hs.1, hs.2⟩, by omega⟩

end Work

/-! ### Who can go on -/

/-- The program always comes to a response. -/
def WorkerProgram.Responds (program : WorkerProgram W) (memory : W) (input : FuzzerInput) : Prop :=
  ¬program.hangs memory input ∧ ∃ memory' response final,
    program.handles memory input memory' response final

/-- Every program always comes to a response, whatever the input. -/
def Harness.Answers (harness : Harness ι W) : Prop :=
  ∀ program memory input, (harness.programs program).Responds memory input

/-- The workers that have an input can answer it. -/
def System.Served (harness : Harness ι W) (s : System ι W) : Prop :=
  ∀ {w : Nat} {x : Worker ι W} {input : FuzzerInput}, s.workers[w]? = some x →
    x.point = .handling input → ∃ memory response final,
      (harness.programs x.program).handles x.memory input memory response final

theorem Harness.Answers.served {harness : Harness ι W} (h : harness.Answers) (s : System ι W) :
    s.Served harness :=
  fun {_ x input} _ _ => (h x.program x.memory input).2

section Progress

variable {harness : Harness ι W} {s s' : System ι W} {w : Nat} {x : Worker ι W}

theorem Worker.Formed.exists_read (h : x.Formed) (held : Prop) {got : List Byte}
    (hpoint : x.point = .reading got) (hinput : x.input ≠ []) :
    ∃ x', WorkerStep harness held x x' := by
  obtain ⟨b, rest, hbytes⟩ : ∃ b rest, x.input = [b] ++ rest := List.exists_cons_of_ne_nil hinput
  refine ⟨_, .read hpoint hbytes (List.cons_ne_nil _ _) ?_⟩
  rw [List.length_append]
  exact h.got_lt hpoint

/-- A worker waits only for bytes to read and for room to write. -/
theorem Worker.Formed.exists_step (h : x.Formed) (held : Prop)
    (hserved : ∀ {input}, x.point = .handling input → ∃ memory response final,
      (harness.programs x.program).handles x.memory input memory response final)
    (hlive : x.point ≠ .exited)
    (hread : ∀ {got}, x.point = .reading got → x.input ≠ [] ∨ ¬held)
    (hwrite : ∀ {response final written}, x.point = .writing response final written →
      ¬held ∨ x.output.length < harness.capacity) :
    ∃ x', WorkerStep harness held x x' := by
  by_cases hheld : held
  · cases hpoint : x.point with
    | exited => exact absurd hpoint hlive
    | handling input =>
        obtain ⟨memory, response, final, hhandles⟩ := hserved hpoint
        exact ⟨_, .handle hpoint hhandles⟩
    | reading got =>
        exact h.exists_read held hpoint ((hread hpoint).resolve_right (not_not_intro hheld))
    | writing response final written =>
        have hroom := (hwrite hpoint).resolve_left (not_not_intro hheld)
        exact ⟨_, .write (n := 1) hpoint Nat.one_pos (h.written_lt hpoint) hroom hheld⟩
  · cases hpoint : x.point with
    | exited => exact absurd hpoint hlive
    | handling input =>
        obtain ⟨memory, response, final, hhandles⟩ := hserved hpoint
        exact ⟨_, .handle hpoint hhandles⟩
    | writing response final written => exact ⟨_, .brokenPipe hpoint hheld⟩
    | reading got =>
        by_cases hempty : x.input = []
        · exact ⟨_, .endOfFile hpoint hempty hheld⟩
        · exact h.exists_read held hpoint hempty

/-- Without the caller a live worker can go on, or a later one that has inherited its pipes. -/
theorem System.Formed.exists_step_of_exited (h : s.Formed) (hexited : s.point = .exited)
    (hserved : s.Served harness) (hw : s.workers[w]? = some x) (hlive : x.point ≠ .exited) :
    ∃ s', Step harness s s' := by
  induction hn : s.workers.length - w using Nat.strong_induction_on generalizing w x with
  | h n ih =>
      obtain ⟨hlt, -⟩ := List.getElem?_eq_some_iff.mp hw
      by_cases hheld : s.Held w
      · rcases hheld with ⟨hne, -⟩ | ⟨j, y, hj, hinherited, hlive'⟩
        · exact absurd hexited hne
        · have hlater := h.inherits hj hinherited
          exact ih (s.workers.length - j) (by omega) hj hlive' rfl
      · obtain ⟨x', hstep⟩ := (h.worker hw).exists_step (s.Held w) (hserved hw) hlive
          (fun _ => .inr hheld) fun _ => .inl hheld
        exact ⟨_, .worker hw hstep⟩

/-- The caller's ends are open as long as it is in a call. -/
theorem System.Formed.held (h : s.Formed) (hw : s.point.worker = some w) : s.Held w := by
  obtain ⟨x, hx, hopen⟩ := h.opened hw
  refine .inl ⟨fun hexited => ?_, x, hx, hopen⟩
  rw [hexited] at hw
  cases hw

/-- A caller sends to a worker only when it has all responses, and asks only for one that it is owed,
and no message on the way was torn. -/
structure System.Orderly (harness : Harness ι W) (s : System ι W) : Prop where
  exists_worker : s.point = .between → ∀ {call w}, harness.caller s.history = some call →
    call.worker = some w → w < s.workers.length
  whole : ∀ {w}, s.point.worker = some w → Unbroken w s.history ∧
    ∀ x : Worker ι W, s.workers[w]? = some x → x.abandoned = false
  sends : ∀ {w input written}, s.point = .sending w input written →
    (sentTo w s.history).length = (receivedFrom w s.history).length
  asks : ∀ {w got}, s.point = .receiving w got →
    (receivedFrom w s.history).length < (sentTo w s.history).length

theorem System.Orderly.view (h : s.Orderly harness) (hsound : s.Sound harness)
    (hworker : s.point.worker = some w) (hw : s.workers[w]? = some x) : s.View harness w x :=
  hsound.view hw (h.whole hworker).1 ((h.whole hworker).2 x hw)

theorem exists_getElem? {α : Type} {l : List α} {k : Nat} (hk : k < l.length) :
    ∃ a, l[k]? = some a :=
  ⟨_, List.getElem?_eq_getElem hk⟩

/-- Between two calls the caller can go on. -/
theorem System.Orderly.exists_step_between (h : s.Orderly harness) (hpoint : s.point = .between) :
    ∃ s', Step harness s s' := by
  cases hcall : harness.caller s.history with
  | none => exact ⟨_, .exit hpoint hcall⟩
  | some call =>
      have hexists : ∀ {w}, call.worker = some w → w < s.workers.length :=
        h.exists_worker hpoint hcall
      cases call with
      | spawn program => exact ⟨_, .spawn hpoint hcall⟩
      | destroy w =>
          obtain ⟨x, hw⟩ := exists_getElem? (hexists rfl)
          exact ⟨_, .destroy hpoint hcall hw⟩
      | receive w =>
          obtain ⟨x, hw⟩ := exists_getElem? (hexists rfl)
          cases hhandle : x.handle with
          | false => exact ⟨_, .refuseReceive hpoint hcall hw hhandle⟩
          | true => exact ⟨_, .receive hpoint hcall hw hhandle⟩
      | send w input =>
          obtain ⟨x, hw⟩ := exists_getElem? (hexists rfl)
          cases hhandle : x.handle with
          | false => exact ⟨_, .refuseSend hpoint hcall hw (.inl hhandle)⟩
          | true =>
              cases hfew : tooManyInstructions input with
              | true => exact ⟨_, .refuseSend hpoint hcall hw (.inr hfew)⟩
              | false => exact ⟨_, .send hpoint hcall hw hhandle hfew⟩

/-- In the middle of sending there is room, or the worker reads: it has no response to write. -/
theorem System.Orderly.exists_step_sending (h : s.Orderly harness) (hformed : s.Formed)
    (hsound : s.Sound harness) (hserved : s.Served harness) (hcapacity : 0 < harness.capacity)
    {input : FuzzerInput} {written : Nat} (hpoint : s.point = .sending w input written) :
    ∃ s', Step harness s s' := by
  have hworker : s.point.worker = some w := congrArg CallerPoint.worker hpoint
  obtain ⟨x, hw, -⟩ := hformed.opened hworker
  by_cases hlive : x.point = .exited
  · exact ⟨_, .sendBroken hpoint hw hlive⟩
  · by_cases hroom : x.input.length < harness.capacity
    · have hfits := hformed.fits
      rw [hpoint] at hfits
      exact ⟨_, .sendPiece (n := 1) hpoint hw Nat.one_pos hfits hroom hlive⟩
    · obtain ⟨part, got, -, taken, pending, owed, gotIn, partOut, hsent, -, -, hat⟩ :=
        h.view hsound hworker hw
      have hfull : x.input ≠ [] := by
        rw [← List.length_pos_iff]
        omega
      obtain ⟨x', hstep⟩ := (hformed.worker hw).exists_step (s.Held w) (hserved hw) hlive
        (fun _ => .inl hfull) fun {response final written'} hwriting => False.elim <| by
          have hlengths := h.sends hpoint
          cases hat with
          | reading hpoint' | handling hpoint' | exited hpoint' =>
              rw [hwriting] at hpoint'
              cases hpoint'
          | writing _ _ hhandles =>
              have hcount := hhandles.length_eq
              rw [hsent] at hlengths
              simp only [List.length_append, List.length_singleton] at hlengths hcount
              omega
      exact ⟨_, .worker hw hstep⟩

/-- In the middle of receiving there are bytes, or the worker has an input to answer. -/
theorem System.Orderly.exists_step_receiving (h : s.Orderly harness) (hformed : s.Formed)
    (hsound : s.Sound harness) (hserved : s.Served harness) (hcapacity : 0 < harness.capacity)
    {got : List Byte} (hpoint : s.point = .receiving w got) : ∃ s', Step harness s s' := by
  have hworker : s.point.worker = some w := congrArg CallerPoint.worker hpoint
  obtain ⟨x, hw, -⟩ := hformed.opened hworker
  have hfits := hformed.fits
  rw [hpoint] at hfits
  by_cases houtput : x.output = []
  · by_cases hlive : x.point = .exited
    · exact ⟨_, .receiveEnd hpoint hw houtput hlive⟩
    · obtain ⟨part, got', hholds, taken, pending, owed, gotIn, partOut, hsent, hcarries, howed, hat⟩ :=
        h.view hsound hworker hw
      have hne : s.point ≠ .exited := by
        rw [hpoint]
        exact CallerPoint.noConfusion
      obtain ⟨rfl, rfl⟩ := hholds.eq hne
      -- If everything sent was taken and answered, then a response is on its way.
      have hinput : ∀ {gotIn'}, x.point = .reading gotIn' → x.input ≠ [] := by
        intro gotIn' hreading hempty
        have hlengths := h.asks hpoint
        rw [hempty] at hcarries
        rw [houtput] at howed
        cases hat with
        | handling hpoint' | writing hpoint' | exited hpoint' =>
            rw [hreading] at hpoint'
            cases hpoint'
        | reading hpoint' hgot hhandles =>
            have hpending : pending = [] := by
              by_contra hpending
              exact absurd (hcarries.size_le hpending) (Nat.not_le_of_lt hgot)
            have howed' : owed = [] := by
              by_contra howed'
              exact absurd (howed.size_le howed') (Nat.not_le_of_lt hholds.got_lt)
            have hcount := hhandles.length_eq
            rw [hsent, hpending] at hlengths
            rw [howed'] at hcount
            simp only [List.append_nil] at hlengths hcount
            omega
      obtain ⟨x', hstep⟩ := (hformed.worker hw).exists_step (s.Held w) (hserved hw) hlive
        (fun hreading => .inl (hinput hreading)) fun _ => .inr (by rw [houtput]; exact hcapacity)
      exact ⟨_, .worker hw hstep⟩
  · obtain ⟨b, rest, hbytes⟩ : ∃ b rest, x.output = [b] ++ rest :=
      List.exists_cons_of_ne_nil houtput
    refine ⟨_, .receivePiece hpoint hw hbytes (List.cons_ne_nil _ _) ?_⟩
    rw [List.length_append]
    exact hfits

/-- An orderly caller is never stuck. -/
theorem System.Orderly.exists_step (h : s.Orderly harness) (hreached : Reached harness s)
    (hserved : s.Served harness) (hcapacity : 0 < harness.capacity) (hrunning : s.point ≠ .exited) :
    ∃ s', Step harness s s' := by
  cases hpoint : s.point with
  | exited => exact absurd hpoint hrunning
  | between => exact h.exists_step_between hpoint
  | sending w input written =>
      exact h.exists_step_sending hreached.formed hreached.sound hserved hcapacity hpoint
  | receiving w got =>
      exact h.exists_step_receiving hreached.formed hreached.sound hserved hcapacity hpoint

/-- **No orphans.** Once the caller is gone, in whatever way, every run of the workers ends, and it ends
with all of them gone. -/
theorem workers_follow (h : Reached harness s) (hanswers : harness.Answers)
    (hexited : s.point = .exited) :
    Acc (fun t s => Step harness s t) s ∧
      ∀ s', Relation.ReflTransGen (Step harness) s s' → (∀ t, ¬Step harness s' t) →
        ∀ x ∈ s'.workers, x.point = .exited := by
  refine ⟨h.formed.acc_of_exited hexited, fun s' hsteps hstuck x hx => ?_⟩
  have hlater : s'.Formed ∧ s'.point = .exited := by
    clear hstuck hx
    induction hsteps with
    | refl => exact ⟨h.formed, hexited⟩
    | tail _ hstep ih =>
        refine ⟨hstep.formed ih.1, ?_⟩
        obtain ⟨w, x, x', -, -, rfl⟩ := hstep.of_exited ih.2
        exact ih.2
  obtain ⟨w, hw⟩ := List.mem_iff_getElem?.mp hx
  by_contra hlive
  obtain ⟨t, hstep⟩ := hlater.1.exists_step_of_exited hlater.2 (hanswers.served s') hw hlive
  exact hstuck t hstep

end Progress

/-- The program that leaves every state as it is. -/
def echo : WorkerProgram Unit where
  start := ()
  handles := fun _ input _ response _ =>
    response = ⟨input.messageId, WorkerStatus.ok.code, fun _ => 0, input.initialState⟩
  hangs := fun _ _ => False

theorem echo_responds (memory : Unit) (input : FuzzerInput) : echo.Responds memory input :=
  ⟨not_false, (), _, true, rfl⟩

/-- A caller that spawns workers without end. -/
def spawner : Harness Unit Unit := ⟨fun _ => echo, fun _ => some (.spawn ()), 65536, false⟩

/-- The caller is killed behind its first call. -/
theorem workers_follow_killed :
    ∃ s : System Unit Unit, s.workers ≠ [] ∧ Reached spawner s ∧
      Acc (fun t s => Step spawner s t) s ∧
        ∀ s', Relation.ReflTransGen (Step spawner) s s' → (∀ t, ¬Step spawner s' t) →
          ∀ x ∈ s'.workers, x.point = .exited := by
  have hspawned : Reached spawner (System.init.ipcSpawn () ()) := .step .init (.spawn rfl rfl)
  have hkilled := hspawned.fault .killed
  exact ⟨_, List.cons_ne_nil _ _, hkilled, workers_follow hkilled (fun _ => echo_responds) rfl⟩

end Ballistic.Fuzzer
