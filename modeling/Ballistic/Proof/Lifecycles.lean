import Ballistic.EngineLifecycle
import Ballistic.Machine.Runs
import Ballistic.Proof.Initialisation
import Mathlib.Algebra.BigOperators.Group.Finset.Piecewise
import Mathlib.Data.Fintype.Basic
import Mathlib.Tactic.Abel

/-!
# What engines hold

Over any initialisations and destructions of any number of engines the allocator's blocks are those of
the engines that are alive, and what is lost in two cases: an executable buffer was refused, or an
engine was initialised over one that was alive (`lifecycle_conserves`). The fault handler belongs to
the process, and the first destruction takes it away from all engines (`lifecycle_handlers`).
-/

namespace Ballistic

open Machine

/-! ### Resources -/

/-- What the allocator hands out. -/
inductive Resource where
  | block (pointer : Address) (size : Nat)
  | executable (buffer : ExecutableBuffer) (size : Nat)
  deriving DecidableEq, Repr

/-- What a call does to the blocks of the allocator. `NULL` is not a block. -/
def AllocatorCall.events : AllocatorCall → List (ResourceEvent Resource)
  | allocate size pointer => if pointer = 0 then [] else [.acquire (.block pointer size)]
  | allocateExecutable size buffer =>
      if buffer.rwPointer = 0 ∧ buffer.rxPointer = 0 then []
      else [.acquire (.executable buffer size)]
  | free pointer size => if pointer = 0 then [] else [.release (.block pointer size)]
  | freeExecutable buffer size => [.release (.executable buffer size)]

/-- The blocks after the calls; none if something was released that was not held. -/
def ledger (calls : List AllocatorCall) : Option (Multiset Resource) :=
  Ledger.balance 0 (calls.flatMap AllocatorCall.events)

/-- A block of the heap, unless the allocator refused it. -/
def heapBlock (pointer : Address) (size : Nat) : Multiset Resource :=
  if pointer = 0 then 0 else {.block pointer size}

/-- What an engine has to release. -/
def EngineRecord.blocks (r : EngineRecord) : Multiset Resource :=
  heapBlock r.engineState internalEngineStateSize + {.executable r.tier1Buffer tier1BufferSizeBytes} +
    heapBlock r.entries jitDebugEntriesSize + heapBlock r.metadataArena jitDebugArenaSize

/-- The allocator keeps to its documentation: a request for executable memory that fails gives two
`NULL` pointers, and no other one gives a `NULL` pointer. -/
def Host.Documented (host : Host) : Prop :=
  ∀ calls alignment size, (host.allocateExecutable calls alignment size).rwPointer = 0 ↔
    (host.allocateExecutable calls alignment size).rxPointer = 0

/-- The calls that were added take what is held from `held` to `held'`. -/
def Moves (calls calls' : List AllocatorCall) (held held' : Multiset Resource) : Prop :=
  ∃ new, calls' = calls ++ new ∧
    Ledger.balance held (new.flatMap AllocatorCall.events) = some held'

section Moves

variable {calls calls' calls'' : List AllocatorCall} {held held' held'' : Multiset Resource}

theorem Moves.refl (calls : List AllocatorCall) (held : Multiset Resource) :
    Moves calls calls held held := ⟨[], (List.append_nil _).symm, rfl⟩

theorem Moves.trans (h : Moves calls calls' held held') (h' : Moves calls' calls'' held' held'') :
    Moves calls calls'' held held'' := by
  obtain ⟨new, rfl, hbalance⟩ := h
  obtain ⟨new', rfl, hbalance'⟩ := h'
  refine ⟨new ++ new', List.append_assoc _ _ _, ?_⟩
  rw [List.flatMap_append]
  exact Ledger.balance_trans hbalance hbalance'

theorem Moves.frame (h : Moves calls calls' held held') (others : Multiset Resource) :
    Moves calls calls' (held + others) (held' + others) := by
  obtain ⟨new, hcalls, hbalance⟩ := h
  exact ⟨new, hcalls, Ledger.balance_frame hbalance others⟩

theorem Moves.ledger (h : Moves calls calls' held held') (hheld : ledger calls = some held) :
    ledger calls' = some held' := by
  obtain ⟨new, rfl, hbalance⟩ := h
  unfold Ballistic.ledger at hheld ⊢
  rw [List.flatMap_append]
  exact Ledger.balance_trans hheld hbalance

theorem Moves.allocate (calls : List AllocatorCall) (held : Multiset Resource) (size : Nat)
    (pointer : Address) :
    Moves calls (calls ++ [.allocate size pointer]) held (heapBlock pointer size + held) := by
  refine ⟨[.allocate size pointer], rfl, ?_⟩
  rw [List.flatMap_singleton, AllocatorCall.events, heapBlock]
  split
  · rw [Multiset.zero_add, Ledger.balance_nil]
  · exact Ledger.balance_acquire held _

theorem Moves.free (calls : List AllocatorCall) (held : Multiset Resource) (size : Nat)
    (pointer : Address) :
    Moves calls (calls ++ [.free pointer size]) (heapBlock pointer size + held) held := by
  refine ⟨[.free pointer size], rfl, ?_⟩
  rw [List.flatMap_singleton, AllocatorCall.events, heapBlock]
  split
  · rw [Multiset.zero_add, Ledger.balance_nil]
  · exact Ledger.balance_release held _

theorem Moves.freePresent (calls : List AllocatorCall) (held : Multiset Resource) (size : Nat)
    (pointer : Address) :
    Moves calls (calls ++ if pointer ≠ 0 then [.free pointer size] else [])
      (heapBlock pointer size + held) held := by
  by_cases hpointer : pointer = 0
  · rw [if_neg (not_not.mpr hpointer), List.append_nil, heapBlock, if_pos hpointer, Multiset.zero_add]
    exact .refl calls held
  · rw [if_pos hpointer]
    exact .free calls held size pointer

theorem Moves.allocateExecutable (calls : List AllocatorCall) (held : Multiset Resource) (size : Nat)
    {buffer : ExecutableBuffer} (hbuffer : buffer.rwPointer ≠ 0) :
    Moves calls (calls ++ [.allocateExecutable size buffer]) held
      ({.executable buffer size} + held) := by
  refine ⟨[.allocateExecutable size buffer], rfl, ?_⟩
  rw [List.flatMap_singleton, AllocatorCall.events, if_neg fun h => hbuffer h.1]
  exact Ledger.balance_acquire held _

theorem Moves.freeExecutable (calls : List AllocatorCall) (held : Multiset Resource) (size : Nat)
    (buffer : ExecutableBuffer) :
    Moves calls (calls ++ [.freeExecutable buffer size]) ({.executable buffer size} + held) held := by
  refine ⟨[.freeExecutable buffer size], rfl, ?_⟩
  rw [List.flatMap_singleton]
  exact Ledger.balance_release held _

end Moves

/-! ### One call -/

theorem invalidArgument_ne_success : BalError.invalidArgument ≠ .success := by decide

theorem allocationFailed_ne_success : BalError.allocationFailed ≠ .success := by decide

section Calls

variable {host : Host}

/-- The debug tables, if there is memory for both. -/
theorem balJitDebugInit_moves (host : Host) (s : InitState) (held : Multiset Resource) :
    Moves s.calls (balJitDebugInit host s).2.calls held
      (heapBlock (host.debugTables s.calls).1 jitDebugEntriesSize +
        (heapBlock (host.debugTables s.calls).2 jitDebugArenaSize + held)) := by
  have hnull (size : Nat) : heapBlock 0 size = 0 := if_pos rfl
  simp only [balJitDebugInit, Host.debugTables, InitState.call]
  generalize host.allocate s.calls memoryAlignment jitDebugEntriesSize = entries
  have hentries := Moves.allocate s.calls held jitDebugEntriesSize entries
  by_cases hnone : entries = 0
  · simp only [hnone, true_or, if_true, hnull, Multiset.zero_add] at hentries ⊢
    exact hentries
  · have harena := Moves.allocate (s.calls ++ [.allocate jitDebugEntriesSize entries])
      (heapBlock entries jitDebugEntriesSize + held) jitDebugArenaSize
      (host.allocate (s.calls ++ [.allocate jitDebugEntriesSize entries]) memoryAlignment
        jitDebugArenaSize)
    by_cases hnone' : host.allocate (s.calls ++ [.allocate jitDebugEntriesSize entries])
        memoryAlignment jitDebugArenaSize = 0
    · simp only [hnone, hnone', or_true, if_true, if_false, hnull, Multiset.zero_add] at harena ⊢
      exact (hentries.trans harena).trans (.free _ _ _ _)
    · simp only [hnone, hnone', or_self, if_false]
      rw [add_left_comm]
      exact hentries.trans harena

theorem finishEngineInit_calls {engineState : Address} {buffer : ExecutableBuffer} {s : InitState}
    (h : balTier1CompilerInit buffer tier1BufferSizeBytes = .success) :
    (finishEngineInit host engineState buffer s).2.calls = (balJitDebugInit host s).2.calls := by
  simp only [finishEngineInit, h, ne_eq, not_true_eq_false, if_false]
  split
  · exact balJitDebugRegisterSignalHandler_calls host _ _ _ _
  · rfl

/-- What an initialisation takes from the allocator. -/
def Process.gains {V : Type} (host : Host) (p : Process V) (arguments : InitArguments) :
    Multiset Resource :=
  if (p.initResult host arguments).1 = .success then (host.engineRecord p.calls).blocks
  else if arguments.valid then
    heapBlock (host.engineRecord p.calls).engineState internalEngineStateSize
  else 0

/-- **One initialisation.** -/
theorem init_moves {V : Type} (hdocumented : host.Documented) (p : Process V)
    (arguments : InitArguments) :
    Moves p.calls (p.initResult host arguments).2.calls 0 (p.gains host arguments) ∧
      ((p.initResult host arguments).1 = .success →
        (host.engineRecord p.calls).tier1Buffer.rwPointer ≠ 0) := by
  have hvalid : arguments.valid = (arguments.engine && arguments.checked) := rfl
  simp only [Process.gains, Process.initResult, balEngineInit, hvalid, InitState.call,
    Host.engineRecord]
  generalize host.allocate p.calls memoryAlignment internalEngineStateSize = record
  have hcontract := hdocumented (p.calls ++ [.allocate internalEngineStateSize record]) 4096
    tier1BufferSizeBytes
  obtain ⟨buffer, hbuffer⟩ : ∃ buffer, buffer = host.allocateExecutable
    (p.calls ++ [.allocate internalEngineStateSize record]) 4096 tier1BufferSizeBytes := ⟨_, rfl⟩
  simp only [← hbuffer] at hcontract ⊢
  have hrecord := Moves.allocate p.calls 0 internalEngineStateSize record
  rw [Multiset.add_zero] at hrecord
  cases arguments.engine with
  | false => exact ⟨.refl _ _, fun h => absurd h invalidArgument_ne_success⟩
  | true =>
      cases arguments.checked with
      | false => exact ⟨.refl _ _, fun h => absurd h invalidArgument_ne_success⟩
      | true =>
          simp only [Bool.not_true, Bool.false_eq_true, if_false, Bool.and_self, if_true]
          by_cases hnone : record = 0
          · simp only [hnone, if_true] at hrecord ⊢
            exact ⟨hrecord, fun h => absurd h allocationFailed_ne_success⟩
          · simp only [hnone, if_false]
            by_cases hrw : buffer.rwPointer = 0
            · simp only [hrw, if_true]
              refine ⟨hrecord.trans ⟨[.allocateExecutable tier1BufferSizeBytes buffer], rfl, ?_⟩,
                fun h => absurd h allocationFailed_ne_success⟩
              rw [List.flatMap_singleton, AllocatorCall.events, if_pos ⟨hrw, hcontract.mp hrw⟩]
              rfl
            · have hsuccess := balTier1CompilerInit_success.mpr
                (not_or.mpr ⟨hrw, hcontract.not.mp hrw⟩)
              simp only [hrw, if_false]
              rw [if_pos (finishEngineInit_success record hsuccess), finishEngineInit_calls hsuccess]
              have htaken := Moves.allocateExecutable
                (p.calls ++ [.allocate internalEngineStateSize record])
                (heapBlock record internalEngineStateSize) tier1BufferSizeBytes hrw
              have htables := balJitDebugInit_moves host
                { InitState.start 0 0 .success with
                  calls := p.calls ++ [.allocate internalEngineStateSize record] ++
                    [.allocateExecutable tier1BufferSizeBytes buffer] }
                ({.executable buffer tier1BufferSizeBytes} + heapBlock record internalEngineStateSize)
              refine ⟨?_, fun _ => hrw⟩
              convert (hrecord.trans htaken).trans htables using 1
              simp only [EngineRecord.blocks]
              abel

/-- **One destruction** releases what the engine holds. -/
theorem EngineRecord.destroy_moves (r : EngineRecord) (calls : List AllocatorCall)
    (hbuffer : r.tier1Buffer.rwPointer ≠ 0) : Moves calls (calls ++ r.destroyCalls) r.blocks 0 := by
  have hexecutable := Moves.freeExecutable calls (heapBlock r.entries jitDebugEntriesSize +
    (heapBlock r.metadataArena jitDebugArenaSize + (heapBlock r.engineState internalEngineStateSize + 0)))
    tier1BufferSizeBytes r.tier1Buffer
  have hall := ((hexecutable.trans (.freePresent _ _ _ _)).trans (.freePresent _ _ _ _)).trans
    (.free _ _ _ _)
  rw [destroyCalls, jitDebugDestroy, if_pos hbuffer, ← List.append_assoc, ← List.append_assoc,
    ← List.append_assoc]
  convert hall using 1
  simp only [blocks]
  abel

end Calls

/-! ### Any calls -/

/-- A sum of which one term is replaced. -/
theorem sum_update_add {V M : Type} [Fintype V] [DecidableEq V] [AddCommMonoid M] (f : V → M) (v : V)
    (m : M) : ∑ w, Function.update f v m w + f v = ∑ w, f w + m := by
  rw [Finset.sum_update_of_mem (Finset.mem_univ v), Finset.sdiff_singleton_eq_erase,
    ← Finset.add_sum_erase Finset.univ f (Finset.mem_univ v)]
  abel

section Runs

variable {V : Type} [Fintype V] [DecidableEq V] {host : Host}

namespace Process

/-- What the engine of a variable holds. -/
def holds (p : Process V) (v : V) : Multiset Resource := (p.engines v).elim 0 EngineRecord.blocks

/-- What the engines hold. -/
def owned (p : Process V) : Multiset Resource := ∑ v, p.holds v

/-- What nobody releases after a call: an initialisation overwrites the engine that it succeeds over,
and keeps what it has if it fails. -/
def loses (host : Host) (p : Process V) : LifecycleCall V → Multiset Resource
  | .init v arguments =>
      if (p.initResult host arguments).1 = .success then p.holds v else p.gains host arguments
  | .destroy _ => 0

def losses (host : Host) : Process V → List (LifecycleCall V) → Multiset Resource
  | _, [] => 0
  | p, call :: calls => p.loses host call + losses host (p.perform host call) calls

/-- The engines have an executable buffer. -/
def Buffered (p : Process V) : Prop :=
  ∀ v r, p.engines v = some r → r.tier1Buffer.rwPointer ≠ 0

theorem owned_update (p : Process V) (v : V) (record : Option EngineRecord) {p' : Process V}
    (h : p'.engines = Function.update p.engines v record) :
    p'.owned + p.holds v = p.owned + record.elim 0 EngineRecord.blocks := by
  have hholds : p'.holds = Function.update p.holds v (record.elim 0 EngineRecord.blocks) := by
    funext w
    unfold holds
    rw [h]
    by_cases hw : w = v
    · rw [hw, Function.update_self, Function.update_self]
    · rw [Function.update_of_ne hw, Function.update_of_ne hw]
  rw [owned, hholds]
  exact sum_update_add p.holds v _

omit [Fintype V] in
theorem Buffered.update {p p' : Process V} (h : p.Buffered) {v : V} {record : Option EngineRecord}
    (hengines : p'.engines = Function.update p.engines v record)
    (hrecord : ∀ r, record = some r → r.tier1Buffer.rwPointer ≠ 0) : p'.Buffered := by
  intro w r hr
  rw [hengines] at hr
  by_cases hw : w = v
  · rw [hw, Function.update_self] at hr
    exact hrecord r hr
  · rw [Function.update_of_ne hw] at hr
    exact h w r hr

theorem init_conserves (hdocumented : host.Documented) {p : Process V} (h : p.Buffered) (v : V)
    (arguments : InitArguments) :
    (p.init host v arguments).Buffered ∧
      Moves p.calls (p.init host v arguments).calls p.owned
        ((p.init host v arguments).owned + p.loses host (.init v arguments)) := by
  obtain ⟨hmoves, hbuffer⟩ := init_moves hdocumented p arguments
  have hframed := hmoves.frame p.owned
  rw [Multiset.zero_add] at hframed
  by_cases hsuccess : (p.initResult host arguments).1 = .success
  · have hengines : (p.init host v arguments).engines =
        Function.update p.engines v (some (host.engineRecord p.calls)) := if_pos hsuccess
    refine ⟨h.update hengines ?_, ?_⟩
    · rintro r ⟨⟩
      exact hbuffer hsuccess
    · rw [loses, if_pos hsuccess, owned_update p v _ hengines, Option.elim_some, add_comm]
      rwa [gains, if_pos hsuccess] at hframed
  · have hengines : (p.init host v arguments).engines = p.engines := if_neg hsuccess
    refine ⟨fun w r hr => h w r (hengines ▸ hr), ?_⟩
    have howned : (p.init host v arguments).owned = p.owned := by
      unfold owned holds
      rw [hengines]
    rw [loses, if_neg hsuccess, howned, add_comm]
    exact hframed

theorem destroy_conserves {p : Process V} (h : p.Buffered) (v : V) :
    (p.destroy host v).Buffered ∧
      Moves p.calls (p.destroy host v).calls p.owned (p.destroy host v).owned := by
  cases hv : p.engines v with
  | none =>
      have hsame : p.destroy host v = p := by
        unfold destroy
        rw [hv]
      rw [hsame]
      exact ⟨h, .refl _ _⟩
  | some r =>
      have hdestroyed : p.destroy host v =
          { calls := p.calls ++ r.destroyCalls
            handled := fun signal => p.handled signal && !host.sigaction signal
            engines := Function.update p.engines v none } := by
        unfold destroy
        rw [hv]
      have hengines : (p.destroy host v).engines = Function.update p.engines v none := by
        rw [hdestroyed]
      refine ⟨h.update hengines nofun, ?_⟩
      have howned := owned_update p v none hengines
      rw [holds, hv, Option.elim_some, Option.elim_none, add_zero] at howned
      have hframed := (r.destroy_moves p.calls (h v r hv)).frame (p.destroy host v).owned
      rw [Multiset.zero_add, add_comm, howned] at hframed
      rw [hdestroyed] at hframed ⊢
      exact hframed

theorem perform_conserves (hdocumented : host.Documented) {p : Process V} (h : p.Buffered)
    (call : LifecycleCall V) :
    (p.perform host call).Buffered ∧
      Moves p.calls (p.perform host call).calls p.owned
        ((p.perform host call).owned + p.loses host call) := by
  cases call with
  | init v arguments => exact init_conserves hdocumented h v arguments
  | destroy v =>
      rw [loses, add_zero]
      exact destroy_conserves h v

theorem performAll_conserves (hdocumented : host.Documented) {p : Process V} (h : p.Buffered)
    (calls : List (LifecycleCall V)) :
    Moves p.calls (p.performAll host calls).calls p.owned
      ((p.performAll host calls).owned + p.losses host calls) := by
  induction calls generalizing p with
  | nil =>
      rw [losses, add_zero]
      exact .refl _ _
  | cons call calls ih =>
      obtain ⟨hbuffered, hmoves⟩ := perform_conserves hdocumented h call
      have hlosses : p.losses host (call :: calls) =
          p.loses host call + (p.perform host call).losses host calls := rfl
      have hrest := (ih hbuffered).frame (p.loses host call)
      rw [add_assoc, add_comm ((p.perform host call).losses host calls), ← hlosses] at hrest
      exact hmoves.trans hrest

end Process

/-- **Nothing else is lost.** Over any initialisations and destructions of engines the allocator is
never asked to release what it has not handed out, and what it has handed out is held by the engines
or was lost by an initialisation. -/
theorem lifecycle_conserves (hdocumented : host.Documented) (calls : List (LifecycleCall V)) :
    ledger ((Process.start : Process V).performAll host calls).calls =
      some (((Process.start : Process V).performAll host calls).owned +
        Process.losses host Process.start calls) := by
  have hbuffered : (Process.start : Process V).Buffered := nofun
  have howned : (Process.start : Process V).owned = 0 := Finset.sum_const_zero
  have hmoves := Process.performAll_conserves hdocumented hbuffered calls
  rw [howned] at hmoves
  exact hmoves.ledger rfl

end Runs

/-! ### The fault handler -/

section Handlers

variable {V : Type} {host : Host} {p : Process V}

/-- No block reaches around the end of the address space. -/
def Host.Bounded (host : Host) : Prop :=
  ∀ calls alignment size, host.allocate calls alignment size ≠ 0 →
    (host.allocate calls alignment size).toNat + size < 2 ^ 64

theorem balJitDebugInit_registers (host : Host) (s : InitState) :
    (balJitDebugInit host s).2.registrations = s.registrations ∧
      ((balJitDebugInit host s).1 = .success ↔ (host.debugTables s.calls).1 ≠ 0) := by
  simp only [balJitDebugInit, Host.debugTables, InitState.call]
  by_cases hnone : host.allocate s.calls memoryAlignment jitDebugEntriesSize = 0
  · simp only [hnone, true_or, if_true]
    exact ⟨trivial, iff_of_false allocationFailed_ne_success fun h => h rfl⟩
  · by_cases hnone' : host.allocate (s.calls ++ [.allocate jitDebugEntriesSize
        (host.allocate s.calls memoryAlignment jitDebugEntriesSize)]) memoryAlignment
        jitDebugArenaSize = 0
    · simp only [hnone, hnone', or_true, if_true, if_false]
      exact ⟨trivial, iff_of_false allocationFailed_ne_success fun h => h rfl⟩
    · simp only [hnone, hnone', or_self, if_false]
      exact ⟨trivial, iff_of_true trivial hnone⟩

/-- An initialisation that fails registers nothing, and one that succeeds registers the handler exactly
if it has debug tables. -/
theorem init_registers (hdocumented : host.Documented) (hbounded : host.Bounded)
    (hsigaction : ∀ signal, host.sigaction signal = true) (arguments : InitArguments)
    (signal : FaultSignal) :
    ((p.initResult host arguments).2.registrations.any fun x => x.1 == signal) = true ↔
      (p.initResult host arguments).1 = .success ∧ (host.engineRecord p.calls).entries ≠ 0 := by
  have hrecord := hbounded p.calls memoryAlignment internalEngineStateSize
  simp only [Process.initResult, balEngineInit, InitState.call, Host.engineRecord]
  generalize host.allocate p.calls memoryAlignment internalEngineStateSize = record at hrecord ⊢
  have hcontract := hdocumented (p.calls ++ [.allocate internalEngineStateSize record]) 4096
    tier1BufferSizeBytes
  obtain ⟨buffer, hbuffer⟩ : ∃ buffer, buffer = host.allocateExecutable
    (p.calls ++ [.allocate internalEngineStateSize record]) 4096 tier1BufferSizeBytes := ⟨_, rfl⟩
  simp only [← hbuffer] at hcontract ⊢
  split
  · exact iff_of_false Bool.false_ne_true fun h => invalidArgument_ne_success h.1
  split
  · exact iff_of_false Bool.false_ne_true fun h => invalidArgument_ne_success h.1
  by_cases hnone : record = 0
  · simp only [hnone, if_true]
    exact iff_of_false Bool.false_ne_true fun h => allocationFailed_ne_success h.1
  have hfits := hrecord hnone
  simp only [hnone, if_false]
  by_cases hrw : buffer.rwPointer = 0
  · simp only [hrw, if_true]
    exact iff_of_false Bool.false_ne_true fun h => allocationFailed_ne_success h.1
  simp only [hrw, if_false]
  have hrx := hcontract.not.mp hrw
  have hsuccess := balTier1CompilerInit_success.mpr (not_or.mpr ⟨hrw, hrx⟩)
  obtain ⟨hregistrations, hdebug⟩ := balJitDebugInit_registers host
    { InitState.start 0 0 .success with
      calls := p.calls ++ [.allocate internalEngineStateSize record] ++
        [.allocateExecutable tier1BufferSizeBytes buffer] }
  rw [iff_true_intro (finishEngineInit_success record hsuccess), true_and, ← hdebug]
  simp only [finishEngineInit, hsuccess, ne_eq, not_true_eq_false, if_false]
  by_cases hdebugged : (balJitDebugInit host { InitState.start 0 0 .success with
      calls := p.calls ++ [.allocate internalEngineStateSize record] ++
        [.allocateExecutable tier1BufferSizeBytes buffer] }).1 = .success
  · have hcontext : above record offsetDebugContext ≠ 0 := by
      intro hzero
      have hplace := congrArg BitVec.toNat hzero
      have hsize : internalEngineStateSize = 262656 := by decide
      have hnull : (0 : Address).toNat = 0 := rfl
      rw [above, offsetDebugContext, BitVec.toNat_add, BitVec.toNat_ofNat, hnull] at hplace
      omega
    have hsize : tier1BufferSizeBytes ≠ 0 := by decide
    simp only [hdebugged, if_true, balJitDebugRegisterSignalHandler, hcontext, hrx, hsize, hsigaction,
      or_self, if_false, Bool.not_true, Bool.false_eq_true, InitState.register, hregistrations]
    refine iff_of_true ?_ trivial
    cases signal <;> rfl
  · simp only [hdebugged, if_false, hregistrations]
    exact iff_of_false Bool.false_ne_true not_false

namespace Process

/-- The call registers the fault handler. -/
def Registers (host : Host) (p : Process V) : LifecycleCall V → Prop
  | .init _ arguments =>
      (p.initResult host arguments).1 = .success ∧ (host.engineRecord p.calls).entries ≠ 0
  | .destroy _ => False

/-- The call is the destruction of an engine that is alive. -/
def Unregisters (p : Process V) : LifecycleCall V → Prop
  | .init .. => False
  | .destroy v => p.engines v ≠ none

theorem perform_handled [DecidableEq V] (hdocumented : host.Documented) (hbounded : host.Bounded)
    (hsigaction : ∀ signal, host.sigaction signal = true) (signal : FaultSignal) (p : Process V)
    (call : LifecycleCall V) :
    (p.perform host call).handled signal = true ↔
      p.Registers host call ∨ p.handled signal = true ∧ ¬p.Unregisters call := by
  cases call with
  | init v arguments =>
      simp only [perform, init, Bool.or_eq_true, Registers, Unregisters, not_false_eq_true, and_true]
      rw [init_registers hdocumented hbounded hsigaction, or_comm]
  | destroy v =>
      simp only [perform, destroy, Registers, Unregisters, false_or, not_not]
      cases hv : p.engines v with
      | none => simp only [and_true]
      | some r => simp [hsigaction]

end Process

/-- **The handler belongs to the process.** Faults are handled exactly if an engine was initialised with
debug tables, and since then no engine at all was destroyed. -/
theorem lifecycle_handlers [DecidableEq V] (hdocumented : host.Documented) (hbounded : host.Bounded)
    (hsigaction : ∀ signal, host.sigaction signal = true) (calls : List (LifecycleCall V))
    (signal : FaultSignal) :
    ((Process.start : Process V).performAll host calls).handled signal = true ↔
      Since (Process.perform host) (Process.Registers host) Process.Unregisters Process.start calls :=
  holds_iff_since _ _ _ (fun p : Process V => p.handled signal = true) Bool.false_ne_true
    (Process.perform_handled hdocumented hbounded hsigaction signal) calls

end Handlers

/-! ### Two engines -/

/-- A host with memory for a million requests. -/
def workingHost : Host where
  allocate := fun calls _ size =>
    if calls.length < 2 ^ 20 ∧ size < 2 ^ 24 then BitVec.ofNat 64 (2 ^ 24 * (calls.length + 1)) else 0
  allocateExecutable := fun calls _ _ =>
    let place := 2 ^ 45 + 2 ^ 26 * (calls.length % 2 ^ 18)
    ⟨BitVec.ofNat 64 place, BitVec.ofNat 64 (place + 2 ^ 25)⟩
  sigaction := fun _ => true

theorem workingHost_documented : workingHost.Documented := by
  intro calls alignment size
  have hlow : calls.length % 2 ^ 18 < 2 ^ 18 := Nat.mod_lt _ (by decide)
  have hzero : (0 : Address).toNat = 0 := rfl
  refine iff_of_false ?_ ?_
  all_goals
    intro hnull
    have hplace := congrArg BitVec.toNat hnull
    simp only [workingHost, BitVec.toNat_ofNat, hzero] at hplace
    omega

theorem workingHost_bounded : workingHost.Bounded := by
  intro calls alignment size hne
  simp only [workingHost] at hne ⊢
  split at hne
  · next h =>
      rw [if_pos h, BitVec.toNat_ofNat]
      omega
  · exact absurd rfl hne

/-- Two engines, of which the first is destroyed. -/
def twoEngines : List (LifecycleCall Bool) :=
  [.init false allArguments, .init true allArguments, .destroy false]

theorem lifecycle_conserves_twoEngines :
    ledger ((Process.start : Process Bool).performAll workingHost twoEngines).calls =
        some (((Process.start : Process Bool).performAll workingHost twoEngines).owned +
          Process.losses workingHost Process.start twoEngines) ∧
      Process.losses workingHost Process.start twoEngines = 0 :=
  ⟨lifecycle_conserves workingHost_documented twoEngines, by decide⟩

/-- The second engine has its debug tables, but nothing handles its faults. -/
theorem lifecycle_handlers_twoEngines :
    (((Process.start : Process Bool).performAll workingHost twoEngines).engines true).any
        (fun r => r.entries != 0) = true ∧
      ¬Since (Process.perform workingHost) (Process.Registers workingHost) Process.Unregisters
        Process.start twoEngines := by
  refine ⟨by decide, ?_⟩
  rw [← lifecycle_handlers workingHost_documented workingHost_bounded (fun _ => rfl) twoEngines .segv]
  decide

end Ballistic
