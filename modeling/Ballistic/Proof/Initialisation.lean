import Ballistic.EngineInit

/-!
# Failed initialisations

When `bal_engine_init` fails behind its first allocation, something is left over: the record of the
engine if the executable buffer cannot be written, the executable buffer and the debug tables if it
cannot be executed. `releasesAll_iff` says that these are the only such cases.
-/

namespace Ballistic

open Machine

/-! ### What a failed call has to give back -/

/-- The memory of a block that was handed out and freed. -/
def InFreedMemory (calls : List AllocatorCall) (x : Address) : Prop :=
  ∃ pointer size size', .allocate size pointer ∈ calls ∧ .free pointer size' ∈ calls ∧
    distance pointer x < size

def AllocatorCall.frees (pointer : Address) : AllocatorCall → Bool
  | free p _ => p == pointer
  | _ => false

def AllocatorCall.freesExecutable (buffer : ExecutableBuffer) : AllocatorCall → Bool
  | freeExecutable b _ => b == buffer
  | _ => false

/-- Every block that was obtained is released exactly once and nothing else is, and neither the
handler nor the CPU refers to what was freed. -/
structure ReleasesAll (s : InitState) : Prop where
  freed : ∀ size pointer, .allocate size pointer ∈ s.calls → pointer ≠ 0 →
    s.calls.countP (AllocatorCall.frees pointer) = 1
  freedExecutable : ∀ size buffer, .allocateExecutable size buffer ∈ s.calls →
    (buffer.rwPointer ≠ 0 ∨ buffer.rxPointer ≠ 0) →
    s.calls.countP (AllocatorCall.freesExecutable buffer) = 1
  obtained : ∀ size pointer, .free pointer size ∈ s.calls →
    ∃ size', .allocate size' pointer ∈ s.calls
  obtainedExecutable : ∀ size buffer, .freeExecutable buffer size ∈ s.calls →
    ∃ size', .allocateExecutable size' buffer ∈ s.calls
  handlers : ∀ signal context, (signal, context) ∈ s.registrations →
    ¬InFreedMemory s.calls context
  cpuDebugContext : ¬InFreedMemory s.calls s.cpuDebugContext

/-- The allocator hands out memory for the record, and then an executable buffer with a pointer that
is `NULL`. -/
def BufferRefused (host : Host) (arguments : InitArguments) (s : InitState) : Prop :=
  let engineState := host.allocate s.calls memoryAlignment internalEngineStateSize
  let buffer := host.allocateExecutable
    (s.call (.allocate internalEngineStateSize engineState)).calls 4096 tier1BufferSizeBytes
  arguments.valid = true ∧ engineState ≠ 0 ∧ (buffer.rwPointer = 0 ∨ buffer.rxPointer = 0)

/-! ### The parts of the initialisation -/

/-- Calls of the allocator were added, and none of them frees executable memory. -/
def AddsHeapCalls (s s' : InitState) : Prop :=
  ∃ new, s'.calls = s.calls ++ new ∧ ∀ c ∈ new, ∀ buffer, c.freesExecutable buffer = false

section Parts

variable {host : Host} {s s' s'' : InitState}

theorem AddsHeapCalls.of_eq (h : s'.calls = s.calls) : AddsHeapCalls s s' :=
  ⟨[], by rw [h, List.append_nil], nofun⟩

theorem AddsHeapCalls.trans (h : AddsHeapCalls s s') (h' : AddsHeapCalls s' s'') :
    AddsHeapCalls s s'' := by
  obtain ⟨new, hcalls, hnew⟩ := h
  obtain ⟨new', hcalls', hnew'⟩ := h'
  refine ⟨new ++ new', by rw [hcalls', hcalls, List.append_assoc], fun c hc => ?_⟩
  rcases List.mem_append.mp hc with hc | hc
  · exact hnew c hc
  · exact hnew' c hc

theorem AddsHeapCalls.allocate (s : InitState) (size : Nat) (pointer : Address) :
    AddsHeapCalls s (s.call (.allocate size pointer)) :=
  ⟨[_], rfl, fun c hc _ => by rw [List.mem_singleton.mp hc]; rfl⟩

theorem AddsHeapCalls.free (s : InitState) (pointer : Address) (size : Nat) :
    AddsHeapCalls s (s.call (.free pointer size)) :=
  ⟨[_], rfl, fun c hc _ => by rw [List.mem_singleton.mp hc]; rfl⟩

theorem AddsHeapCalls.mem (h : AddsHeapCalls s s') {c : AllocatorCall} (hc : c ∈ s.calls) :
    c ∈ s'.calls := by
  obtain ⟨new, hcalls, -⟩ := h
  rw [hcalls]
  exact List.mem_append_left new hc

theorem AddsHeapCalls.countP_eq (h : AddsHeapCalls s s') (buffer : ExecutableBuffer) :
    s'.calls.countP (AllocatorCall.freesExecutable buffer) =
      s.calls.countP (AllocatorCall.freesExecutable buffer) := by
  obtain ⟨new, hcalls, hnew⟩ := h
  have hzero : new.countP (AllocatorCall.freesExecutable buffer) = 0 := by
    rw [List.countP_eq_zero]
    intro c hc
    rw [hnew c hc buffer]
    exact Bool.false_ne_true
  rw [hcalls, List.countP_append, hzero, Nat.add_zero]

/-- The debug tables are not in executable memory. -/
theorem balJitDebugInit_calls (host : Host) (s : InitState) :
    AddsHeapCalls s (balJitDebugInit host s).2 := by
  simp only [balJitDebugInit]
  generalize host.allocate s.calls memoryAlignment jitDebugEntriesSize = entries
  have hentries := AddsHeapCalls.allocate s jitDebugEntriesSize entries
  by_cases hnone : entries = 0
  · rw [if_pos hnone]
    exact hentries
  · rw [if_neg hnone]
    generalize host.allocate _ memoryAlignment jitDebugArenaSize = arena
    have harena := hentries.trans (.allocate _ jitDebugArenaSize arena)
    by_cases hnone' : arena = 0
    · rw [if_pos hnone']
      exact harena.trans (.free _ entries jitDebugEntriesSize)
    · rw [if_neg hnone']
      exact harena

theorem balJitDebugRegisterSignalHandler_calls (host : Host) (context start : Address) (size : Nat)
    (s : InitState) :
    (balJitDebugRegisterSignalHandler host context start size s).2.calls = s.calls := by
  unfold balJitDebugRegisterSignalHandler
  split
  · rfl
  · split
    · rfl
    · simp only
      split <;> rfl

theorem balTier1CompilerInit_success {buffer : ExecutableBuffer} :
    balTier1CompilerInit buffer tier1BufferSizeBytes = .success ↔
      ¬(buffer.rwPointer = 0 ∨ buffer.rxPointer = 0) := by
  have hsize : tier1BufferSizeBytes ≠ 0 := by decide
  unfold balTier1CompilerInit
  rw [if_neg hsize]
  by_cases hnull : buffer.rwPointer = 0 ∨ buffer.rxPointer = 0
  · rw [if_pos hnull]
    exact iff_of_false nofun (not_not.mpr hnull)
  · rw [if_neg hnull]
    exact iff_of_true rfl hnull

theorem finishEngineInit_success (engineState : Address) {buffer : ExecutableBuffer}
    (h : balTier1CompilerInit buffer tier1BufferSizeBytes = .success) :
    (finishEngineInit host engineState buffer s).1 = .success := by
  simp only [finishEngineInit, h, ne_eq, not_true_eq_false, if_false]

/-- Where the compiler fails, no executable memory is freed. -/
theorem finishEngineInit_failure (engineState : Address) {buffer : ExecutableBuffer}
    (h : balTier1CompilerInit buffer tier1BufferSizeBytes ≠ .success) :
    (finishEngineInit host engineState buffer s).1 ≠ .success ∧
      AddsHeapCalls s (finishEngineInit host engineState buffer s).2 := by
  have hdebug := balJitDebugInit_calls host s
  simp only [finishEngineInit, h, ne_eq, not_false_eq_true, if_true]
  refine ⟨h, ?_⟩
  generalize hregistered : (if (balJitDebugInit host s).1 = .success then _ else _) = registered
  have hcalls : registered.calls = (balJitDebugInit host s).2.calls := by
    rw [← hregistered]
    split
    · exact balJitDebugRegisterSignalHandler_calls host _ _ _ _
    · rfl
  exact ((hdebug.trans (.of_eq hcalls)).trans (.free _ _ _)).trans (.free _ _ _)

end Parts

/-! ### The cases -/

/-- Without a block from the allocator there is nothing to release. -/
theorem ReleasesAll.of_nothing {s : InitState} (hregistrations : s.registrations = [])
    (h : ∀ c ∈ s.calls, ∃ size, c = .allocate size 0) : ReleasesAll s where
  freed := by
    intro size pointer hmem hne
    obtain ⟨_, heq⟩ := h _ hmem
    cases heq
    exact absurd rfl hne
  freedExecutable := by
    intro size buffer hmem
    obtain ⟨_, heq⟩ := h _ hmem
    cases heq
  obtained := by
    intro size pointer hmem
    obtain ⟨_, heq⟩ := h _ hmem
    cases heq
  obtainedExecutable := by
    intro size buffer hmem
    obtain ⟨_, heq⟩ := h _ hmem
    cases heq
  handlers := by
    intro signal context hmem
    rw [hregistrations] at hmem
    cases hmem
  cpuDebugContext := by
    rintro ⟨pointer, size, size', -, hmem, -⟩
    obtain ⟨_, heq⟩ := h _ hmem
    cases heq

/-- The record stays allocated when there is no buffer to write to. -/
theorem not_releasesAll_of_record {s : InitState} {size size' : Nat} {record : Address}
    {buffer : ExecutableBuffer} (hrecord : record ≠ 0)
    (hcalls : s.calls = [.allocate size record, .allocateExecutable size' buffer]) :
    ¬ReleasesAll s := by
  intro h
  have hfreed := h.freed size record (by rw [hcalls]; exact List.mem_cons_self) hrecord
  rw [hcalls] at hfreed
  cases hfreed

/-- The buffer stays allocated when it cannot be executed. -/
theorem not_releasesAll_of_buffer {s s' : InitState} {size size' : Nat} {record : Address}
    {buffer : ExecutableBuffer} (hrw : buffer.rwPointer ≠ 0)
    (hcalls : s.calls = [.allocate size record, .allocateExecutable size' buffer])
    (hadds : AddsHeapCalls s s') : ¬ReleasesAll s' := by
  intro h
  have hmem : .allocateExecutable size' buffer ∈ s.calls := by
    rw [hcalls]
    exact List.mem_cons_of_mem _ List.mem_cons_self
  have hfreed := h.freedExecutable size' buffer (hadds.mem hmem) (.inl hrw)
  rw [hadds.countP_eq, hcalls] at hfreed
  cases hfreed

/-- **Failed initialisations.** A call that fails gives everything back, except where the allocator
hands out the record and then refuses an executable buffer: there something always stays behind. -/
theorem releasesAll_iff (host : Host) (arguments : InitArguments)
    (cpuDebugContext engineState : Address) (status : BalError) :
    let s := InitState.start cpuDebugContext engineState status
    ((balEngineInit host arguments s).1 ≠ .success →
        ReleasesAll (balEngineInit host arguments s).2) ↔
      ¬BufferRefused host arguments s := by
  intro s
  have hchecked : arguments.valid = (arguments.engine && arguments.checked) := rfl
  simp only [balEngineInit, BufferRefused, hchecked]
  generalize host.allocate s.calls memoryAlignment internalEngineStateSize = record
  generalize hallocated : s.call (.allocate internalEngineStateSize record) = s₁
  generalize host.allocateExecutable s₁.calls 4096 tier1BufferSizeBytes = buffer
  have hcalls : s₁.calls = [.allocate internalEngineStateSize record] := by
    rw [← hallocated]
    rfl
  cases arguments.engine with
  | false => exact iff_of_true (fun _ => .of_nothing rfl nofun) (fun h => absurd h.1 nofun)
  | true =>
      cases arguments.checked with
      | false => exact iff_of_true (fun _ => .of_nothing rfl nofun) (fun h => absurd h.1 nofun)
      | true =>
          simp only [Bool.not_true, Bool.false_eq_true, if_false, Bool.and_self, true_and]
          by_cases hrecord : record = 0
          · rw [if_pos hrecord]
            refine iff_of_true (fun _ => .of_nothing ?_ ?_) (fun h => h.1 hrecord)
            · rw [← hallocated]
              rfl
            · change ∀ c ∈ s₁.calls, _
              rw [hcalls, hrecord]
              exact fun c hc => ⟨_, List.mem_singleton.mp hc⟩
          · rw [if_neg hrecord]
            by_cases hbuffer : buffer.rwPointer = 0 ∨ buffer.rxPointer = 0
            · refine iff_of_false (fun h => ?_) (not_not.mpr ⟨hrecord, hbuffer⟩)
              have hboth : (s₁.call (.allocateExecutable tier1BufferSizeBytes buffer)).calls =
                  [.allocate internalEngineStateSize record,
                    .allocateExecutable tier1BufferSizeBytes buffer] := by
                rw [InitState.call, hcalls]
                rfl
              by_cases hrw : buffer.rwPointer = 0
              · rw [if_pos hrw] at h
                have hkept : ¬ReleasesAll ((s₁.call (.allocateExecutable tier1BufferSizeBytes
                    buffer)).fail .allocationFailed).2 := not_releasesAll_of_record hrecord hboth
                exact hkept (h nofun)
              · rw [if_neg hrw] at h
                obtain ⟨hfails, hadds⟩ := finishEngineInit_failure record
                  (balTier1CompilerInit_success.not.mpr (not_not.mpr hbuffer))
                exact not_releasesAll_of_buffer hrw hboth hadds (h hfails)
            · have hsuccess := balTier1CompilerInit_success.mpr hbuffer
              rw [if_neg fun hrw => hbuffer (.inl hrw)]
              exact iff_of_true
                (fun hfails => absurd (finishEngineInit_success record hsuccess) hfails)
                (fun h => hbuffer h.2)

/-- An initialisation succeeds exactly when there is an engine in memory for what the allocator hands
out. -/
theorem balEngineInit_success_iff (host : Host) (arguments : InitArguments) (s : InitState)
    {a : HostEngine.Allocation} (cpu : A64.State)
    (hrecord : a.engineState = host.allocate s.calls memoryAlignment internalEngineStateSize)
    (hbuffer : ⟨a.rwPointer, a.rxPointer⟩ = host.allocateExecutable
      (s.call (.allocate internalEngineStateSize a.engineState)).calls 4096 tier1BufferSizeBytes) :
    (balEngineInit host arguments s).1 = .success ↔
      arguments.valid = true ∧ (HostEngine.init a cpu).isSome = true := by
  have hchecked : arguments.valid = (arguments.engine && arguments.checked) := rfl
  have hsize : tier1BufferSizeBytes ≠ 0 := by decide
  simp only [balEngineInit, HostEngine.init, hchecked, ← hrecord, ← hbuffer]
  cases arguments.engine with
  | false => exact iff_of_false nofun fun h => absurd h.1 nofun
  | true =>
      cases arguments.checked with
      | false => exact iff_of_false nofun fun h => absurd h.1 nofun
      | true =>
          simp only [Bool.not_true, Bool.false_eq_true, if_false, Bool.and_self, true_and]
          by_cases hnone : a.engineState = 0
          · rw [if_pos hnone, if_pos (.inl hnone)]
            exact iff_of_false nofun nofun
          · rw [if_neg hnone]
            by_cases hrw : a.rwPointer = 0
            · rw [if_pos hrw, if_pos (.inr (.inl hrw))]
              exact iff_of_false nofun nofun
            · rw [if_neg hrw]
              by_cases hrx : a.rxPointer = 0
              · rw [if_pos (.inr (.inr hrx))]
                exact iff_of_false (finishEngineInit_failure _
                  (balTier1CompilerInit_success.not.mpr (not_not.mpr (.inr hrx)))).1 nofun
              · rw [if_neg (not_or.mpr ⟨hnone, not_or.mpr ⟨hrw, hrx⟩⟩), Option.isSome_map, Compiler.init,
                  Option.isSome_map, Assembler.init, if_neg hsize]
                exact iff_of_true (finishEngineInit_success _
                  (balTier1CompilerInit_success.mpr (not_or.mpr ⟨hrw, hrx⟩))) rfl

/-! ### Two refusals -/

def allArguments : InitArguments :=
  ⟨true, true, true, true, true, true, true, true, true, true, true, true⟩

/-- An allocator that hands out blocks at multiples of `0x1000000` and the given executable buffer. -/
def refusingHost (buffer : ExecutableBuffer) : Host where
  allocate := fun calls _ _ => BitVec.ofNat 64 (0x1000000 * (calls.length + 1))
  allocateExecutable := fun _ _ _ => buffer
  sigaction := fun _ => true

/-- Without an executable buffer the record is kept. With one that cannot be executed an address
inside the record is freed, and the CPU refers to the record after it is freed. -/
theorem init_leaves_over :
    let s := InitState.start 0 0 .success
    let none := balEngineInit (refusingHost ⟨0, 0⟩) allArguments s
    let unexecutable := balEngineInit (refusingHost ⟨0x70000000, 0⟩) allArguments s
    (none.1 = .allocationFailed ∧ ¬ReleasesAll none.2) ∧
      unexecutable.1 = .invalidArgument ∧ ¬ReleasesAll unexecutable.2 ∧
        .free 0x1000100 internalEngineStateSize ∈ unexecutable.2.calls ∧
        InFreedMemory unexecutable.2.calls unexecutable.2.cpuDebugContext := by
  refine ⟨⟨by decide, fun h => ?_⟩, by decide, fun h => ?_, by decide, ?_⟩
  · have hfreed := h.freed internalEngineStateSize 0x1000000 (by decide) (by decide)
    exact absurd hfreed (by decide)
  · have hfreed := h.freedExecutable tier1BufferSizeBytes ⟨0x70000000, 0⟩ (by decide)
      (.inl (by decide))
    exact absurd hfreed (by decide)
  · exact ⟨0x1000000, internalEngineStateSize, internalEngineStateSize, by decide, by decide,
      by decide⟩

end Ballistic
