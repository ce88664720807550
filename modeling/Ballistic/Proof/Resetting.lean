import Ballistic.EngineState
import Ballistic.Proof.Stickiness

/-!
# Resetting the engine

`bal_engine_reset` gives `memset` the address of the field `tier1_buffer` and the size of the code
buffer. The sixteen megabytes from there on begin with the two pointers to the buffer and end far
behind the record: no reset of an initialised engine keeps what a later call needs.
-/

namespace Ballistic

open Machine

namespace HostEngine

/-- The host engines after a successful initialisation and any runs. A run leaves the pointers and
the size alone; the host can change the flags and the CPU record between runs and make requests. -/
inductive Reached : HostEngine → Prop
  | init {a : Allocation} {cpu : A64.State} {h : HostEngine} (hinit : HostEngine.init a cpu = some h) :
      Reached h
  | run {h : HostEngine} {guest : Guest} {codes : List Nat} {status : BalError} {e : Engine Nat}
      {memory : Memory} (hreached : Reached h)
      (hrun : RunsTo guest positions .compareExchange h.engine codes status e)
      (hkept : ∀ k, k < 16 ∨ offsetTier1Buffer ≤ k ∧ k < offsetDebugContext →
        memory (above h.engineState k) = h.memory (above h.engineState k)) :
      Reached { h with memory := memory, engine := e }
  | host {h : HostEngine} (hreached : Reached h) (flags : EngineFlags) (cpu : A64.State)
      (stop clear : Bool) :
      Reached
        { h with
          engine :=
            { h.engine with
              flags := flags, cpu := cpu
              stopRequested := h.engine.stopRequested || stop
              clearCacheRequested := h.engine.clearCacheRequested || clear } }

/-- The fields that a reset has no business with are as they were. -/
structure KeepsFields (h h' : HostEngine) : Prop where
  rwPointer : h'.field offsetTier1Buffer = h.field offsetTier1Buffer
  rxPointer : h'.field offsetTier1BufferRx = h.field offsetTier1BufferRx
  size : h'.field offsetTier1BufferSize = h.field offsetTier1BufferSize
  debugContext : ∀ k < debugContextSize,
    h'.memory (above h.engineState (offsetDebugContext + k)) =
      h.memory (above h.engineState (offsetDebugContext + k))
  assemblerBuffer : h'.field offsetAssemblerBuffer = h.field offsetAssemblerBuffer
  assemblerRxBuffer : h'.field offsetAssemblerRxBuffer = h.field offsetAssemblerRxBuffer

/-- Nothing is written outside the record and the two mappings of the code buffer. -/
def WritesInside (h h' : HostEngine) : Prop :=
  ∀ x, internalEngineStateSize ≤ distance h.engineState x →
    (h.field offsetTier1BufferSize).toNat ≤ distance (h.field offsetTier1Buffer) x →
    (h.field offsetTier1BufferSize).toNat ≤ distance (h.field offsetTier1BufferRx) x →
    h'.memory x = h.memory x

/-- Every call from any CPU record, with any guest memory, ends as on the other engine. -/
def RunsAs (e fresh : Engine Nat) : Prop :=
  ∀ (guest : Guest) (cpu after : A64.State) (status : BalError),
    (∃ codes e', RunsTo guest positions .compareExchange { e with cpu := cpu } codes status e' ∧
        e'.cpu = after) ↔
      ∃ codes e', RunsTo guest positions .compareExchange { fresh with cpu := cpu } codes status e' ∧
        e'.cpu = after

/-- A reset keeps the engine usable: its fields, the memory around it, and its later runs. -/
def ResetKeepsUsable (h : HostEngine) : Prop :=
  h.KeepsFields h.reset ∧ h.WritesInside h.reset ∧
    ∀ a cpu fresh, HostEngine.init a cpu = some fresh → RunsAs h.reset.engine fresh.engine

/-- The pointer and the size that every initialised engine has. -/
structure Buffered (h : HostEngine) : Prop where
  rwPointer : h.field offsetTier1Buffer ≠ 0
  size : h.field offsetTier1BufferSize = BitVec.ofNat 64 tier1BufferSizeBytes

variable {h : HostEngine}

theorem read64_withDebugContext (m : Memory) (engineState : Address) (debugContext : Nat → Byte)
    {p : Nat} (hp : p + 8 ≤ offsetDebugContext) :
    (withDebugContext m engineState debugContext).read64 (above engineState p) =
      m.read64 (above engineState p) := by
  refine Memory.read64_congr fun k hk => if_neg ?_
  rintro ⟨hin, -⟩
  have hlt : offsetDebugContext < 2 ^ 32 := by decide
  rw [above_above, distance_above engineState (by omega)] at hin
  omega

theorem buffered_init {a : Allocation} {cpu : A64.State} (hinit : HostEngine.init a cpu = some h) :
    h.Buffered := by
  unfold HostEngine.init at hinit
  split at hinit
  · cases hinit
  · next hrefused =>
      obtain ⟨c, -, rfl⟩ := Option.map_eq_some_iff.mp hinit
      simp only [not_or] at hrefused
      constructor
      · simp only [field, Allocation.record]
        rw [Memory.read64_write64_above _ _ _ (by decide) (by decide) (by decide),
          Memory.read64_write64_above _ _ _ (by decide) (by decide) (by decide),
          read64_withDebugContext _ _ _ (by decide),
          Memory.read64_write64_above _ _ _ (by decide) (by decide) (by decide),
          Memory.read64_write64_self]
        exact hrefused.2.1
      · simp only [field, Allocation.record]
        rw [Memory.read64_write64_above _ _ _ (by decide) (by decide) (by decide),
          Memory.read64_write64_above _ _ _ (by decide) (by decide) (by decide),
          read64_withDebugContext _ _ _ (by decide),
          Memory.read64_write64_above _ _ _ (by decide) (by decide) (by decide),
          Memory.read64_write64_above _ _ _ (by decide) (by decide) (by decide),
          Memory.read64_write64_self]

theorem Reached.buffered (hreached : Reached h) : h.Buffered := by
  induction hreached with
  | init hinit => exact buffered_init hinit
  | @run h _ _ _ e memory _ _ hkept ih =>
      have hfield : ∀ {p : Nat}, offsetTier1Buffer ≤ p → p + 8 ≤ offsetDebugContext →
          memory.read64 (above h.engineState p) = h.field p := by
        intro p hle hp
        refine Memory.read64_congr fun k hk => ?_
        rw [above_above]
        exact hkept (p + k) (.inr ⟨by omega, by omega⟩)
      have hpointer : memory.read64 (above h.engineState offsetTier1Buffer) = h.field _ :=
        hfield (by decide) (by decide)
      have hsize : memory.read64 (above h.engineState offsetTier1BufferSize) = h.field _ :=
        hfield (by decide) (by decide)
      exact ⟨fun hzero => ih.rwPointer (hpointer.symm.trans hzero), hsize.trans ih.size⟩
  | host _ _ _ _ _ ih => exact ⟨ih.rwPointer, ih.size⟩

/-- After a reset the pointers and the size are zero. -/
theorem Buffered.reset_field (hbuffered : h.Buffered) {offset : Nat} (hle : offsetTier1Buffer ≤ offset)
    (hlt : offset + 8 ≤ internalEngineStateSize) : h.reset.field offset = 0 := by
  have hcount : (h.field offsetTier1BufferSize).toNat = tier1BufferSizeBytes := by
    rw [hbuffered.size]
    rfl
  have hsize : internalEngineStateSize < 2 ^ 32 := by decide
  have hlong : internalEngineStateSize ≤ offsetTier1Buffer + tier1BufferSizeBytes := by decide
  simp only [field, reset]
  refine Memory.read64_memset _ _ (by omega) hle ?_
  simp only [field] at hcount
  omega

/-- **No reset keeps the engine usable.** -/
theorem Reached.not_resetKeepsUsable (hreached : Reached h) : ¬h.ResetKeepsUsable := by
  rintro ⟨hfields, -, -⟩
  have hbuffered := hreached.buffered
  have hcleared := hbuffered.reset_field (le_refl offsetTier1Buffer) (by decide)
  exact hbuffered.rwPointer (hfields.rwPointer.symm.trans hcleared)

/-- A record and two mappings of the code buffer in a memory of ones, with debugging disabled. -/
def someAllocation : Allocation where
  memory := fun _ => 0xFF
  engineState := 0x10000
  rwPointer := 0x1000000
  rxPointer := 0x3000000
  buffer := fun _ => 0
  debugContext := fun _ => 0

theorem init_someAllocation :
    ∃ h, HostEngine.init someAllocation (cpuState (fun _ => 0) 0) = some h := ⟨_, rfl⟩

/-- The engine of that allocation, reset before its first run. -/
theorem not_resetKeepsUsable_init : ∃ h,
    HostEngine.init someAllocation (cpuState (fun _ => 0) 0) = some h ∧ ¬h.ResetKeepsUsable := by
  obtain ⟨h, hinit⟩ := init_someAllocation
  exact ⟨h, hinit, Reached.not_resetKeepsUsable (.init hinit)⟩

/-- The reset clears the pointer to the code buffer, and the byte behind the record. -/
theorem reset_clears_pointer : ∃ h,
    HostEngine.init someAllocation (cpuState (fun _ => 0) 0) = some h ∧
      h.field offsetTier1Buffer = 0x1000000 ∧ h.reset.field offsetTier1Buffer = 0 ∧
      h.memory (above h.engineState internalEngineStateSize) = 0xFF ∧
      h.reset.memory (above h.engineState internalEngineStateSize) = 0 ∧ ¬h.ResetKeepsUsable := by
  obtain ⟨h, hinit⟩ := init_someAllocation
  have hbuffered := buffered_init hinit
  have hcleared := hbuffered.reset_field (le_refl offsetTier1Buffer) (by decide)
  cases hinit
  refine ⟨_, rfl, by decide, hcleared, by decide, by decide, fun husable => ?_⟩
  exact hbuffered.rwPointer (husable.1.rwPointer.symm.trans hcleared)

end HostEngine

end Ballistic
