import Ballistic.Proof.Straight
import Ballistic.Proof.Values

/-!
# Back to the CPU record

At its end a block stores the dirty registers and, unless it has come from a register, the program
counter. After that the CPU record holds the guest (`Holds.tail`), whatever is in the host registers.
-/

namespace Ballistic

open Machine Machine.X86

section Settling

variable {base : Address} {r : RegisterAllocator} {s : State} {g : A64.State}
  {stale : Set (Fin 32)}

theorem Holds.withPc (h : Holds base r s g stale) (pc : Address) :
    Holds base r s { g with pc := pc } stale :=
  ⟨h.rbp, h.mapped, h.memory, h.flagN, h.flagZ, h.flagC, h.flagV⟩

/-- A write to a field of the record that is no register and no flag. -/
theorem Holds.write64 (h : Holds base r s g stale) {o : Nat} (hlow : 256 ≤ o)
    (hflags : o + 8 ≤ offsetFlagC ∨ offsetFlagV < o) (hhigh : o < 2 ^ 30) (value : BitVec 64)
    (flags : Flags) :
    Holds base r { s with memory := s.memory.write64 (above base o) value, flags := flags } g
      stale := by
  have hflag : ∀ p, offsetFlagC ≤ p → p ≤ offsetFlagV →
      (s.memory.write64 (above base o) value) (above base p) = s.memory (above base p) := by
    intro p hp hp'
    unfold offsetFlagC at hp hflags
    unfold offsetFlagV at hp' hflags
    exact Memory.write64_above_apply _ _ _ (by omega) (by omega) (by omega)
  refine ⟨h.rbp, h.mapped, ?_, ?_, ?_, ?_, ?_⟩
  · intro a ha hclean
    have hlt := offsetX_lt a
    rw [Memory.read64_write64_above _ _ _ (by omega) (by omega) (by omega)]
    exact h.memory a ha hclean
  · dsimp only
    rw [hflag offsetFlagN (by decide) (by decide), h.flagN]
  · dsimp only
    rw [hflag offsetFlagZ (by decide) (by decide), h.flagZ]
  · dsimp only
    rw [hflag offsetFlagC (by decide) (by decide), h.flagC]
  · dsimp only
    rw [hflag offsetFlagV (by decide) (by decide), h.flagV]

/-- After the prologue the record holds the guest as the caller left it. -/
theorem Call.holds {cpu : Address} {entry : Nat} (hcall : Call s cpu entry) :
    Holds cpu .reset (execAll s prologueCode) (Ballistic.cpuState s.memory cpu) ∅ := by
  have hstate := hcall.cpuState_prologue
  have hrbp := hcall.inside.rbp
  generalize execAll s prologueCode = s' at hstate hrbp ⊢
  refine ⟨hrbp, ?_, ?_, ?_, ?_, ?_, ?_⟩
  · intro a _ x hx
    cases hx
  · intro a _ _
    exact congrFun (congrArg A64.State.x hstate) a
  · exact congrArg A64.State.flagN hstate
  · exact congrArg A64.State.flagZ hstate
  · exact congrArg A64.State.flagC hstate
  · exact congrArg A64.State.flagV hstate

/-! ### The dirty registers -/

/-- The stores of `flush_dirty_registers` for some of the registers. -/
def storesOf (r : RegisterAllocator) (arms : List (Fin 32)) : List Macro :=
  arms.filterMap fun arm : Fin 32 =>
    if r.dirty arm then some (storeMacro (r.armToX86 arm) (offsetX arm)) else none

/-- The stores make the registers clean one after the other; `r'` is the allocator in between, with
fewer dirty bits than the one that the stores were made from. -/
theorem Holds.storesOf (hwf : r.Wf) {r' : RegisterAllocator} (hmap : r'.armToX86 = r.armToX86)
    (hdirty : ∀ a : Fin 32, r'.dirty a = true → r.dirty a = true) (h : Holds base r' s g ∅)
    (arms : List (Fin 32)) :
    (∃ r'', (∀ a : Fin 32, r''.dirty a = true → r'.dirty a = true ∧ a ∉ arms) ∧
        Holds base r'' (execAll s (instrsOf (Ballistic.storesOf r arms))) g ∅) ∧
      (execAll s (instrsOf (Ballistic.storesOf r arms))).memory.read64 (above base offsetPc) =
        s.memory.read64 (above base offsetPc) := by
  induction arms generalizing r' s with
  | nil => exact ⟨⟨r', fun a ha => ⟨ha, by simp⟩, h⟩, rfl⟩
  | cons a arms ih =>
      by_cases hstored : r.dirty a = true
      · obtain ⟨x, hx⟩ := hwf.dirty_mapped a hstored
        have hinstrs : instrsOf (Ballistic.storesOf r (a :: arms)) =
            .store x ((BitVec.ofNat 64 (offsetX a)).setWidth 32) ::
              instrsOf (Ballistic.storesOf r arms) := by
          rw [Ballistic.storesOf, List.filterMap_cons_some (by rw [if_pos hstored, hx])]
          rfl
        have hstore := h.store (a := a) (by simp) (hmap ▸ hx)
        have hdirty' : ∀ b : Fin 32, (r'.clearDirty a).dirty b = true →
            r'.dirty b = true ∧ b ≠ a := by
          intro b hb
          rw [RegisterAllocator.dirty_clearDirty r' a b.isLt, Bool.and_eq_true] at hb
          refine ⟨hb.1, ?_⟩
          rintro rfl
          simp at hb
        obtain ⟨⟨r'', hclean, hholds⟩, hpc⟩ :=
          @ih _ (r'.clearDirty a) hmap (fun b hb => hdirty b (hdirty' b hb).1) hstore
        rw [hinstrs, execAll_cons]
        refine ⟨⟨r'', ?_, hholds⟩, hpc.trans ?_⟩
        · intro b hb
          obtain ⟨hb', hnot⟩ := hclean b hb
          obtain ⟨hb'', hne⟩ := hdirty' b hb'
          exact ⟨hb'', by simp [hne, hnot]⟩
        · have hlt := offsetX_lt a
          have haddress : s.frameAddress ((BitVec.ofNat 64 (offsetX a)).setWidth 32) =
              above base (offsetX a) := by
            rw [frameAddress_offset s (by omega), h.rbp]
          simp only [Instr.exec, haddress]
          exact Memory.read64_write64_above _ _ _ (by omega) (by decide) (.inl (by
            unfold offsetPc
            omega))
      · have hmacros : Ballistic.storesOf r (a :: arms) = Ballistic.storesOf r arms := by
          rw [Ballistic.storesOf, List.filterMap_cons_none (by rw [if_neg hstored])]
          rfl
        obtain ⟨⟨r'', hclean, hholds⟩, hpc⟩ := ih hmap hdirty h
        rw [hmacros]
        refine ⟨⟨r'', ?_, hholds⟩, hpc⟩
        intro b hb
        obtain ⟨hb', hnot⟩ := hclean b hb
        refine ⟨hb', ?_⟩
        rw [List.mem_cons, not_or]
        exact ⟨fun heq => hstored (heq ▸ hdirty b hb'), hnot⟩

theorem Holds.cpuState (h : Holds base r s g ∅) (hclean : ∀ a : Fin 32, r.dirty a = false) :
    cpuState s.memory base = { g with pc := s.memory.read64 (above base offsetPc) } := by
  unfold Ballistic.cpuState
  congr 1
  · funext a
    exact h.memory a (by simp) (hclean a)
  · exact h.flagN
  · exact h.flagZ
  · exact h.flagC
  · exact h.flagV

theorem Holds.dirtyStores (hwf : r.Wf) (h : Holds base r s g ∅) :
    (∃ r', (∀ a : Fin 32, r'.dirty a = false) ∧
        Holds base r' (execAll s (instrsOf (Compiler.dirtyStores r))) g ∅) ∧
      (execAll s (instrsOf (Compiler.dirtyStores r))).memory.read64 (above base offsetPc) =
        s.memory.read64 (above base offsetPc) := by
  obtain ⟨⟨r', hclean, hholds⟩, hpc⟩ := h.storesOf hwf rfl (fun _ ha => ha) (List.finRange 32)
  refine ⟨⟨r', ?_, hholds⟩, hpc⟩
  intro a
  cases hdirty : r'.dirty a with
  | false => rfl
  | true => exact absurd (List.mem_finRange a) (hclean a hdirty).2

/-! ### The tail of a block -/

theorem Holds.tail (hwf : r.Wf) (h : Holds base r s g ∅) (pc : Address) (dynamic : Bool) (count : Nat)
    (flags : EngineFlags) :
    Ballistic.cpuState (execAll s (Compiler.tailCode r pc dynamic count flags)).memory base =
      { g with pc := if dynamic then s.memory.read64 (above base offsetPc) else pc } := by
  -- The instruction counter lies behind the flags of the record.
  have hcount : ∃ s', execAll s (if flags.has EngineFlags.instructionCounting then
      (immediateMacro .addCpuIcount (some .rbp) (BitVec.ofNat 64 count)).instrs else []) = s' ∧
      Holds base r s' g ∅ ∧
      s'.memory.read64 (above base offsetPc) = s.memory.read64 (above base offsetPc) := by
    refine ⟨_, rfl, ?_⟩
    split
    · have haddress : s.frameAddress (BitVec.ofNat 32 offsetInstructionCount) =
          above base offsetInstructionCount := by
        rw [State.frameAddress_eq _ (by decide), h.rbp]
        rfl
      simp only [immediateMacro, Macro.instrs, execAll_cons, execAll_nil, Instr.exec, haddress]
      exact ⟨h.write64 (by decide) (.inr (by decide)) (by decide) _ _,
        Memory.read64_write64_above _ _ _ (by decide) (by decide) (by decide)⟩
    · exact ⟨h, rfl⟩
  obtain ⟨s', hs', hholds, hpc⟩ := hcount
  obtain ⟨⟨r', hclean, hstored⟩, hpc'⟩ := hholds.dirtyStores hwf
  rw [Compiler.tailCode, execAll_append, execAll_append, hs']
  cases dynamic with
  | true =>
      simp only [if_true, execAll_nil]
      rw [hstored.cpuState hclean, hpc', hpc]
  | false =>
      simp only [Bool.false_eq_true, if_false]
      rw [execAll_storePcCode hstored.rbp]
      generalize execAll s' (instrsOf (Compiler.dirtyStores r)) = u at hstored
      have hwritten := hstored.write64 (by decide) (.inl (by decide)) (by decide) pc u.flags
        (o := offsetPc)
      have hstate := hwritten.cpuState hclean
      rwa [Memory.read64_write64_self] at hstate

end Settling

end Ballistic
