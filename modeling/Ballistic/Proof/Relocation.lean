import Ballistic.Proof.Emission
import Ballistic.Proof.Emitters
import Ballistic.Proof.Loops

/-!
# Translation at another place of a buffer

The code of a block does not depend on where in the buffer it is put, nor on the size of the buffer,
as long as it fits. Two translations of one block are compared emit by emit: while the first one is
without failure and inside the part of its buffer that has a counterpart, the second one is without
failure and does the same.
-/

namespace Ballistic

open Machine Machine.X86

/-- A move of code from offset `source` of one buffer to offset `target` of another. The first
`limit` bytes of the one have their counterparts inside the other. -/
structure Relocation where
  source : Nat
  target : Nat
  limit : Nat
  capacity : Nat
  fits : limit + target ≤ capacity + source
  addressable : capacity ≤ sizeMax

/-! ### Sequences of calls -/

/-- The calls of the epilogue before its `ret`. -/
def restoreCalls : List EmitCall :=
  [.popR64 (some .r15), .popR64 (some .r14), .popR64 (some .r13), .popR64 (some .r12),
    .popR64 (some .rbp)]

def storePcCalls (pc : Address) : List EmitCall :=
  [.movR64Imm64 (some .rax) pc, .storeR64RbpOffset (some .rax) (BitVec.ofNat 32 offsetPc)]

def prologueCalls : List EmitCall :=
  [.pushR64 (some .rbp), .pushR64 (some .r12), .pushR64 (some .r13), .pushR64 (some .r14),
    .pushR64 (some .r15), .movR64R64 (some .rbp) abiArg1]

theorem emitStorePc_calls (a : Assembler) (pc : Address) :
    a.emitStorePc pc = (storePcCalls pc).foldl EmitCall.apply a := by
  simp only [storePcCalls, List.foldl_cons, List.foldl_nil, EmitCall.apply, Assembler.emitStorePc]

theorem emitPrologue_calls (a : Assembler) :
    a.emitPrologue = prologueCalls.foldl EmitCall.apply a := by
  simp only [prologueCalls, List.foldl_cons, List.foldl_nil, EmitCall.apply, Assembler.emitPrologue]

theorem emitEpilogue_calls (a : Assembler) :
    a.emitEpilogue = (restoreCalls ++ [EmitCall.ret]).foldl EmitCall.apply a := by
  simp only [restoreCalls, List.cons_append, List.nil_append, List.foldl_cons, List.foldl_nil,
    EmitCall.apply, Assembler.emitEpilogue]

theorem emitShortEpilogue_calls (a : Assembler) :
    a.emitShortEpilogue = [EmitCall.popR64 (some .rbp), .ret].foldl EmitCall.apply a := by
  simp only [List.foldl_cons, List.foldl_nil, EmitCall.apply, Assembler.emitShortEpilogue]

theorem Assembler.Closed.emits {P : Assembler → Prop} (hP : Closed P) {a : Assembler}
    (calls : List EmitCall) (h : P a) : P (calls.foldl EmitCall.apply a) := by
  induction calls generalizing a with
  | nil => exact h
  | cons call calls ih =>
      obtain ⟨encoding, -, -, happly⟩ := call.apply_eq_emit
      refine ih ?_
      rw [happly]
      exact hP.emit call.poisons encoding h

namespace Relocation

variable (ρ : Relocation)

def Inside (a : Assembler) : Prop := a.status = .success ∧ a.offset ≤ ρ.limit

structure Pairs (a a' : Assembler) : Prop where
  status : a.status = .success
  status' : a'.status = .success
  offset_eq : a.offset + ρ.target = a'.offset + ρ.source
  capacity_eq : a'.capacity = ρ.capacity

structure Relates (c c' : Compiler) : Prop where
  assembler : ρ.Pairs c.assembler c'.assembler
  window_eq : c'.window = c.window
  allocator_eq : c'.allocator = c.allocator
  status_eq : c'.status = c.status

variable {ρ} {a a' : Assembler} {c c' : Compiler}

/-- A translation that has failed or left the common part does not come back. -/
theorem outside : Assembler.Closed fun a => ¬ρ.Inside a where
  emit := by
    intro a poisons encoding hout hin
    obtain ⟨hstatus, e, -, -, hwrite⟩ := Assembler.emit_success hin.1
    refine hout ⟨hstatus, ?_⟩
    have hoffset := hin.2
    rw [hwrite] at hoffset
    exact le_trans (Nat.le_add_right _ _) hoffset
  refuse := by
    intro a hstatus hout hin
    cases hin.1

/-! ### Emits -/

namespace Pairs

/-- The one place where room is compared: no call asks for more bytes than it writes. -/
theorem call (h : ρ.Pairs a a') (call : EmitCall) (hin : ρ.Inside (call.apply a)) :
    ρ.Pairs (call.apply a) (call.apply a') := by
  obtain ⟨encoding, hencoding, -, happly⟩ := call.apply_eq_emit
  have hin' : ρ.Inside (a.emit call.poisons encoding) := happly a ▸ hin
  obtain ⟨-, e, rfl, -, hwrite⟩ := Assembler.emit_success hin'.1
  have hlength := hencoding.length_eq
  have hlimit : a.offset + e.bytes.length ≤ ρ.limit := by
    have hoffset := hin'.2
    rw [hwrite] at hoffset
    exact hoffset
  have hfits := ρ.fits
  have haddressable := ρ.addressable
  have hoffset := h.offset_eq
  have hcapacity := h.capacity_eq
  have hroom : a'.canEmit e.instructionSizeBytes = true := by
    simp only [Assembler.canEmit, Bool.and_eq_true, Bool.not_eq_true', decide_eq_false_iff_not]
    omega
  have hwrite' : a'.emit call.poisons (some e) = a'.write e.bytes := by
    simp [Assembler.emit, h.status', hroom]
  rw [happly, happly, hwrite, hwrite']
  refine ⟨h.status, h.status', ?_, h.capacity_eq⟩
  simp only [Assembler.write]
  omega

theorem callAll (h : ρ.Pairs a a') (calls : List EmitCall)
    (hin : ρ.Inside (calls.foldl EmitCall.apply a)) :
    ρ.Pairs (calls.foldl EmitCall.apply a) (calls.foldl EmitCall.apply a') := by
  induction calls generalizing a a' with
  | nil => exact h
  | cons call calls ih =>
      refine ih (h.call call ?_) hin
      by_contra hout
      exact outside.emits calls hout hin

theorem checkBranchOffset (h : ρ.Pairs a a') {offset : BitVec 64} (call : BitVec 32 → EmitCall)
    (hin : ρ.Inside (Ballistic.checkBranchOffset a offset fun v => (call v).apply a)) :
    ρ.Pairs (Ballistic.checkBranchOffset a offset fun v => (call v).apply a)
      (Ballistic.checkBranchOffset a' offset fun v => (call v).apply a') := by
  unfold Ballistic.checkBranchOffset at hin ⊢
  split
  · next hoffset =>
      rw [if_pos hoffset] at hin
      exact h.call _ hin
  · next hoffset =>
      rw [if_neg hoffset] at hin
      cases hin.1

theorem flushSingleMacro (h : ρ.Pairs a a') (m : Macro)
    (hin : ρ.Inside (Ballistic.flushSingleMacro a m)) :
    ρ.Pairs (Ballistic.flushSingleMacro a m) (Ballistic.flushSingleMacro a' m) := by
  simp only [Ballistic.flushSingleMacro, h.status, h.status', ne_eq, not_true_eq_false,
    if_false] at hin ⊢
  generalize m.opcode = opcode at hin ⊢
  cases opcode with
  | nop | ret | testRegisterRegister => exact h
  | addCpuIcount => exact h.call (.addMem64RbpOffsetImm _ _) hin
  | addRegisterImmediate => exact h.call (.addR64Imm32 _ _) hin
  | addRegisterRegister => exact h.call (.addR64R64 _ _) hin
  | andRegisterImmediate => exact h.callAll [.movR64Imm64 _ _, .andR64R64 _ _] hin
  | andRegisterRegister => exact h.call (.andR64R64 _ _) hin
  | jccRelative => exact h.checkBranchOffset (.jccRel32 m.condition) hin
  | jmpRegister => exact h.call (.jmpR64 _) hin
  | jmpRelative => exact h.checkBranchOffset .jmpRel32 hin
  | load => exact h.call (.loadR64RbpOffset _ _) hin
  | movRegisterImmediate => exact h.call (.movR64Imm64 _ _) hin
  | movRegisterRegister => exact h.call (.movR64R64 _ _) hin
  | orRegisterImmediate => exact h.callAll [.movR64Imm64 _ _, .orR64R64 _ _] hin
  | orRegisterRegister => exact h.call (.orR64R64 _ _) hin
  | rorRegisterImmediate => exact h.call (.rorR64Imm8 _ _) hin
  | sarRegisterImmediate => exact h.call (.sarR64Imm8 _ _) hin
  | setcc => exact h.call (.setccMem8RbpOffset _ _) hin
  | shlRegisterImmediate => exact h.call (.shlR64Imm8 _ _) hin
  | shrRegisterImmediate => exact h.call (.shrR64Imm8 _ _) hin
  | store => exact h.call (.storeR64RbpOffset _ _) hin
  | subRegisterImmediate => exact h.call (.subR64Imm32 _ _) hin
  | subRegisterRegister => exact h.call (.subR64R64 _ _) hin
  | ud2 => exact h.call .ud2 hin
  | xorRegisterRegister => exact h.call (.xorR64R64 _ _) hin

theorem flushMacros (h : ρ.Pairs a a') (macros : List Macro)
    (hin : ρ.Inside (Ballistic.flushMacros a macros)) :
    ρ.Pairs (Ballistic.flushMacros a macros) (Ballistic.flushMacros a' macros) := by
  induction macros generalizing a a' with
  | nil => exact h
  | cons m macros ih =>
      have hfirst : ρ.Inside (Ballistic.flushSingleMacro a m) := by
        by_contra hout
        exact outside.flushMacros macros hout hin
      exact ih (h.flushSingleMacro m hfirst) hin

theorem emitStorePc (h : ρ.Pairs a a') (pc : Address) (hin : ρ.Inside (a.emitStorePc pc)) :
    ρ.Pairs (a.emitStorePc pc) (a'.emitStorePc pc) := by
  rw [emitStorePc_calls] at hin
  rw [emitStorePc_calls, emitStorePc_calls]
  exact h.callAll _ hin

theorem emitPrologue (h : ρ.Pairs a a') (hin : ρ.Inside a.emitPrologue) :
    ρ.Pairs a.emitPrologue a'.emitPrologue := by
  rw [emitPrologue_calls] at hin
  rw [emitPrologue_calls, emitPrologue_calls]
  exact h.callAll _ hin

theorem emitEpilogue (h : ρ.Pairs a a') (hin : ρ.Inside a.emitEpilogue) :
    ρ.Pairs a.emitEpilogue a'.emitEpilogue := by
  rw [emitEpilogue_calls] at hin
  rw [emitEpilogue_calls, emitEpilogue_calls]
  exact h.callAll _ hin

theorem emitShortEpilogue (h : ρ.Pairs a a') (hin : ρ.Inside a.emitShortEpilogue) :
    ρ.Pairs a.emitShortEpilogue a'.emitShortEpilogue := by
  rw [emitShortEpilogue_calls] at hin
  rw [emitShortEpilogue_calls, emitShortEpilogue_calls]
  exact h.callAll _ hin

end Pairs

/-! ### The compiler -/

namespace Relates

theorem withAllocator (h : ρ.Relates c c') (r : RegisterAllocator) :
    ρ.Relates { c with allocator := r } { c' with allocator := r } :=
  ⟨h.assembler, h.window_eq, rfl, h.status_eq⟩

theorem setDirty (h : ρ.Relates c c') (arm : Nat) : ρ.Relates (c.setDirty arm) (c'.setDirty arm) := by
  unfold Compiler.setDirty
  rw [h.allocator_eq]
  exact h.withAllocator _

theorem withStatus (h : ρ.Relates c c') (status : BalError) :
    ρ.Relates { c with status := status } { c' with status := status } :=
  ⟨h.assembler, h.window_eq, h.allocator_eq, rfl⟩

theorem push (h : ρ.Relates c c') (m : Macro) (hin : ρ.Inside (c.push m).assembler) :
    ρ.Relates (c.push m) (c'.push m) := by
  simp only [Compiler.push, slidingWindowPush] at hin ⊢
  rw [h.window_eq]
  by_cases hfull : c.window.macros.length = slidingWindowCapacity
  · simp only [hfull, dite_true] at hin ⊢
    have hflushed := h.assembler.flushMacros _ hin
    refine ⟨hflushed, ?_, h.allocator_eq, h.status_eq⟩
    simp only [hflushed.status, hflushed.status']
  · simp only [hfull, dite_false] at hin ⊢
    refine ⟨h.assembler, ?_, h.allocator_eq, h.status_eq⟩
    simp only [h.assembler.status, h.assembler.status']

theorem pushAll (h : ρ.Relates c c') (macros : List Macro)
    (hin : ρ.Inside (c.pushAll macros).assembler) :
    ρ.Relates (c.pushAll macros) (c'.pushAll macros) := by
  induction macros generalizing c c' with
  | nil => exact h
  | cons m macros ih =>
      have hfirst : ρ.Inside (c.push m).assembler := by
        by_contra hout
        exact outside.pushAll macros hout hin
      exact ih (h.push m hfirst) hin

theorem flushAll (h : ρ.Relates c c') (hin : ρ.Inside c.flushAll.assembler) :
    ρ.Relates c.flushAll c'.flushAll := by
  simp only [Compiler.flushAll, slidingWindowFlushAll] at hin ⊢
  rw [h.window_eq]
  exact ⟨h.assembler.flushMacros _ hin, rfl, h.allocator_eq, h.status_eq⟩

theorem flushDirtyRegisters (h : ρ.Relates c c') (hin : ρ.Inside c.flushDirtyRegisters.assembler) :
    ρ.Relates c.flushDirtyRegisters c'.flushDirtyRegisters := by
  unfold Compiler.flushDirtyRegisters at hin ⊢
  rw [h.allocator_eq]
  exact h.pushAll _ hin

theorem flushDirty (h : ρ.Relates c c') (hin : ρ.Inside c.flushDirtyRegisters.flushAll.assembler) :
    ρ.Relates c.flushDirtyRegisters.flushAll c'.flushDirtyRegisters.flushAll := by
  refine (h.flushDirtyRegisters ?_).flushAll hin
  by_contra hout
  exact outside.flushAll hout hin

theorem onAssembler (h : ρ.Relates c c') {f : Assembler → Assembler}
    (hf : ρ.Pairs (f c.assembler) (f c'.assembler)) :
    ρ.Relates (c.onAssembler f) (c'.onAssembler f) :=
  ⟨hf, h.window_eq, h.allocator_eq, h.status_eq⟩

/-! ### Registers -/

theorem evictX86Register (h : ρ.Relates c c') (x : Reg)
    (hin : ρ.Inside (c.evictX86Register x).assembler) :
    ρ.Relates (c.evictX86Register x) (c'.evictX86Register x) := by
  unfold Compiler.evictX86Register at hin ⊢
  rw [h.allocator_eq]
  split
  · exact h
  · next arm harm =>
      rw [harm] at hin
      simp only at hin ⊢
      by_cases hdirty : c.allocator.dirty arm = true
      · simp only [hdirty, if_true] at hin ⊢
        have hpushed := h.push _ hin
        refine ⟨hpushed.assembler, hpushed.window_eq, ?_, hpushed.status_eq⟩
        rw [hpushed.allocator_eq]
      · simp only [hdirty, Bool.false_eq_true, if_false] at hin ⊢
        refine ⟨h.assembler, h.window_eq, ?_, h.status_eq⟩
        rw [h.allocator_eq]

theorem takeRegister (h : ρ.Relates c c') (hin : ρ.Inside c.takeRegister.2.assembler) :
    c'.takeRegister.1 = c.takeRegister.1 ∧ ρ.Relates c.takeRegister.2 c'.takeRegister.2 := by
  unfold Compiler.takeRegister at hin ⊢
  rw [h.allocator_eq]
  split
  · exact ⟨rfl, h⟩
  · next hfree =>
      rw [hfree] at hin
      split
      · next clean hclean =>
          simp only [hclean] at hin
          exact ⟨rfl, h.evictX86Register clean hin⟩
      · next hclean =>
          simp only [hclean] at hin
          exact ⟨rfl, (h.withAllocator c.allocator.advanceCursor).evictX86Register _ hin⟩

theorem allocateX86Register (h : ρ.Relates c c') (arm : Nat) (skipLoad : Bool)
    (hin : ρ.Inside (c.allocateX86Register arm skipLoad).2.assembler) :
    (c'.allocateX86Register arm skipLoad).1 = (c.allocateX86Register arm skipLoad).1 ∧
      ρ.Relates (c.allocateX86Register arm skipLoad).2 (c'.allocateX86Register arm skipLoad).2 := by
  simp only [Compiler.allocateX86Register, h.status_eq, h.assembler.status, h.assembler.status',
    h.allocator_eq] at hin ⊢
  by_cases hstatus : c.status ≠ .success
  · simp only [if_pos hstatus]
    exact ⟨trivial, h⟩
  simp only [if_neg hstatus, ne_eq, not_true_eq_false, if_false] at hin ⊢
  by_cases hrange : arm < 32
  · simp only [dif_pos hrange] at hin ⊢
    cases hcached : c.allocator.armToX86 ⟨arm, hrange⟩ with
    | some cached =>
        simp only
        split
        · exact ⟨rfl, h.assembler, h.window_eq, rfl, rfl⟩
        · split
          · exact ⟨rfl, h.assembler, h.window_eq, rfl, rfl⟩
          · exact ⟨rfl, h⟩
    | none =>
        simp only [hcached] at hin ⊢
        have hinside : ρ.Inside c.takeRegister.2.assembler := by
          by_contra hout
          split at hin
          · exact hout hin
          · exact outside.push (c := { c.takeRegister.2 with
              allocator := c.takeRegister.2.allocator.map _ c.takeRegister.1 }) hout _ hin
        obtain ⟨hreg, htaken⟩ := h.takeRegister hinside
        rw [hreg, htaken.allocator_eq]
        have hmapped := htaken.withAllocator
          (c.takeRegister.2.allocator.map ⟨arm, hrange⟩ c.takeRegister.1)
        refine ⟨rfl, ?_⟩
        split
        · exact hmapped
        · next hskip =>
            rw [if_neg hskip] at hin
            exact hmapped.push _ hin
  · simp only [dif_neg hrange]
    exact ⟨trivial, h.assembler, h.window_eq, rfl, rfl⟩

/-! ### Translators -/

theorem prepareDestination (h : ρ.Relates c c') (rd : Nat) (x : X86Register) (discarded : Bool)
    (hin : ρ.Inside (c.prepareDestination rd x discarded).2.assembler) :
    (c'.prepareDestination rd x discarded).1 = (c.prepareDestination rd x discarded).1 ∧
      ρ.Relates (c.prepareDestination rd x discarded).2 (c'.prepareDestination rd x discarded).2 := by
  simp only [Compiler.prepareDestination] at hin ⊢
  by_cases hdiscarded : discarded = true
  · simp only [hdiscarded, if_true] at hin ⊢
    exact ⟨trivial, h.push _ hin⟩
  · simp only [hdiscarded, Bool.false_eq_true, if_false] at hin ⊢
    have hallocated : ρ.Inside (c.allocateX86Register rd true).2.assembler := by
      by_contra hout
      split at hin
      · exact outside.push hout _ hin
      · exact hout hin
    obtain ⟨hreg, hd⟩ := h.allocateX86Register rd true hallocated
    rw [hreg]
    refine ⟨rfl, ?_⟩
    split
    · next hcopies =>
        rw [if_pos hcopies] at hin
        exact hd.push _ hin
    · exact hd

theorem finishAddSub (h : ρ.Relates c c') (metadata : Metadata) (rd : Nat) (isSub : Bool)
    (arithmetic : Macro)
    (hin : ρ.Inside (c.finishAddSub metadata rd isSub arithmetic).assembler) :
    ρ.Relates (c.finishAddSub metadata rd isSub arithmetic)
      (c'.finishAddSub metadata rd isSub arithmetic) := by
  simp only [Compiler.finishAddSub] at hin ⊢
  have hflags : ρ.Inside (if Compiler.isSettingFlags metadata then
      (c.push arithmetic).pushAll (Compiler.setFlagsMacros isSub)
      else c.push arithmetic).assembler := by
    split at hin <;> exact hin
  have hpushed : ρ.Inside (c.push arithmetic).assembler := by
    by_contra hout
    split at hflags
    · exact outside.pushAll _ hout hflags
    · exact hout hflags
  have harithmetic := h.push arithmetic hpushed
  have hrelates : ρ.Relates
      (if Compiler.isSettingFlags metadata then
        (c.push arithmetic).pushAll (Compiler.setFlagsMacros isSub) else c.push arithmetic)
      (if Compiler.isSettingFlags metadata then
        (c'.push arithmetic).pushAll (Compiler.setFlagsMacros isSub) else c'.push arithmetic) := by
    split
    · next hsets =>
        rw [if_pos hsets] at hflags
        exact harithmetic.pushAll _ hflags
    · exact harithmetic
  by_cases hdiscarded : (Compiler.isSettingFlags metadata && rd == 31) = true
  · simp only [hdiscarded, if_true]
    exact hrelates
  · simp only [hdiscarded, Bool.false_eq_true, if_false]
    exact hrelates.setDirty rd

theorem translateAddSubImm (h : ρ.Relates c c') (metadata : Metadata) (w : BitVec 32) (isSub : Bool)
    (hin : ρ.Inside (c.translateAddSubImm metadata w isSub).assembler) :
    ρ.Relates (c.translateAddSubImm metadata w isSub) (c'.translateAddSubImm metadata w isSub) := by
  simp only [Compiler.translateAddSubImm] at hin ⊢
  have hprepared := not_imp_not.mp (fun hout => outside.finishAddSub hout _ _ _ _) hin
  have hallocated := not_imp_not.mp (fun hout => outside.prepareDestination hout _ _ _) hprepared
  obtain ⟨hn, hrelates⟩ := h.allocateX86Register _ _ hallocated
  rw [hn]
  obtain ⟨hd, hrelates'⟩ := hrelates.prepareDestination _ _ _ hprepared
  rw [hd]
  exact hrelates'.finishAddSub _ _ _ _ hin

theorem translateAddSubReg (h : ρ.Relates c c') (metadata : Metadata) (w : BitVec 32) (isSub : Bool)
    (hin : ρ.Inside (c.translateAddSubReg metadata w isSub).assembler) :
    ρ.Relates (c.translateAddSubReg metadata w isSub) (c'.translateAddSubReg metadata w isSub) := by
  simp only [Compiler.translateAddSubReg] at hin ⊢
  split
  · exact h.withStatus _
  · next hshift =>
      rw [if_neg hshift] at hin
      have hprepared := not_imp_not.mp (fun hout => outside.finishAddSub hout _ _ _ _) hin
      have hm := not_imp_not.mp (fun hout => outside.prepareDestination hout _ _ _) hprepared
      have hn := not_imp_not.mp (fun hout => outside.allocateX86Register hout _ _) hm
      obtain ⟨hnreg, hnrelates⟩ := h.allocateX86Register _ _ hn
      obtain ⟨hmreg, hmrelates⟩ := hnrelates.allocateX86Register _ _ hm
      rw [hnreg, hmreg]
      obtain ⟨hdreg, hdrelates⟩ := hmrelates.prepareDestination _ _ _ hprepared
      rw [hdreg]
      exact hdrelates.finishAddSub _ _ _ _ hin

theorem translateMovImmediate (h : ρ.Relates c c') (metadata : Metadata) (w : BitVec 32)
    (hin : ρ.Inside (c.translateMovImmediate metadata w).assembler) :
    ρ.Relates (c.translateMovImmediate metadata w) (c'.translateMovImmediate metadata w) := by
  rw [Compiler.translateMovImmediate_eq] at hin
  rw [Compiler.translateMovImmediate_eq, Compiler.translateMovImmediate_eq]
  have hallocated := not_imp_not.mp (fun hout => outside.pushAll _ hout) hin
  obtain ⟨hd, hrelates⟩ := h.allocateX86Register _ _ hallocated
  rw [hd]
  exact (hrelates.pushAll _ hin).setDirty _

theorem translateMovRegister (h : ρ.Relates c c') (metadata : Metadata) (w : BitVec 32)
    (hin : ρ.Inside (c.translateMovRegister metadata w).assembler) :
    ρ.Relates (c.translateMovRegister metadata w) (c'.translateMovRegister metadata w) := by
  simp only [Compiler.translateMovRegister, h.status_eq] at hin ⊢
  split
  · exact h
  · next hstatus =>
      rw [if_neg hstatus] at hin
      have hd := not_imp_not.mp (fun hout => outside.push hout _) hin
      have hm := not_imp_not.mp (fun hout => outside.allocateX86Register hout _ _) hd
      obtain ⟨hmreg, hmrelates⟩ := h.allocateX86Register _ _ hm
      obtain ⟨hdreg, hdrelates⟩ := hmrelates.allocateX86Register _ _ hd
      rw [hmreg, hdreg]
      exact (hdrelates.push _ hin).setDirty _

theorem translateAnd (h : ρ.Relates c c') (metadata : Metadata) (w : BitVec 32)
    (hin : ρ.Inside (c.translateAnd metadata w).assembler) :
    ρ.Relates (c.translateAnd metadata w) (c'.translateAnd metadata w) := by
  simp only [Compiler.translateAnd] at hin ⊢
  by_cases hname : metadata.nameAt 3 = 'S'
  · simp only [hname, if_true]
    exact h.withStatus _
  by_cases hshift : extractOperandValue w (metadata.operand 2) = 0
  swap
  · simp only [hname, hshift, if_false, ne_eq, not_false_eq_true, if_true]
    exact h.withStatus _
  simp only [hname, hshift, if_false, ne_eq, not_true_eq_false] at hin ⊢
  generalize Compiler.registerOperand metadata w 0 = rd at hin ⊢
  generalize Compiler.registerOperand metadata w 1 = rn at hin ⊢
  generalize Compiler.registerOperand metadata w 3 = rm at hin ⊢
  have hd : ρ.Inside (((c.allocateX86Register rn false).2.allocateX86Register rm
      false).2.allocateX86Register rd true).2.assembler := by
    by_contra hout
    refine absurd hin ?_
    split
    · exact hout
    · refine outside.push ?_ _
      split
      · exact outside.push hout _
      · split
        · exact hout
        · split
          · exact outside.push hout _
          · exact hout
  have hm := not_imp_not.mp (fun hout => outside.allocateX86Register hout _ _) hd
  have hn := not_imp_not.mp (fun hout => outside.allocateX86Register hout _ _) hm
  obtain ⟨hnreg, hnrelates⟩ := h.allocateX86Register _ _ hn
  obtain ⟨hmreg, hmrelates⟩ := hnrelates.allocateX86Register _ _ hm
  obtain ⟨hdreg, hdrelates⟩ := hmrelates.allocateX86Register _ _ hd
  rw [hnreg, hmreg, hdreg]
  generalize ((c.allocateX86Register rn false).2.allocateX86Register rm
    false).2.allocateX86Register rd true = d at *
  generalize ((c'.allocateX86Register rn false).2.allocateX86Register rm
    false).2.allocateX86Register rd true = d' at *
  generalize (c.allocateX86Register rn false).2.allocateX86Register rm false = m at *
  generalize c.allocateX86Register rn false = n at *
  by_cases hinvalid : d.1 = none ∨ n.1 = none ∨ m.1 = none
  · simp only [if_pos hinvalid]
    exact hdrelates.withStatus _
  simp only [if_neg hinvalid] at hin ⊢
  refine (push ?_ _ hin).setDirty rd
  have hcopied := not_imp_not.mp (fun hout => outside.push hout _) hin
  split
  · next hzero =>
      rw [if_pos hzero] at hcopied
      exact hdrelates.push _ hcopied
  · next hzero =>
      rw [if_neg hzero] at hcopied
      split
      · exact hdrelates
      · next hsame =>
          rw [if_neg hsame] at hcopied
          split
          · next hcopies =>
              rw [if_pos hcopies] at hcopied
              exact hdrelates.push _ hcopied
          · exact hdrelates

theorem terminateBlockConditional (h : ρ.Relates c c') (condition : Condition)
    (fallthroughPc takenPc : Address)
    (hin : ρ.Inside (c.terminateBlockConditional condition fallthroughPc takenPc).assembler) :
    ρ.Relates (c.terminateBlockConditional condition fallthroughPc takenPc)
      (c'.terminateBlockConditional condition fallthroughPc takenPc) := by
  simp only [Compiler.terminateBlockConditional, Compiler.onAssembler_assembler] at hin ⊢
  have hstored := not_imp_not.mp (fun hout => outside.emitShortEpilogue hout) hin
  have hflushed := not_imp_not.mp (fun hout => outside.emitStorePc hout takenPc) hstored
  have hdirty := not_imp_not.mp
    (fun hout => outside.flushAll (outside.flushDirtyRegisters hout)) hflushed
  simp only [Compiler.onAssembler_assembler] at hdirty
  have hstored' := not_imp_not.mp (fun hout => outside.emitEpilogue hout) hdirty
  have hflushed' := not_imp_not.mp (fun hout => outside.emitStorePc hout fallthroughPc) hstored'
  have hdirty' := not_imp_not.mp
    (fun hout => outside.flushAll (outside.flushDirtyRegisters hout)) hflushed'
  simp only [Compiler.onAssembler_assembler] at hdirty'
  have hall := not_imp_not.mp (fun hout => outside.emitJccRel32 hout condition _) hdirty'
  have hwindow := h.flushAll hall
  rw [hwindow.allocator_eq]
  have hjumped := hwindow.onAssembler (f := (Assembler.emitJccRel32 · condition _))
    (hwindow.assembler.call (.jccRel32 condition _) hdirty')
  have hfirst := hjumped.flushDirty hflushed'
  have hleft := hfirst.onAssembler (f := fun a => (a.emitStorePc fallthroughPc).emitEpilogue)
    ((hfirst.assembler.emitStorePc fallthroughPc hstored').emitEpilogue hdirty)
  have hsecond := hleft.flushDirty hflushed
  exact hsecond.onAssembler ((hsecond.assembler.emitStorePc takenPc hstored).emitShortEpilogue hin)

theorem translateBCond (h : ρ.Relates c c') (w : BitVec 32) (pc : Address)
    (hin : ρ.Inside (c.translateBCond w pc).assembler) :
    ρ.Relates (c.translateBCond w pc) (c'.translateBCond w pc) := by
  simp only [Compiler.translateBCond] at hin ⊢
  split
  · next halways =>
      rw [if_pos halways] at hin
      simp only [Compiler.onAssembler_assembler] at hin
      have hstored := not_imp_not.mp (fun hout => outside.emitShortEpilogue hout) hin
      have hflushed := not_imp_not.mp (fun hout => outside.emitStorePc hout _) hstored
      have hrelates := h.flushDirty hflushed
      exact hrelates.onAssembler ((hrelates.assembler.emitStorePc _ hstored).emitShortEpilogue hin)
  · next halways =>
      rw [if_neg halways] at hin
      split
      · exact h.withStatus _
      · next flag =>
          rw [flag] at hin
          have hcompared := not_imp_not.mp
            (fun hout => outside.terminateBlockConditional hout _ _ _) hin
          simp only [Compiler.onAssembler_assembler] at hcompared
          have hflushed := not_imp_not.mp
            (fun hout => outside.emitCmpMem8RbpOffsetImm hout _ _) hcompared
          have hrelates := h.flushAll hflushed
          exact (hrelates.onAssembler (hrelates.assembler.call (.cmpMem8RbpOffsetImm _ _)
            hcompared)).terminateBlockConditional _ _ _ hin

theorem translateCbzCbnz (h : ρ.Relates c c') (metadata : Metadata) (w : BitVec 32) (pc : Address)
    (isCbnz : Bool) (hin : ρ.Inside (c.translateCbzCbnz metadata w pc isCbnz).assembler) :
    ρ.Relates (c.translateCbzCbnz metadata w pc isCbnz)
      (c'.translateCbzCbnz metadata w pc isCbnz) := by
  simp only [Compiler.translateCbzCbnz] at hin ⊢
  have htested := not_imp_not.mp (fun hout => outside.terminateBlockConditional hout _ _ _) hin
  have hallocated := not_imp_not.mp (fun hout => outside.push hout _) htested
  obtain ⟨hreg, hrelates⟩ := h.allocateX86Register _ _ hallocated
  rw [hreg]
  exact (hrelates.push _ htested).terminateBlockConditional _ _ _ hin

end Relates

/-! ### Loops -/

variable (ρ) in
/-- The mappings for the debugger are left out: nothing else depends on them. -/
structure RelatesStates (s s' : LoopState) : Prop where
  compiler : ρ.Relates s.compiler s'.compiler
  guestAddress_eq : s'.guestAddress = s.guestAddress
  isBlockTerminated_eq : s'.isBlockTerminated = s.isBlockTerminated
  isPcDynamic_eq : s'.isPcDynamic = s.isPcDynamic
  armInstructionCount_eq : s'.armInstructionCount = s.armInstructionCount

namespace RelatesStates

variable {s s' : LoopState}

theorem withCompiler (h : ρ.RelatesStates s s') (hc : ρ.Relates c c') :
    ρ.RelatesStates (s.withCompiler c) (s'.withCompiler c') :=
  ⟨hc, h.guestAddress_eq, h.isBlockTerminated_eq, h.isPcDynamic_eq, h.armInstructionCount_eq⟩

theorem terminate (h : ρ.RelatesStates s s') : ρ.RelatesStates s.terminate s'.terminate :=
  ⟨h.compiler, h.guestAddress_eq, rfl, h.isPcDynamic_eq, h.armInstructionCount_eq⟩

theorem translateMov (h : ρ.RelatesStates s s') (metadata : Metadata) (w : BitVec 32)
    (hin : ρ.Inside (s.translateMov metadata w).compiler.assembler) :
    ρ.RelatesStates (s.translateMov metadata w) (s'.translateMov metadata w) := by
  simp only [LoopState.translateMov] at hin ⊢
  split
  · next hvariant =>
      rw [if_pos hvariant] at hin
      exact h.withCompiler (h.compiler.translateMovImmediate metadata w hin)
  · next hvariant =>
      rw [if_neg hvariant] at hin
      split
      · next hregister =>
          rw [if_pos hregister] at hin
          exact (h.withCompiler (h.compiler.translateMovRegister metadata w hin)).terminate
      · exact h.terminate

theorem translateAddSub (h : ρ.RelatesStates s s') (metadata : Metadata) (w : BitVec 32)
    (hin : ρ.Inside (s.translateAddSub metadata w).compiler.assembler) :
    ρ.RelatesStates (s.translateAddSub metadata w) (s'.translateAddSub metadata w) := by
  simp only [LoopState.translateAddSub] at hin ⊢
  split
  · next hregister =>
      rw [if_pos hregister] at hin
      exact h.withCompiler (h.compiler.translateAddSubReg metadata w _ hin)
  · next hregister =>
      rw [if_neg hregister] at hin
      split
      · next himmediate =>
          rw [if_pos himmediate] at hin
          exact h.withCompiler (h.compiler.translateAddSubImm metadata w _ hin)
      · exact h.terminate

theorem translateReturn (h : ρ.RelatesStates s s') (metadata : Metadata) (w : BitVec 32)
    (hin : ρ.Inside (s.translateReturn metadata w).compiler.assembler) :
    ρ.RelatesStates (s.translateReturn metadata w) (s'.translateReturn metadata w) := by
  simp only [LoopState.translateReturn] at hin ⊢
  have hallocated := not_imp_not.mp (fun hout => outside.push hout _) hin
  obtain ⟨hreg, hrelates⟩ := h.compiler.allocateX86Register _ _ hallocated
  rw [hreg]
  exact ⟨hrelates.push _ hin, h.guestAddress_eq, rfl, rfl, h.armInstructionCount_eq⟩

theorem translateOpcode (h : ρ.RelatesStates s s') (metadata : Metadata) (w : BitVec 32)
    (hin : ρ.Inside (s.translateOpcode metadata w).compiler.assembler) :
    ρ.RelatesStates (s.translateOpcode metadata w) (s'.translateOpcode metadata w) := by
  unfold LoopState.translateOpcode at hin ⊢
  generalize metadata.irOpcode = opcode at hin ⊢
  cases opcode with
  | mov => exact h.translateMov metadata w hin
  | add | sub | cmp => exact h.translateAddSub metadata w hin
  | jump =>
      simp only [h.guestAddress_eq]
      exact ⟨h.compiler, rfl, rfl, h.isPcDynamic_eq, h.armInstructionCount_eq⟩
  | branchZero | branchNotZero =>
      simp only [h.guestAddress_eq] at hin ⊢
      exact (h.withCompiler (h.compiler.translateCbzCbnz metadata w _ _ hin)).terminate
  | branchConditional =>
      simp only [h.guestAddress_eq] at hin ⊢
      exact (h.withCompiler (h.compiler.translateBCond w _ hin)).terminate
  | «return» => exact h.translateReturn metadata w hin
  | trap =>
      have hflushed : ρ.Inside s.compiler.flushAll.assembler := by
        by_contra hout
        exact outside.push hout { opcode := .ud2 } hin
      have hpushed := (h.compiler.flushAll hflushed).push { opcode := .ud2 } hin
      exact (h.withCompiler (hpushed.withStatus _)).terminate
  | and => exact h.withCompiler (h.compiler.translateAnd metadata w hin)
  | load | store | xor | mul | div | callHost =>
      exact (h.withCompiler (h.compiler.withStatus _)).terminate

theorem failed_eq (h : ρ.RelatesStates s s') : s'.failed = s.failed := by
  simp only [LoopState.failed, h.compiler.status_eq, h.compiler.assembler.status,
    h.compiler.assembler.status']

theorem recordFailure (h : ρ.RelatesStates s s') :
    ρ.RelatesStates s.recordFailure s'.recordFailure := by
  refine ⟨⟨h.compiler.assembler, h.compiler.window_eq, h.compiler.allocator_eq, ?_⟩,
    h.guestAddress_eq, rfl, h.isPcDynamic_eq, h.armInstructionCount_eq⟩
  simp only [LoopState.recordFailure, h.compiler.status_eq, h.compiler.assembler.status,
    h.compiler.assembler.status']

variable {input : TranslateInput} {base : Address} {blockOffset : Nat} (blockOffset' : Nat)

theorem counts (h : ρ.RelatesStates s s') {s₁ s₁' : LoopState} (hcounts : s.Counts s₁)
    (hcounts' : s'.Counts s₁') : ρ.RelatesStates s₁ s₁' := by
  obtain ⟨mappings, rfl⟩ := hcounts
  obtain ⟨mappings', rfl⟩ := hcounts'
  refine ⟨h.compiler, h.guestAddress_eq, h.isBlockTerminated_eq, h.isPcDynamic_eq, ?_⟩
  simp only [h.armInstructionCount_eq]

theorem translateInstruction (h : ρ.RelatesStates s s') (i : Nat)
    (hin : ρ.Inside
      (Ballistic.translateInstruction input base blockOffset i s).1.compiler.assembler) :
    (Ballistic.translateInstruction input base blockOffset' i s').2 =
        (Ballistic.translateInstruction input base blockOffset i s).2 ∧
      ρ.RelatesStates (Ballistic.translateInstruction input base blockOffset i s).1
        (Ballistic.translateInstruction input base blockOffset' i s').1 := by
  have hword : input.memory.word s'.guestAddress = input.memory.word s.guestAddress := by
    rw [h.guestAddress_eq]
  cases hdecode : balDecodeArm64 input.table (input.memory.word s.guestAddress) with
  | none =>
      rw [translateInstruction_undecoded hdecode,
        translateInstruction_undecoded (hword ▸ hdecode)]
      exact ⟨rfl, h.compiler, h.guestAddress_eq, rfl, h.isPcDynamic_eq, h.armInstructionCount_eq⟩
  | some metadata =>
      have hdecode' : balDecodeArm64 input.table (input.memory.word s'.guestAddress) =
          some metadata := hword ▸ hdecode
      by_cases htrap : isTrapped input.engineFlags metadata = true
      · rw [translateInstruction_trapped hdecode htrap, translateInstruction_trapped hdecode' htrap]
        exact ⟨rfl, h.terminate⟩
      have htrapped : isTrapped input.engineFlags metadata = false := Bool.eq_false_iff.mpr htrap
      have hopcode : ρ.Inside
          (s.translateOpcode metadata (input.memory.word s.guestAddress)).compiler.assembler := by
        by_contra hout
        refine absurd hin ?_
        simp only [Ballistic.translateInstruction, hdecode, htrapped, Bool.false_eq_true, if_false]
        repeat' split
        all_goals exact hout
      have hnext := h.translateOpcode metadata (input.memory.word s.guestAddress) hopcode
      by_cases hfailed :
          (s.translateOpcode metadata (input.memory.word s.guestAddress)).failed = true
      · rw [translateInstruction_failed hdecode htrapped hfailed,
          translateInstruction_failed hdecode' htrapped (by rw [hword, hnext.failed_eq, hfailed]),
          hword]
        exact ⟨rfl, hnext.recordFailure⟩
      have hnot := Bool.eq_false_iff.mpr hfailed
      obtain ⟨s₁, hcounts, heq⟩ := @translateInstruction_counted input base blockOffset i s metadata
        hdecode htrapped _ rfl hnot
      obtain ⟨s₁', hcounts', heq'⟩ := @translateInstruction_counted input base blockOffset' i s'
        metadata hdecode' htrapped _ rfl (by rw [hword, hnext.failed_eq, hnot])
      rw [hword] at hcounts' heq'
      have hrelates := hnext.counts hcounts hcounts'
      rw [heq, heq', hnext.isBlockTerminated_eq, hnext.guestAddress_eq]
      split
      · exact ⟨rfl, hrelates.terminate⟩
      · split
        · exact ⟨rfl, hrelates⟩
        · exact ⟨rfl, hrelates.compiler, rfl, hrelates.isBlockTerminated_eq, hrelates.isPcDynamic_eq,
            hrelates.armInstructionCount_eq⟩

theorem loopStep_next (h : ρ.RelatesStates s s') {p p₁ : LoopPoint} {s₁ : LoopState}
    (hstep : loopStep input base blockOffset p s = .next p₁ s₁)
    (hin : ρ.Inside s₁.compiler.assembler) :
    ∃ s₁', loopStep input base blockOffset' p s' = .next p₁ s₁' ∧ ρ.RelatesStates s₁ s₁' := by
  obtain ⟨bytes, rfl, hopen, hreadable, rfl, rfl⟩ | ⟨i, limit, rfl, hout, rfl, rfl⟩ |
    ⟨i, limit, rfl, hlt, rfl, rfl⟩ := Ballistic.loopStep_next hstep
  · rw [← h.guestAddress_eq] at hreadable
    exact ⟨s', loopStep_readable hreadable (h.isBlockTerminated_eq.trans hopen), h⟩
  · exact ⟨s', by simp only [loopStep, if_neg hout], h⟩
  · obtain ⟨hbreak, hrelates⟩ := h.translateInstruction blockOffset' i hin
    refine ⟨_, ?_, hrelates⟩
    simp only [loopStep, if_pos hlt, hbreak]
    split <;> rfl

theorem loopStep_exit (h : ρ.RelatesStates s s') {p : LoopPoint} {s₁ : LoopState}
    (hstep : loopStep input base blockOffset p s = .exit s₁) :
    ∃ s₁', loopStep input base blockOffset' p s' = .exit s₁' ∧ ρ.RelatesStates s₁ s₁' := by
  cases p with
  | forTest i limit =>
      simp only [loopStep] at hstep
      split at hstep
      · split at hstep <;> cases hstep
      · cases hstep
  | whileTest =>
      simp only [loopStep, h.guestAddress_eq, h.isBlockTerminated_eq] at hstep ⊢
      have hfails (status : BalError) : ρ.RelatesStates
          (s.withCompiler { s.compiler with status := status })
          (s'.withCompiler { s'.compiler with status := status }) :=
        h.withCompiler (h.compiler.withStatus status)
      split
      · next hterminated =>
          rw [if_pos hterminated] at hstep
          cases hstep
          exact ⟨s', rfl, h⟩
      · next hopen =>
          rw [if_neg hopen] at hstep
          split
          · next hunmapped =>
              rw [hunmapped] at hstep
              cases hstep
              exact ⟨_, rfl, hfails _⟩
          · next bytes hmapped =>
              rw [hmapped] at hstep
              simp only at hstep
              split
              · next hbytes =>
                  rw [if_pos hbytes] at hstep
                  cases hstep
                  exact ⟨_, rfl, hfails _⟩
              · next hbytes =>
                  rw [if_neg hbytes] at hstep
                  split
                  · next haligned =>
                      rw [if_pos haligned] at hstep
                      cases hstep
                      exact ⟨_, rfl, hfails _⟩
                  · next haligned =>
                      rw [if_neg haligned] at hstep
                      cases hstep

theorem runLoops (h : ρ.RelatesStates s s') {fuel : Nat} {p : LoopPoint} {s₁ : LoopState}
    (hrun : Ballistic.runLoops input base blockOffset fuel p s = some s₁)
    (hin : ρ.Inside s₁.compiler.assembler) :
    ∃ s₁', Ballistic.runLoops input base blockOffset' fuel p s' = some s₁' ∧
      ρ.RelatesStates s₁ s₁' := by
  induction fuel generalizing p s s' with
  | zero => cases hrun
  | succ fuel ih =>
      rw [Ballistic.runLoops] at hrun
      cases hstep : loopStep input base blockOffset p s with
      | exit s₂ =>
          rw [hstep] at hrun
          cases hrun
          obtain ⟨s₁', hstep', hrelates⟩ := h.loopStep_exit blockOffset' hstep
          refine ⟨s₁', ?_, hrelates⟩
          rw [Ballistic.runLoops, hstep']
      | next p₂ s₂ =>
          rw [hstep] at hrun
          have hin₂ : ρ.Inside s₂.compiler.assembler := by
            by_contra hout
            exact outside.runLoops hout hrun hin
          obtain ⟨s₂', hstep', hrelates⟩ := h.loopStep_next blockOffset' hstep hin₂
          obtain ⟨s₁', hrun', hrelates'⟩ := ih hrelates hrun
          refine ⟨s₁', ?_, hrelates'⟩
          rw [Ballistic.runLoops, hstep']
          exact hrun'

end RelatesStates

end Relocation

/-! ### Blocks -/

/-- `terminate_block` up to its `ret`. -/
def Compiler.restoreBlock (c : Compiler) (nextPc : Address) (isPcDynamic : Bool)
    (armInstructionCount : Nat) (engineFlags : EngineFlags) : Compiler :=
  let c :=
    if engineFlags.has EngineFlags.instructionCounting then
      c.push (immediateMacro .addCpuIcount (some .rbp) (BitVec.ofNat 64 armInstructionCount))
    else c
  let c := c.flushDirtyRegisters.flushAll
  let c := if isPcDynamic then c else c.onAssembler (·.emitStorePc nextPc)
  c.onAssembler (restoreCalls.foldl EmitCall.apply ·)

theorem Compiler.terminateBlock_eq (c : Compiler) (nextPc : Address) (isPcDynamic : Bool)
    (armInstructionCount : Nat) (engineFlags : EngineFlags) :
    c.terminateBlock nextPc isPcDynamic armInstructionCount engineFlags =
      (c.restoreBlock nextPc isPcDynamic armInstructionCount engineFlags).onAssembler
        Assembler.emitRet := by
  simp only [terminateBlock, restoreBlock, onAssembler, emitEpilogue_calls, List.foldl_append,
    List.foldl_cons, List.foldl_nil, EmitCall.apply]

theorem Assembler.Closed.restoreBlock {P : Assembler → Prop} (hP : Closed P) {c : Compiler}
    (h : P c.assembler) (pc : Address) (dynamic : Bool) (count : Nat) (flags : EngineFlags) :
    P (c.restoreBlock pc dynamic count flags).assembler := by
  have hflushed := hP.flushAll (hP.flushDirtyRegisters (hP.counted h count flags))
  simp only [Compiler.restoreBlock, Compiler.onAssembler_assembler]
  refine hP.emits restoreCalls ?_
  cases dynamic with
  | true => exact hflushed
  | false => exact onAssembler (hP.emitStorePc hflushed pc)

theorem Relocation.Relates.restoreBlock {ρ : Relocation} {c c' : Compiler} (h : ρ.Relates c c')
    (pc : Address) (dynamic : Bool) (count : Nat) (flags : EngineFlags)
    (hin : ρ.Inside (c.restoreBlock pc dynamic count flags).assembler) :
    ρ.Relates (c.restoreBlock pc dynamic count flags) (c'.restoreBlock pc dynamic count flags) := by
  simp only [Compiler.restoreBlock, Compiler.onAssembler_assembler] at hin ⊢
  have hstored := not_imp_not.mp (fun hout => outside.emits restoreCalls hout) hin
  have hflushed : ρ.Inside (if flags.has EngineFlags.instructionCounting then
      c.push (immediateMacro .addCpuIcount (some .rbp) (BitVec.ofNat 64 count))
      else c).flushDirtyRegisters.flushAll.assembler := by
    by_contra hout
    split at hstored
    · exact hout hstored
    · exact outside.emitStorePc hout pc hstored
  have hcounted := not_imp_not.mp
    (fun hout => outside.flushAll (outside.flushDirtyRegisters hout)) hflushed
  have hrelates : ρ.Relates
      (if flags.has EngineFlags.instructionCounting then
        c.push (immediateMacro .addCpuIcount (some .rbp) (BitVec.ofNat 64 count)) else c)
      (if flags.has EngineFlags.instructionCounting then
        c'.push (immediateMacro .addCpuIcount (some .rbp) (BitVec.ofNat 64 count)) else c') := by
    split
    · next hcounts =>
        rw [if_pos hcounts] at hcounted
        exact h.push _ hcounted
    · exact h
  have hsettled := hrelates.flushDirty hflushed
  cases dynamic with
  | true => exact hsettled.onAssembler (hsettled.assembler.callAll restoreCalls hin)
  | false =>
      have hpc := hsettled.onAssembler (f := (Assembler.emitStorePc · pc))
        (hsettled.assembler.emitStorePc pc hstored)
      exact hpc.onAssembler (hpc.assembler.callAll restoreCalls hin)

theorem Relocation.Pairs.startState {ρ : Relocation} {c c' : Compiler}
    (h : ρ.Pairs c.assembler c'.assembler) (hwindow : c'.window = c.window) (hstatus : c'.status = c.status)
    (start : Address) (hin : ρ.Inside c.assembler.emitPrologue) :
    ρ.RelatesStates (startState c start) (startState c' start) := by
  have hprologue := h.emitPrologue hin
  unfold Ballistic.startState
  generalize c.assembler.emitPrologue = a at *
  generalize c'.assembler.emitPrologue = a' at *
  have hcompiler : ρ.Relates { c with allocator := .reset, assembler := a }
      { c' with allocator := .reset, assembler := a' } := ⟨hprologue, hwindow, rfl, hstatus⟩
  exact ⟨hcompiler, rfl, rfl, rfl, rfl⟩

section Blocks

variable {input : TranslateInput} {c c' : Compiler} {start : Address}

/-- The loops of a translation end, and `x` is the compiler before the last `ret`. -/
def ComesToRet (input : TranslateInput) (c : Compiler) (start : Address) (x : Compiler) : Prop :=
  ∃ fuel s, runLoops input start c.assembler.offset fuel .whileTest (startState c start) = some s ∧
    x = s.compiler.restoreBlock s.guestAddress s.isPcDynamic s.armInstructionCount input.engineFlags

theorem ComesToRet.unique {x x' : Compiler} (h : ComesToRet input c start x)
    (h' : ComesToRet input c start x') : x = x' := by
  obtain ⟨fuel, s, hrun, rfl⟩ := h
  obtain ⟨fuel', s', hrun', rfl⟩ := h'
  rw [runLoops_unique hrun hrun']

theorem Translates.comesToRet {t : Translation} (h : Translates input c start t)
    (hmax : input.maxInstructions ≠ 0) :
    ∃ x, ComesToRet input c start x ∧ t.compiler = x.onAssembler Assembler.emitRet ∧
      (t.entry = none ↔ ¬(x.onAssembler Assembler.emitRet).Ok) := by
  obtain ⟨fuel, htranslate⟩ := h
  rw [balTier1CompilerTranslate, if_neg hmax, Option.map_eq_some_iff] at htranslate
  obtain ⟨s, hrun, rfl⟩ := htranslate
  refine ⟨_, ⟨fuel, s, hrun, rfl⟩, ?_, ?_⟩
  · rw [finishTranslation_compiler, Compiler.terminateBlock_eq]
  · simp only [finishTranslation, Compiler.terminateBlock_eq]
    split
    · next hfailed =>
        refine iff_of_true rfl fun hok => ?_
        exact hfailed.elim (fun hne => hne hok.status) fun hne => hne hok.assembler
    · next hsucceeded =>
        rw [not_or, not_not, not_not] at hsucceeded
        refine iff_of_false (by simp) fun hnot => ?_
        exact hnot ⟨hsucceeded.1, hsucceeded.2⟩

theorem ComesToRet.translates {x : Compiler} (h : ComesToRet input c start x)
    (hmax : input.maxInstructions ≠ 0) : ∃ t, Translates input c start t := by
  obtain ⟨fuel, s, hrun, -⟩ := h
  refine ⟨finishTranslation input start c.assembler.offset s, fuel, ?_⟩
  rw [balTier1CompilerTranslate, if_neg hmax, hrun, Option.map_some]

/-- **Relocation.** Up to the last `ret`, a translation without failure is one without failure
wherever it fits. -/
theorem ComesToRet.relocates {ρ : Relocation} {x : Compiler} (h : ComesToRet input c start x)
    (hpairs : ρ.Pairs c.assembler c'.assembler) (hwindow : c'.window = c.window)
    (hstatus : c'.status = c.status) (hin : ρ.Inside x.assembler) :
    ∃ x', ComesToRet input c' start x' ∧ ρ.Relates x x' := by
  obtain ⟨fuel, s, hrun, rfl⟩ := h
  have hloops : ρ.Inside s.compiler.assembler := by
    by_contra hout
    refine absurd hin ?_
    refine Relocation.outside.restoreBlock hout _ _ _ _
  have hprologue : ρ.Inside c.assembler.emitPrologue := by
    by_contra hout
    refine Relocation.outside.runLoops ?_ hrun hloops
    rw [startState_assembler]
    exact hout
  have hstart := hpairs.startState hwindow hstatus start hprologue
  obtain ⟨s', hrun', hrelates⟩ := hstart.runLoops c'.assembler.offset hrun hloops
  refine ⟨_, ⟨fuel, s', hrun', rfl⟩, ?_⟩
  rw [hrelates.guestAddress_eq, hrelates.isPcDynamic_eq, hrelates.armInstructionCount_eq]
  exact hrelates.compiler.restoreBlock _ _ _ _ hin

end Blocks

end Ballistic
