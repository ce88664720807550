import Ballistic.Tier1Compiler

/-!
# What every emit preserves

The compiler touches the assembler through its emitters only. So a property of the assembler that one
emit preserves is preserved by a whole translation, whether it succeeds or fails
(`Assembler.Closed.translates`).
-/

namespace Ballistic

open Machine Machine.X86

/-- A property that emits preserve, and the refusal of a branch offset. -/
structure Assembler.Closed (P : Assembler → Prop) : Prop where
  emit : ∀ {a : Assembler} (poisons : Bool) (encoding : Option Encoding), P a →
    P (a.emit poisons encoding)
  refuse : ∀ {a : Assembler}, a.status = .success → P a → P { a with status := .branchOffsetOverflow }

/-- No emit changes the size of the buffer. -/
theorem closed_capacity (n : Nat) : Assembler.Closed fun a => a.capacity = n where
  emit := by
    intro a poisons encoding h
    unfold Assembler.emit
    split
    · split <;> exact h
    · split
      · exact h
      · split <;> exact h
  refuse := fun _ h => h

/-- No emit undoes a failure. -/
theorem closed_failed : Assembler.Closed fun a => a.status ≠ .success where
  emit := by
    intro a poisons encoding h
    unfold Assembler.emit
    rw [if_pos h]
    split
    · exact fun hstatus => by cases hstatus
    · exact h
  refuse := fun hok h => absurd hok h

namespace Assembler.Closed

variable {P : Assembler → Prop} {a : Assembler} {c : Compiler}

theorem checkBranchOffset (hP : Closed P) (h : P a) (hok : a.status = .success) {offset : BitVec 64}
    {emit : BitVec 32 → Assembler} (hemit : ∀ v, P (emit v)) :
    P (Ballistic.checkBranchOffset a offset emit) := by
  unfold Ballistic.checkBranchOffset
  split
  · exact hemit _
  · exact hP.refuse hok h

theorem flushSingleMacro (hP : Closed P) (h : P a) (m : Macro) : P (Ballistic.flushSingleMacro a m) := by
  unfold Ballistic.flushSingleMacro
  split
  · exact h
  · next hok =>
      have hok : a.status = .success := not_not.mp hok
      simp only [Assembler.emitAddMem64RbpOffsetImm, Assembler.emitAddR64Imm32,
        Assembler.emitAddR64R64, Assembler.emitMovR64Imm64, Assembler.emitAndR64R64,
        Assembler.emitJmpR64, Assembler.emitLoadR64RbpOffset, Assembler.emitMovR64R64,
        Assembler.emitOrR64R64, Assembler.emitRorR64Imm8, Assembler.emitSarR64Imm8,
        Assembler.emitShlR64Imm8, Assembler.emitShrR64Imm8, Assembler.emitShiftR64Imm8,
        Assembler.emitSetccMem8RbpOffset, Assembler.emitStoreR64RbpOffset,
        Assembler.emitSubR64Imm32, Assembler.emitSubR64R64, Assembler.emitUd2,
        Assembler.emitXorR64R64]
      cases m.opcode with
      | nop | ret | testRegisterRegister => exact h
      | andRegisterImmediate | orRegisterImmediate => exact hP.emit _ _ (hP.emit _ _ h)
      | jccRelative | jmpRelative => exact hP.checkBranchOffset h hok fun _ => hP.emit _ _ h
      | _ => exact hP.emit _ _ h

theorem flushMacros (hP : Closed P) (macros : List Macro) (h : P a) :
    P (Ballistic.flushMacros a macros) := by
  induction macros generalizing a with
  | nil => exact h
  | cons m macros ih => exact ih (hP.flushSingleMacro h m)

theorem push (hP : Closed P) (h : P c.assembler) (m : Macro) : P (c.push m).assembler := by
  simp only [Compiler.push, slidingWindowPush]
  split
  · exact hP.flushMacros _ h
  · exact h

theorem pushAll (hP : Closed P) (macros : List Macro) (h : P c.assembler) :
    P (c.pushAll macros).assembler := by
  induction macros generalizing c with
  | nil => exact h
  | cons m macros ih => exact ih (hP.push h m)

theorem flushAll (hP : Closed P) (h : P c.assembler) : P c.flushAll.assembler :=
  hP.flushMacros _ h

theorem flushDirtyRegisters (hP : Closed P) (h : P c.assembler) : P c.flushDirtyRegisters.assembler :=
  hP.pushAll _ h

/-! ### Block ends -/

theorem emitStorePc (hP : Closed P) (h : P a) (pc : Address) : P (a.emitStorePc pc) := by
  unfold Assembler.emitStorePc Assembler.emitMovR64Imm64 Assembler.emitStoreR64RbpOffset
  exact hP.emit _ _ (hP.emit _ _ h)

theorem emitPrologue (hP : Closed P) (h : P a) : P a.emitPrologue := by
  unfold Assembler.emitPrologue Assembler.emitPushR64 Assembler.emitMovR64R64
  exact hP.emit _ _ (hP.emit _ _ (hP.emit _ _ (hP.emit _ _ (hP.emit _ _ (hP.emit _ _ h)))))

theorem emitEpilogue (hP : Closed P) (h : P a) : P a.emitEpilogue := by
  unfold Assembler.emitEpilogue Assembler.emitPopR64 Assembler.emitRet
  exact hP.emit _ _ (hP.emit _ _ (hP.emit _ _ (hP.emit _ _ (hP.emit _ _ (hP.emit _ _ h)))))

theorem emitShortEpilogue (hP : Closed P) (h : P a) : P a.emitShortEpilogue := by
  unfold Assembler.emitShortEpilogue Assembler.emitPopR64 Assembler.emitRet
  exact hP.emit _ _ (hP.emit _ _ h)

theorem emitJccRel32 (hP : Closed P) (h : P a) (condition : Condition) (offset : BitVec 32) :
    P (a.emitJccRel32 condition offset) := by
  unfold Assembler.emitJccRel32
  exact hP.emit _ _ h

theorem emitCmpMem8RbpOffsetImm (hP : Closed P) (h : P a) (offset : BitVec 32) (immediate : Byte) :
    P (a.emitCmpMem8RbpOffsetImm offset immediate) := by
  unfold Assembler.emitCmpMem8RbpOffsetImm
  exact hP.emit _ _ h

theorem onAssembler {f : Assembler → Assembler} (h : P (f c.assembler)) :
    P (c.onAssembler f).assembler := h

theorem counted (hP : Closed P) (h : P c.assembler) (count : Nat) (flags : EngineFlags) :
    P (if flags.has EngineFlags.instructionCounting then
      c.push (immediateMacro .addCpuIcount (some .rbp) (BitVec.ofNat 64 count)) else c).assembler := by
  split
  · exact hP.push h _
  · exact h

theorem terminateBlock (hP : Closed P) (h : P c.assembler) (pc : Address) (dynamic : Bool)
    (count : Nat) (flags : EngineFlags) : P (c.terminateBlock pc dynamic count flags).assembler := by
  have hflushed := hP.flushAll (hP.flushDirtyRegisters (hP.counted h count flags))
  simp only [Compiler.terminateBlock]
  cases dynamic with
  | true => exact onAssembler (hP.emitEpilogue hflushed)
  | false => exact onAssembler (hP.emitEpilogue (onAssembler (hP.emitStorePc hflushed pc)))

theorem terminateBlockConditional (hP : Closed P) (h : P c.assembler) (condition : Condition)
    (fallthroughPc takenPc : Address) :
    P (c.terminateBlockConditional condition fallthroughPc takenPc).assembler := by
  simp only [Compiler.terminateBlockConditional]
  refine onAssembler (hP.emitShortEpilogue (hP.emitStorePc ?_ takenPc))
  refine hP.flushAll (hP.flushDirtyRegisters ?_)
  refine onAssembler (hP.emitEpilogue (hP.emitStorePc ?_ fallthroughPc))
  refine hP.flushAll (hP.flushDirtyRegisters ?_)
  exact onAssembler (hP.emitJccRel32 (hP.flushAll h) _ _)

/-! ### Registers -/

theorem evictX86Register (hP : Closed P) (h : P c.assembler) (x : Reg) :
    P (c.evictX86Register x).assembler := by
  unfold Compiler.evictX86Register
  split
  · exact h
  · next arm _ =>
      have hstored : P (if c.allocator.dirty arm then
          { c.push (storeMacro (some x) (offsetX arm)) with
            allocator := (c.push (storeMacro (some x) (offsetX arm))).allocator.clearDirty arm }
          else c).assembler := by
        split
        · exact hP.push h _
        · exact h
      exact hstored

theorem takeRegister (hP : Closed P) (h : P c.assembler) : P c.takeRegister.2.assembler := by
  unfold Compiler.takeRegister
  split
  · exact h
  · split
    · exact hP.evictX86Register h _
    · exact hP.evictX86Register (c := { c with allocator := c.allocator.advanceCursor }) h _

theorem allocateX86Register (hP : Closed P) (h : P c.assembler) (arm : Nat) (skipLoad : Bool) :
    P (c.allocateX86Register arm skipLoad).2.assembler := by
  have htaken := hP.takeRegister h
  simp only [Compiler.allocateX86Register]
  by_cases hstatus : c.status ≠ .success
  · rw [if_pos hstatus]
    exact h
  rw [if_neg hstatus]
  by_cases hassembler : c.assembler.status ≠ .success
  · rw [if_pos hassembler]
    exact h
  rw [if_neg hassembler]
  by_cases hrange : arm < 32
  · rw [dif_pos hrange]
    cases c.allocator.armToX86 ⟨arm, hrange⟩ with
    | none =>
        simp only
        split
        · exact htaken
        · exact hP.push (c := { c.takeRegister.2 with
            allocator := c.takeRegister.2.allocator.map _ c.takeRegister.1 }) htaken _
    | some cached =>
        simp only
        split
        · exact h
        · split
          · exact h
          · exact h
  · rw [dif_neg hrange]
    exact h

/-! ### Translators -/

theorem setDirty {arm : Nat} (h : P c.assembler) : P (c.setDirty arm).assembler := h

theorem prepareDestination (hP : Closed P) (h : P c.assembler) (rd : Nat) (x : X86Register)
    (discarded : Bool) : P (c.prepareDestination rd x discarded).2.assembler := by
  simp only [Compiler.prepareDestination]
  split
  · exact hP.push h _
  · have hd := hP.allocateX86Register h rd true
    simp only
    split
    · exact hP.push hd _
    · exact hd

theorem finishAddSub (hP : Closed P) (h : P c.assembler) (metadata : Metadata) (rd : Nat)
    (isSub : Bool) (arithmetic : Macro) :
    P (c.finishAddSub metadata rd isSub arithmetic).assembler := by
  have harithmetic := hP.push h arithmetic
  have hflags : P (if Compiler.isSettingFlags metadata then
      (c.push arithmetic).pushAll (Compiler.setFlagsMacros isSub) else c.push arithmetic).assembler := by
    split
    · exact hP.pushAll _ harithmetic
    · exact harithmetic
  simp only [Compiler.finishAddSub]
  split
  · exact hflags
  · exact hflags

theorem translateAddSubImm (hP : Closed P) (h : P c.assembler) (metadata : Metadata) (w : BitVec 32)
    (isSub : Bool) : P (c.translateAddSubImm metadata w isSub).assembler := by
  simp only [Compiler.translateAddSubImm]
  exact hP.finishAddSub (hP.prepareDestination (hP.allocateX86Register h _ _) _ _ _) _ _ _ _

theorem translateAddSubReg (hP : Closed P) (h : P c.assembler) (metadata : Metadata) (w : BitVec 32)
    (isSub : Bool) : P (c.translateAddSubReg metadata w isSub).assembler := by
  simp only [Compiler.translateAddSubReg]
  split
  · exact h
  · exact hP.finishAddSub (hP.prepareDestination
      (hP.allocateX86Register (hP.allocateX86Register h _ _) _ _) _ _ _) _ _ _ _

theorem translateAnd (hP : Closed P) (h : P c.assembler) (metadata : Metadata) (w : BitVec 32) :
    P (c.translateAnd metadata w).assembler := by
  simp only [Compiler.translateAnd]
  split
  · exact h
  split
  · exact h
  have hregisters := hP.allocateX86Register
    (hP.allocateX86Register (hP.allocateX86Register h
      (Compiler.registerOperand metadata w 1) false) (Compiler.registerOperand metadata w 3) false)
    (Compiler.registerOperand metadata w 0) true
  split
  · exact hregisters
  · refine setDirty (hP.push ?_ _)
    split
    · exact hP.push hregisters _
    · split
      · exact hregisters
      · split
        · exact hP.push hregisters _
        · exact hregisters

theorem translateMovImmediate (hP : Closed P) (h : P c.assembler) (metadata : Metadata)
    (w : BitVec 32) : P (c.translateMovImmediate metadata w).assembler := by
  simp only [Compiler.translateMovImmediate]
  split
  · exact setDirty (hP.push (hP.allocateX86Register h _ _) _)
  split
  · exact setDirty (hP.push (hP.allocateX86Register h _ _) _)
  · exact setDirty (hP.push (hP.push (hP.allocateX86Register h _ _) _) _)

theorem translateMovRegister (hP : Closed P) (h : P c.assembler) (metadata : Metadata)
    (w : BitVec 32) : P (c.translateMovRegister metadata w).assembler := by
  simp only [Compiler.translateMovRegister]
  split
  · exact h
  · exact setDirty (hP.push (hP.allocateX86Register (hP.allocateX86Register h _ _) _ _) _)

theorem translateBCond (hP : Closed P) (h : P c.assembler) (w : BitVec 32) (pc : Address) :
    P (c.translateBCond w pc).assembler := by
  simp only [Compiler.translateBCond]
  split
  · exact onAssembler (hP.emitShortEpilogue (hP.emitStorePc
      (hP.flushAll (hP.flushDirtyRegisters h)) _))
  · split
    · exact h
    · exact hP.terminateBlockConditional
        (onAssembler (hP.emitCmpMem8RbpOffsetImm (hP.flushAll h) _ _)) _ _ _

theorem translateCbzCbnz (hP : Closed P) (h : P c.assembler) (metadata : Metadata) (w : BitVec 32)
    (pc : Address) (isCbnz : Bool) : P (c.translateCbzCbnz metadata w pc isCbnz).assembler := by
  simp only [Compiler.translateCbzCbnz]
  exact hP.terminateBlockConditional (hP.push (hP.allocateX86Register h _ _) _) _ _ _

/-! ### Loops -/

variable {input : TranslateInput} {s : LoopState}

theorem translateMov (hP : Closed P) (h : P s.compiler.assembler) (metadata : Metadata)
    (w : BitVec 32) : P (s.translateMov metadata w).compiler.assembler := by
  simp only [LoopState.translateMov]
  split
  · exact hP.translateMovImmediate h metadata w
  · split
    · exact hP.translateMovRegister h metadata w
    · exact h

theorem translateAddSub (hP : Closed P) (h : P s.compiler.assembler) (metadata : Metadata)
    (w : BitVec 32) : P (s.translateAddSub metadata w).compiler.assembler := by
  simp only [LoopState.translateAddSub]
  split
  · exact hP.translateAddSubReg h metadata w _
  · split
    · exact hP.translateAddSubImm h metadata w _
    · exact h

theorem translateOpcode (hP : Closed P) (h : P s.compiler.assembler) (metadata : Metadata)
    (w : BitVec 32) : P (s.translateOpcode metadata w).compiler.assembler := by
  unfold LoopState.translateOpcode
  cases metadata.irOpcode with
  | mov => exact hP.translateMov h metadata w
  | add | sub | cmp => exact hP.translateAddSub h metadata w
  | jump => exact h
  | branchZero | branchNotZero => exact hP.translateCbzCbnz h metadata w _ _
  | branchConditional => exact hP.translateBCond h w _
  | «return» =>
      simp only [LoopState.translateReturn]
      exact hP.push (hP.allocateX86Register h _ _) _
  | trap => exact hP.push (hP.flushAll h) { opcode := .ud2 }
  | and => exact hP.translateAnd h metadata w
  | load | store | xor | mul | div | callHost => exact h

theorem translateInstruction (hP : Closed P) (h : P s.compiler.assembler) (base : Address)
    (blockOffset i : Nat) :
    P (Ballistic.translateInstruction input base blockOffset i s).1.compiler.assembler := by
  simp only [Ballistic.translateInstruction]
  split
  · exact h
  · next metadata _ =>
      split
      · exact h
      · have htranslated := hP.translateOpcode h metadata (input.memory.word s.guestAddress)
        -- the rest of the body does not touch the assembler
        repeat' split
        all_goals exact htranslated

theorem loopStep (hP : Closed P) (h : P s.compiler.assembler) (base : Address) (blockOffset : Nat)
    (p : LoopPoint) :
    match Ballistic.loopStep input base blockOffset p s with
    | .next _ s' | .exit s' => P s'.compiler.assembler := by
  cases p with
  | whileTest =>
      simp only [Ballistic.loopStep]
      by_cases hterminated : s.isBlockTerminated = true
      · rw [if_pos hterminated]
        exact h
      · rw [if_neg hterminated]
        cases input.memory.translate s.guestAddress with
        | none => exact h
        | some bytes =>
            simp only
            split
            · next heq =>
                split at heq
                · cases heq
                · split at heq
                  · cases heq
                  · cases heq
                    exact h
            · next heq =>
                split at heq
                · cases heq
                  exact h
                · split at heq
                  · cases heq
                    exact h
                  · cases heq
  | forTest i limit =>
      have hinstruction := @translateInstruction P input s hP h base blockOffset i
      simp only [Ballistic.loopStep]
      by_cases hin : i < limit
      · rw [if_pos hin]
        cases (Ballistic.translateInstruction input base blockOffset i s).2
        · exact hinstruction
        · exact hinstruction
      · rw [if_neg hin]
        exact h

theorem runLoops (hP : Closed P) {base : Address} {blockOffset fuel : Nat} {p : LoopPoint}
    {s' : LoopState} (h : P s.compiler.assembler)
    (hrun : Ballistic.runLoops input base blockOffset fuel p s = some s') :
    P s'.compiler.assembler := by
  induction fuel generalizing p s with
  | zero => cases hrun
  | succ fuel ih =>
      have hstep := @loopStep P input s hP h base blockOffset p
      rw [Ballistic.runLoops] at hrun
      cases hmove : Ballistic.loopStep input base blockOffset p s with
      | exit s'' =>
          rw [hmove] at hrun hstep
          cases hrun
          exact hstep
      | next p' s'' =>
          rw [hmove] at hrun hstep
          exact ih hstep hrun

/-- **A translation preserves what one emit preserves.** -/
theorem translates (hP : Closed P) {pc : Address} {t : Translation} (h : P c.assembler)
    (ht : Translates input c pc t) : P t.compiler.assembler := by
  obtain ⟨fuel, ht⟩ := ht
  unfold balTier1CompilerTranslate at ht
  split at ht
  · cases ht
    exact h
  · obtain ⟨s, hrun, rfl⟩ := Option.map_eq_some_iff.mp ht
    have hstart : P (startState c pc).compiler.assembler := by
      simp only [startState]
      exact hP.emitPrologue h
    have hloops := hP.runLoops hstart hrun
    have hfinal := hP.terminateBlock hloops s.guestAddress s.isPcDynamic s.armInstructionCount
      input.engineFlags
    simp only [finishTranslation]
    split
    · exact hfinal
    · exact hfinal

end Assembler.Closed

end Ballistic
