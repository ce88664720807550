import Ballistic.BlockScan
import Ballistic.Proof.Branches
import Ballistic.Proof.Confinement

/-!
# The loops of a translation

One inversion lemma for the opcode switch (`translateOpcode_ok`) and one for the body of the inner
loop (`translateInstruction_ok`) say what a step does when nothing fails. A failure is never undone
(`Reaches.ok`), so a translation that returns an entry has only seen such steps, and its loops went
where the scan of the guest memory goes (`Succeeds.scans_iff`).
-/

namespace Ballistic

open Machine Machine.X86

/-! ### The opcode switch -/

namespace RegisterAllocator

def planReturn (r : RegisterAllocator) (rn : Nat) : Option Plan :=
  (r.allocate rn false).map fun n =>
    { allocator := n.allocator, macros := n.macros ++ [storeMacro (some n.register) offsetPc] }

theorem planReturn_safe {r : RegisterAllocator} (h : r.Wf) {rn : Nat} {p : Plan}
    (hplan : r.planReturn rn = some p) : p.Safe := by
  simp only [planReturn, Option.map_eq_some_iff] at hplan
  obtain ⟨n, hn, rfl⟩ := hplan
  obtain ⟨hsafe, -⟩ := allocate_safe h hn
  refine ⟨hsafe.wf, forall_mem_append hsafe.confined fun m hm => ?_⟩
  simp only [List.mem_singleton] at hm
  subst hm
  exact confined_storeMacro _ (by decide)

/-- The plan for an instruction after which the block goes on. -/
def plan (r : RegisterAllocator) (metadata : Metadata) (w : BitVec 32) : Option Plan :=
  let rd := Compiler.registerOperand metadata w 0
  let rn := Compiler.registerOperand metadata w 1
  let rm := Compiler.registerOperand metadata w 3
  let setsFlags := Compiler.isSettingFlags metadata
  let isSub := metadata.irOpcode == .sub || metadata.irOpcode == .cmp
  match metadata.irOpcode with
  | .mov =>
      r.planUpdate rd (Compiler.movImmediateMacros metadata w).1
        (Compiler.movImmediateMacros metadata w).2
  | .and => r.planAnd rd rn rm
  | _ =>
      if isRegister (metadata.operand 3) then r.planAddSubReg setsFlags isSub rd rn rm
      else r.planAddSubImm setsFlags isSub rd rn
        (BitVec.ofNat 64 (extractOperandValue w (metadata.operand 2)) <<<
          (if extractOperandValue w (metadata.operand 3) = 1 then 12 else 0))

theorem plan_safe {r : RegisterAllocator} (h : r.Wf) {metadata : Metadata} {w : BitVec 32} {p : Plan}
    (hplan : r.plan metadata w = some p) : p.Safe := by
  simp only [plan] at hplan
  split at hplan
  · exact planUpdate_safe h (fun d hd => confined_movImmediateMacros metadata w hd) hplan
  · exact planAnd_safe h hplan
  · split at hplan
    · exact planAddSubReg_safe h hplan
    · exact planAddSubImm_safe h hplan

end RegisterAllocator

namespace Compiler

variable {c : Compiler}

theorem Ok.of_translateBCond {w : BitVec 32} {a : Address} (h : (c.translateBCond w a).Ok) : c.Ok := by
  simp only [translateBCond] at h
  split at h
  · have hassembler := h.assembler
    rw [onAssembler_assembler] at hassembler
    obtain ⟨hstored, -⟩ := Assembler.emitted_shortEpilogue hassembler
    obtain ⟨hflushed, -⟩ := Assembler.emitted_storePc hstored
    have hok : c.flushDirtyRegisters.flushAll.Ok := ⟨h.status, hflushed⟩
    exact hok.of_flushAll.of_flushDirtyRegisters
  · split at h
    · exact absurd h.status (by simp)
    · have hok := h.of_terminateBlockConditional
      have hassembler := hok.assembler
      rw [onAssembler_assembler] at hassembler
      have hflushed : c.flushAll.Ok := ⟨hok.status, (Assembler.emit_success hassembler).1⟩
      exact hflushed.of_flushAll

theorem Ok.of_translateCbzCbnz {metadata : Metadata} {w : BitVec 32} {a : Address} {isCbnz : Bool}
    (h : (c.translateCbzCbnz metadata w a isCbnz).Ok) : c.Ok := by
  simp only [translateCbzCbnz] at h
  exact h.of_terminateBlockConditional.of_push.of_allocate

end Compiler

namespace LoopState

variable {s : LoopState} {metadata : Metadata} {w : BitVec 32}

theorem translateReturn_plan (h : (s.translateReturn metadata w).compiler.Ok) :
    s.compiler.Ok ∧ ∃ p,
      s.compiler.allocator.planReturn (Compiler.registerOperand metadata w 0) = some p ∧
      s.translateReturn metadata w =
        { s with compiler := s.compiler.apply p, isPcDynamic := true, isBlockTerminated := true } := by
  simp only [translateReturn] at h ⊢
  have hn := h.of_push
  obtain ⟨n, hnplan, hneq⟩ := Compiler.allocateX86Register_plan hn
  refine ⟨hn.of_allocate, ?_⟩
  rw [RegisterAllocator.planReturn, hnplan, hneq]
  refine ⟨_, rfl, ?_⟩
  rw [Compiler.apply_push]

/-- **The opcode switch, inverted.** What it does when neither the compiler nor the assembler fails. -/
theorem translateOpcode_ok (h : (s.translateOpcode metadata w).compiler.Ok) :
    s.compiler.Ok ∧
      match metadata.outcome with
      | .continues => ∃ p, s.compiler.allocator.plan metadata w = some p ∧
          s.translateOpcode metadata w = s.withCompiler (s.compiler.apply p)
      | .movesRegister => ∃ p,
          s.compiler.allocator.planMovRegister (Compiler.registerOperand metadata w 0)
            (Compiler.registerOperand metadata w 1) = some p ∧
          s.translateOpcode metadata w = (s.withCompiler (s.compiler.apply p)).terminate
      | .stops => s.translateOpcode metadata w = s.terminate
      | .jumps => s.translateOpcode metadata w =
          { s with
            guestAddress := Compiler.translateJump metadata w s.guestAddress
            isBlockTerminated := true }
      | .returns => ∃ p,
          s.compiler.allocator.planReturn (Compiler.registerOperand metadata w 0) = some p ∧
          s.translateOpcode metadata w =
            { s with
              compiler := s.compiler.apply p
              isPcDynamic := true
              isBlockTerminated := true }
      | .branches => s.translateOpcode metadata w =
          (s.withCompiler (s.translateOpcode metadata w).compiler).terminate
      | .fails => False := by
  unfold translateOpcode at h ⊢
  unfold Metadata.outcome
  cases hopcode : metadata.irOpcode with
  | mov =>
      simp only [hopcode, translateMov] at h ⊢
      by_cases hvariant : metadata.nameAt 3 = 'N' ∨ metadata.nameAt 3 = 'K' ∨ metadata.nameAt 3 = 'Z'
      · simp only [hvariant, if_true] at h ⊢
        obtain ⟨hok, p, hplan, heq⟩ := Compiler.translateMovImmediate_plan h
        refine ⟨hok, p, ?_, by rw [heq]⟩
        simpa only [RegisterAllocator.plan, hopcode] using hplan
      · by_cases hregister : isRegister (metadata.operand 1) = true
        · simp only [hvariant, hregister, if_true, if_false] at h ⊢
          obtain ⟨hok, p, hplan, heq⟩ := Compiler.translateMovRegister_plan h
          exact ⟨hok, p, hplan, by rw [heq]⟩
        · simp only [hvariant, hregister, if_false] at h ⊢
          exact ⟨h, rfl⟩
  | add | sub | cmp =>
      simp only [hopcode, translateAddSub] at h ⊢
      by_cases hregister : isRegister (metadata.operand 3) = true
      · simp only [hregister, if_true] at h ⊢
        obtain ⟨hok, -, p, hplan, heq⟩ := Compiler.translateAddSubReg_plan h
        refine ⟨hok, p, ?_, by rw [heq]⟩
        simpa only [RegisterAllocator.plan, hopcode, hregister, if_true] using hplan
      · by_cases himmediate : (metadata.operand 2).type = .immediate
        · simp only [hregister, himmediate, if_true] at h ⊢
          obtain ⟨hok, p, hplan, heq⟩ := Compiler.translateAddSubImm_plan h
          refine ⟨hok, p, ?_, by rw [← heq]; rfl⟩
          simpa only [RegisterAllocator.plan, hopcode, hregister, Bool.false_eq_true,
            if_false] using hplan
        · simp only [hregister, himmediate, if_false] at h ⊢
          exact ⟨h, rfl⟩
  | jump =>
      simp only [hopcode] at h ⊢
      exact ⟨h, trivial⟩
  | branchZero | branchNotZero =>
      simp only [hopcode] at h ⊢
      exact ⟨Compiler.Ok.of_translateCbzCbnz h, rfl⟩
  | branchConditional =>
      simp only [hopcode] at h ⊢
      exact ⟨Compiler.Ok.of_translateBCond h, rfl⟩
  | «return» =>
      simp only [hopcode] at h ⊢
      exact translateReturn_plan h
  | and =>
      simp only [hopcode] at h ⊢
      obtain ⟨hok, -, p, hplan, heq⟩ := Compiler.translateAnd_plan h
      refine ⟨hok, p, ?_, by rw [heq]⟩
      simpa only [RegisterAllocator.plan, hopcode] using hplan
  | trap | load | store | xor | mul | div | callHost =>
      simp only [hopcode] at h
      exact absurd h.status (by simp [withCompiler, terminate])

end LoopState

/-! ### One instruction -/

section Steps

variable {input : TranslateInput} {base : Address} {blockOffset : Nat}

/-- The counters that an instruction leaves behind: one instruction more, and perhaps a mapping. -/
def LoopState.Counts (s s' : LoopState) : Prop :=
  ∃ mappings, s' =
    { s with armInstructionCount := s.armInstructionCount + 1, mappings := mappings }

section Body

variable {i : Nat} {s : LoopState} {metadata : Metadata}

theorem translateInstruction_undecoded
    (hdecode : balDecodeArm64 input.table (input.memory.word s.guestAddress) = none) :
    translateInstruction input base blockOffset i s =
      ({ s with isBlockTerminated := false }, true) := by
  simp only [translateInstruction, hdecode]

theorem translateInstruction_trapped
    (hdecode : balDecodeArm64 input.table (input.memory.word s.guestAddress) = some metadata)
    (htrapped : isTrapped input.engineFlags metadata = true) :
    translateInstruction input base blockOffset i s = (s.terminate, true) := by
  simp only [translateInstruction, hdecode, htrapped, if_true]

theorem translateInstruction_failed
    (hdecode : balDecodeArm64 input.table (input.memory.word s.guestAddress) = some metadata)
    (htrapped : isTrapped input.engineFlags metadata = false)
    (hfailed : (s.translateOpcode metadata (input.memory.word s.guestAddress)).failed = true) :
    translateInstruction input base blockOffset i s =
      ((s.translateOpcode metadata (input.memory.word s.guestAddress)).recordFailure, true) := by
  simp only [translateInstruction, hdecode, htrapped, Bool.false_eq_true, if_false, hfailed, if_true]

theorem translateInstruction_counted
    (hdecode : balDecodeArm64 input.table (input.memory.word s.guestAddress) = some metadata)
    (htrapped : isTrapped input.engineFlags metadata = false) {s' : LoopState}
    (hs' : s.translateOpcode metadata (input.memory.word s.guestAddress) = s')
    (hnot : s'.failed = false) :
    ∃ s'', s'.Counts s'' ∧
      translateInstruction input base blockOffset i s =
        if i + 1 = input.maxInstructions then (s''.terminate, true)
        else if s'.isBlockTerminated then (s'', true)
        else ({ s'' with guestAddress := s'.guestAddress + 4 }, false) := by
  simp only [translateInstruction, hdecode, htrapped, Bool.false_eq_true, if_false, hs', hnot]
  by_cases hmapping : debugEnabled input s'.compiler = true ∧
      s'.mappings.length < mappingsCapacity
  · simp only [hmapping, and_self, if_true]
    exact ⟨_, ⟨_, rfl⟩, rfl⟩
  · simp only [hmapping, if_false]
    exact ⟨_, ⟨s'.mappings, rfl⟩, rfl⟩

/-- The check after an instruction leaves no state with the status success that it has marked. -/
theorem LoopState.recordFailure_status (hfailed : s.failed = true) :
    s.recordFailure.compiler.status ≠ .success := by
  intro hstatus
  simp only [LoopState.failed, Bool.or_eq_true, bne_iff_ne, ne_eq] at hfailed
  simp only [LoopState.recordFailure] at hstatus
  split at hstatus
  · next hsuccess => exact hfailed.elim (fun hne => hne hsuccess) fun hne => hne hstatus
  · next hne => exact hne hstatus

theorem LoopState.ok_of_not_failed (hnot : s.failed = false) : s.compiler.Ok := by
  simp only [LoopState.failed, Bool.or_eq_false_iff, bne_eq_false_iff_eq] at hnot
  exact ⟨hnot.1, hnot.2⟩

/-- **The body of the inner loop, inverted.** -/
theorem translateInstruction_ok {i : Nat} {s : LoopState}
    (h : (translateInstruction input base blockOffset i s).1.compiler.Ok) :
    s.compiler.Ok ∧
      match balDecodeArm64 input.table (input.memory.word s.guestAddress) with
      | none => translateInstruction input base blockOffset i s =
          ({ s with isBlockTerminated := false }, true)
      | some metadata =>
          if isTrapped input.engineFlags metadata then
            translateInstruction input base blockOffset i s = (s.terminate, true)
          else
            let s' := s.translateOpcode metadata (input.memory.word s.guestAddress)
            s'.compiler.Ok ∧ ∃ s'', s'.Counts s'' ∧
              translateInstruction input base blockOffset i s =
                if i + 1 = input.maxInstructions then (s''.terminate, true)
                else if s'.isBlockTerminated then (s'', true)
                else ({ s'' with guestAddress := s'.guestAddress + 4 }, false) := by
  cases hdecode : balDecodeArm64 input.table (input.memory.word s.guestAddress) with
  | none =>
      have heq : translateInstruction input base blockOffset i s = _ :=
        translateInstruction_undecoded hdecode
      rw [heq] at h
      exact ⟨h, heq⟩
  | some metadata =>
      simp only
      by_cases htrap : isTrapped input.engineFlags metadata = true
      · have heq : translateInstruction input base blockOffset i s = _ :=
          translateInstruction_trapped hdecode htrap
        rw [heq] at h
        rw [if_pos htrap]
        exact ⟨h, heq⟩
      · have htrapped : isTrapped input.engineFlags metadata = false := Bool.eq_false_iff.mpr htrap
        rw [if_neg htrap]
        generalize hs' : s.translateOpcode metadata (input.memory.word s.guestAddress) = s'
        by_cases hfailed : s'.failed = true
        · subst hs'
          rw [translateInstruction_failed hdecode htrapped hfailed] at h
          exact absurd h.status (LoopState.recordFailure_status hfailed)
        · have hnot : s'.failed = false := Bool.eq_false_iff.mpr hfailed
          have hok' := LoopState.ok_of_not_failed hnot
          have hok : s.compiler.Ok := by
            rw [← hs'] at hok'
            exact (LoopState.translateOpcode_ok hok').1
          exact ⟨hok, hok', translateInstruction_counted hdecode htrapped hs' hnot⟩

end Body

theorem LoopState.translateOpcode_count (s : LoopState) (metadata : Metadata) (w : BitVec 32) :
    (s.translateOpcode metadata w).armInstructionCount = s.armInstructionCount := by
  have haddSub : (s.translateAddSub metadata w).armInstructionCount = s.armInstructionCount := by
    simp only [translateAddSub]
    split
    · rfl
    · split <;> rfl
  unfold translateOpcode
  cases metadata.irOpcode with
  | mov =>
      simp only [translateMov]
      split
      · rfl
      · split <;> rfl
  | add | sub | cmp => exact haddSub
  | branchZero | branchNotZero | branchConditional => simp only [withCompiler, terminate]
  | _ => rfl

theorem translateInstruction_count {i : Nat} {s : LoopState}
    (h : (translateInstruction input base blockOffset i s).2 = false) :
    (translateInstruction input base blockOffset i s).1.armInstructionCount =
      s.armInstructionCount + 1 := by
  simp only [translateInstruction] at h ⊢
  cases hdecode : balDecodeArm64 input.table (input.memory.word s.guestAddress) with
  | none => simp [hdecode] at h
  | some metadata =>
      simp only [hdecode] at h ⊢
      have hcount := s.translateOpcode_count metadata (input.memory.word s.guestAddress)
      generalize s.translateOpcode metadata (input.memory.word s.guestAddress) = s' at h hcount ⊢
      rw [← hcount]
      by_cases htrap : isTrapped input.engineFlags metadata = true
      · simp [htrap] at h
      · by_cases hfailed : s'.failed = true
        · simp [htrap, hfailed] at h
        · by_cases hlimit : i + 1 = input.maxInstructions
          · simp [htrap, hfailed, hlimit] at h
          · simp only [htrap, hfailed, hlimit, Bool.false_eq_true, if_false] at h ⊢
            by_cases hmapping : debugEnabled input s'.compiler = true ∧
                s'.mappings.length < mappingsCapacity
            · simp only [hmapping, and_self, if_true] at h ⊢
              split <;> rfl
            · simp only [hmapping, if_false] at h ⊢
              split <;> rfl

/-- A move of the loops, inverted: what a move to a state without failure is. -/
theorem loopStep_next {p p' : LoopPoint} {s s' : LoopState}
    (h : loopStep input base blockOffset p s = .next p' s') :
    (∃ bytes, p = .whileTest ∧ s.isBlockTerminated = false ∧ Readable input s.guestAddress bytes ∧
        p' = .forTest 0 (min (bytes / 4) input.maxInstructions) ∧ s' = s) ∨
      (∃ i limit, p = .forTest i limit ∧ ¬i < limit ∧ p' = .whileTest ∧ s' = s) ∨
      ∃ i limit, p = .forTest i limit ∧ i < limit ∧
        s' = (translateInstruction input base blockOffset i s).1 ∧
        p' = if (translateInstruction input base blockOffset i s).2 then .whileTest
          else .forTest (i + 1) limit := by
  cases p with
  | whileTest =>
      refine .inl ?_
      simp only [loopStep] at h
      split at h
      · cases h
      · next hterminated =>
          split at h
          · cases h
          · next bytes htranslate =>
              split at h
              · cases h
              · next hbytes =>
                  split at h
                  · cases h
                  · next haligned =>
                      cases h
                      exact ⟨bytes, rfl, by simpa using hterminated, ⟨htranslate, hbytes, haligned⟩,
                        rfl, rfl⟩
  | forTest i limit =>
      refine .inr ?_
      simp only [loopStep] at h
      split at h
      · next hin =>
          refine .inr ⟨i, limit, rfl, hin, ?_⟩
          split at h <;> next hbreak =>
            cases h
            simp [hbreak]
      · next hout =>
          cases h
          exact .inl ⟨i, limit, rfl, hout, rfl, rfl⟩

/-- The loops end at the test of the outer one: with the block terminated, or because the memory
interface does not give the next instruction. -/
theorem loopStep_exit_cases {p : LoopPoint} {s s' : LoopState}
    (h : loopStep input base blockOffset p s = .exit s') :
    p = .whileTest ∧
      ((s.isBlockTerminated = true ∧ s' = s) ∨
        (s.isBlockTerminated = false ∧ input.memory.translate s.guestAddress = none ∧
          s' = s.withCompiler { s.compiler with status := .memoryFault }) ∨
        ∃ bytes, s.isBlockTerminated = false ∧
          input.memory.translate s.guestAddress = some bytes ∧
          (bytes / 4 = 0 ∨
            (input.engineFlags.has EngineFlags.strictAlignment ∧ s.guestAddress.toNat % 4 ≠ 0)) ∧
          s' = s.withCompiler { s.compiler with status := .pcAlignment }) := by
  cases p with
  | whileTest =>
      refine ⟨rfl, ?_⟩
      simp only [loopStep] at h
      split at h
      · next hterminated =>
          cases h
          exact .inl ⟨hterminated, rfl⟩
      · next hterminated =>
          have hopen : s.isBlockTerminated = false := Bool.eq_false_iff.mpr hterminated
          refine .inr ?_
          split at h
          · next hunmapped =>
              cases h
              exact .inl ⟨hopen, hunmapped, rfl⟩
          · next bytes hmapped =>
              refine .inr ⟨bytes, hopen, hmapped, ?_⟩
              split at h
              · next hbytes =>
                  cases h
                  exact ⟨.inl hbytes, rfl⟩
              · split at h
                · next hunaligned =>
                    cases h
                    exact ⟨.inr hunaligned, rfl⟩
                · cases h
  | forTest i limit =>
      simp only [loopStep] at h
      split at h
      · split at h <;> cases h
      · cases h

theorem loopStep_terminated {s : LoopState} (h : s.isBlockTerminated = true) :
    loopStep input base blockOffset .whileTest s = .exit s := by
  rw [loopStep, if_pos h]

theorem loopStep_readable {s : LoopState} {bytes : Nat} (h : Readable input s.guestAddress bytes)
    (hopen : s.isBlockTerminated = false) :
    loopStep input base blockOffset .whileTest s =
      .next (.forTest 0 (min (bytes / 4) input.maxInstructions)) s := by
  obtain ⟨hmapped, hbytes, haligned⟩ := h
  simp only [loopStep, hopen, hmapped, hbytes, haligned, Bool.false_eq_true, if_false]

/-- The loops end without failure only with the block terminated. -/
theorem loopStep_exit {p : LoopPoint} {s s' : LoopState}
    (h : loopStep input base blockOffset p s = .exit s') (hok : s'.compiler.Ok) :
    p = .whileTest ∧ s' = s ∧ s.isBlockTerminated = true := by
  obtain ⟨hpoint, ⟨hterminated, hsame⟩ | ⟨-, -, rfl⟩ | ⟨_, -, -, -, rfl⟩⟩ := loopStep_exit_cases h
  · exact ⟨hpoint, hsame, hterminated⟩
  · exact absurd hok.status (by simp [LoopState.withCompiler])
  · exact absurd hok.status (by simp [LoopState.withCompiler])

theorem loopStep_next_ok {p p' : LoopPoint} {s s' : LoopState}
    (h : loopStep input base blockOffset p s = .next p' s') (hok : s'.compiler.Ok) :
    s.compiler.Ok := by
  obtain ⟨_, _, _, _, _, rfl⟩ | ⟨_, _, _, _, _, rfl⟩ | ⟨i, limit, _, _, rfl, _⟩ := loopStep_next h
  · exact hok
  · exact hok
  · exact (translateInstruction_ok hok).1

theorem runLoops_ok {fuel : Nat} {p : LoopPoint} {s s' : LoopState}
    (h : runLoops input base blockOffset fuel p s = some s') (hok : s'.compiler.Ok) :
    s.compiler.Ok := by
  induction fuel generalizing p s with
  | zero => cases h
  | succ fuel ih =>
      rw [runLoops] at h
      split at h
      · next hstep =>
          cases h
          obtain ⟨-, rfl, -⟩ := loopStep_exit hstep hok
          exact hok
      · next hstep => exact loopStep_next_ok hstep (ih h)

theorem runLoops_unique {fuel fuel' : Nat} {p : LoopPoint} {s s₁ s₂ : LoopState}
    (h : runLoops input base blockOffset fuel p s = some s₁)
    (h' : runLoops input base blockOffset fuel' p s = some s₂) : s₁ = s₂ := by
  induction fuel generalizing fuel' p s with
  | zero => cases h
  | succ fuel ih =>
      cases fuel' with
      | zero => cases h'
      | succ fuel' =>
          simp only [runLoops] at h h'
          cases hstep : loopStep input base blockOffset p s with
          | exit s' =>
              rw [hstep] at h h'
              cases h
              cases h'
              rfl
          | next p' s' =>
              rw [hstep] at h h'
              exact ih h h'

end Steps

/-! ### Reached states -/

theorem startState_assembler (c : Compiler) (start : Address) :
    (startState c start).compiler.assembler = c.assembler.emitPrologue := by
  simp only [startState]

theorem startState_window (c : Compiler) (start : Address) :
    (startState c start).compiler.window = c.window := by
  simp only [startState]

theorem finishTranslation_compiler (input : TranslateInput) (base : Address) (blockOffset : Nat)
    (s : LoopState) :
    (finishTranslation input base blockOffset s).compiler =
      s.compiler.terminateBlock s.guestAddress s.isPcDynamic s.armInstructionCount
        input.engineFlags := by
  simp only [finishTranslation]
  split <;> rfl

section Reached

variable {input : TranslateInput} {c : Compiler} {start : Address}

/-- The loops of a translation come to stand at a point with the given local variables. -/
inductive Reaches (input : TranslateInput) (c : Compiler) (start : Address) :
    LoopPoint → LoopState → Prop
  | start : Reaches input c start .whileTest (startState c start)
  | step {p p' : LoopPoint} {s s' : LoopState} (hreach : Reaches input c start p s)
      (hnext : loopStep input start c.assembler.offset p s = .next p' s') :
      Reaches input c start p' s'

theorem Reaches.readable {bytes : Nat} (h : Readable input start bytes) :
    Reaches input c start (.forTest 0 (min (bytes / 4) input.maxInstructions)) (startState c start) :=
  .step .start (loopStep_readable h rfl)

/-- The run passes through every state it reaches. -/
theorem Reaches.runLoops {p : LoopPoint} {s s' : LoopState} (h : Reaches input c start p s) {fuel : Nat}
    (hrun : runLoops input start c.assembler.offset fuel .whileTest (startState c start) = some s') :
    ∃ fuel', Ballistic.runLoops input start c.assembler.offset fuel' p s = some s' := by
  induction h with
  | start => exact ⟨fuel, hrun⟩
  | step _ hnext ih =>
      obtain ⟨fuel', hrun'⟩ := ih
      cases fuel' with
      | zero => cases hrun'
      | succ fuel' =>
          rw [Ballistic.runLoops, hnext] at hrun'
          exact ⟨fuel', hrun'⟩

/-- The place in a readable range is at most the number of instructions translated. -/
theorem Reaches.place_le {p : LoopPoint} {s : LoopState} (h : Reaches input c start p s) :
    ∀ {i limit}, p = .forTest i limit → i ≤ s.armInstructionCount := by
  induction h with
  | start =>
      intro i limit hp
      cases hp
  | step hreach hnext ih =>
      intro i limit hp
      obtain ⟨_, -, -, -, hfirst, -⟩ | ⟨_, _, -, -, hback, -⟩ | ⟨j, _, rfl, -, rfl, hnext'⟩ :=
        loopStep_next hnext
      · cases hfirst.symm.trans hp
        exact Nat.zero_le _
      · cases hback.symm.trans hp
      · rw [hnext'] at hp
        split at hp
        · cases hp
        · next hmore =>
            cases hp
            rw [translateInstruction_count (Bool.eq_false_iff.mpr hmore)]
            exact Nat.succ_le_succ (ih rfl)

/-- A run ends where the last state it reaches ends. -/
theorem runLoops_reaches {fuel : Nat} {p : LoopPoint} {s s' : LoopState}
    (h : Reaches input c start p s)
    (hrun : runLoops input start c.assembler.offset fuel p s = some s') :
    ∃ p'' s'', Reaches input c start p'' s'' ∧
      loopStep input start c.assembler.offset p'' s'' = .exit s' := by
  induction fuel generalizing p s with
  | zero => cases hrun
  | succ fuel ih =>
      rw [runLoops] at hrun
      split at hrun
      · next hstep =>
          cases hrun
          exact ⟨p, s, h, hstep⟩
      · next hstep => exact ih (.step h hstep) hrun

/-- A translation returns an entry. -/
structure Succeeds (input : TranslateInput) (c : Compiler) (start : Address) (t : Translation)
    (entry : Nat) : Prop where
  translates : Translates input c start t
  entry_eq : t.entry = some entry

/-- A translation that returns an entry, found by evaluation. -/
theorem succeeds_of_eval (input : TranslateInput) (c : Compiler) (start : Address) (fuel : Nat)
    {entry : Nat}
    (h : (balTier1CompilerTranslate input c start fuel).bind (·.entry) = some entry) :
    ∃ t, balTier1CompilerTranslate input c start fuel = some t ∧
      Succeeds input c start t entry := by
  obtain ⟨t, htranslate, hentry⟩ := Option.bind_eq_some_iff.mp h
  exact ⟨t, htranslate, ⟨fuel, htranslate⟩, hentry⟩

/-- The local variables with which the loops of a successful translation end. -/
structure Final (input : TranslateInput) (c : Compiler) (start : Address) (t : Translation)
    (s : LoopState) : Prop where
  reaches : Reaches input c start .whileTest s
  terminated : s.isBlockTerminated = true
  compiler_eq : t.compiler = s.compiler.terminateBlock s.guestAddress s.isPcDynamic
    s.armInstructionCount input.engineFlags
  ok : t.compiler.Ok

variable {t : Translation} {entry : Nat}

theorem Succeeds.final (h : Succeeds input c start t entry) :
    entry = c.assembler.offset ∧ (∃ s, Final input c start t s) ∧
      ∀ {p s}, Reaches input c start p s → s.compiler.Ok := by
  obtain ⟨⟨fuel, htranslate⟩, hentry⟩ := h
  unfold balTier1CompilerTranslate at htranslate
  split at htranslate
  · cases htranslate
    cases hentry
  · rw [Option.map_eq_some_iff] at htranslate
    obtain ⟨s', hrun, rfl⟩ := htranslate
    simp only [finishTranslation] at hentry ⊢
    split at hentry
    · cases hentry
    · next hsuccess =>
        have hok : (s'.compiler.terminateBlock s'.guestAddress s'.isPcDynamic s'.armInstructionCount
            input.engineFlags).Ok := by
          rw [not_or, not_not, not_not] at hsuccess
          exact ⟨hsuccess.1, hsuccess.2⟩
        have hok' := (Compiler.terminateBlock_code hok).1
        obtain ⟨p, s, hreach, hexit⟩ := runLoops_reaches .start hrun
        obtain ⟨rfl, rfl, hterminated⟩ := loopStep_exit hexit hok'
        simp only [hsuccess, if_false]
        refine ⟨(Option.some.inj hentry).symm, ⟨s', hreach, hterminated, rfl, hok⟩, ?_⟩
        intro p s hreach'
        obtain ⟨fuel', hrun'⟩ := hreach'.runLoops hrun
        exact runLoops_ok hrun' hok'

theorem Succeeds.ok (h : Succeeds input c start t entry) {p : LoopPoint} {s : LoopState}
    (hreach : Reaches input c start p s) : s.compiler.Ok := h.final.2.2 hreach

/-- The word at the current guest address is not in the decoder table. -/
def Undecodable (input : TranslateInput) (p : LoopPoint) (s : LoopState) : Prop :=
  ∃ i limit, p = .forTest i limit ∧ i < limit ∧
    balDecodeArm64 input.table (input.memory.word s.guestAddress) = none

/-- From a word that is not in the table the loops come back to it, or leave because the memory
interface refuses the address: never with success. -/
theorem Undecodable.not_ok {p : LoopPoint} {s s' : LoopState} (h : Undecodable input p s)
    (hmax : input.maxInstructions ≠ 0) {base : Address} {blockOffset fuel : Nat}
    (hrun : runLoops input base blockOffset fuel p s = some s') :
    s'.compiler.status = .memoryFault ∨ s'.compiler.status = .pcAlignment := by
  -- Two moves lead from such a word to the same word again, so the induction is on the fuel.
  induction fuel using Nat.strong_induction_on generalizing p s with
  | _ fuel ih =>
      obtain ⟨i, limit, rfl, hin, hdecode⟩ := h
      cases fuel with
      | zero => cases hrun
      | succ fuel =>
          have hstep : loopStep input base blockOffset (.forTest i limit) s =
              .next .whileTest { s with isBlockTerminated := false } := by
            simp [loopStep, translateInstruction, hin, hdecode]
          rw [runLoops, hstep] at hrun
          simp only at hrun
          cases fuel with
          | zero => cases hrun
          | succ fuel =>
              rw [runLoops] at hrun
              split at hrun
              · next s1 hexit =>
                  cases hrun
                  simp only [loopStep, Bool.false_eq_true, if_false] at hexit
                  split at hexit
                  · cases hexit
                    exact .inl rfl
                  · split at hexit
                    · cases hexit
                      exact .inr rfl
                    · split at hexit
                      · cases hexit
                        exact .inr rfl
                      · cases hexit
              · next p1 s1 hnext =>
                  obtain ⟨bytes, -, -, hreadable, rfl, rfl⟩ | ⟨_, _, habsurd, _⟩ |
                    ⟨_, _, habsurd, _⟩ := loopStep_next hnext
                  · have hbytes := hreadable.2.1
                    exact ih fuel (by omega) (s := { s with isBlockTerminated := false })
                      ⟨0, _, rfl, by omega, hdecode⟩ hrun
                  · cases habsurd
                  · cases habsurd

theorem Succeeds.max_ne_zero (h : Succeeds input c start t entry) : input.maxInstructions ≠ 0 := by
  obtain ⟨⟨fuel, htranslate⟩, hentry⟩ := h
  intro hzero
  rw [balTier1CompilerTranslate, if_pos hzero] at htranslate
  cases htranslate
  cases hentry

/-- A successful translation has decoded every word it came to. -/
theorem Succeeds.decodes (h : Succeeds input c start t entry) {i limit : Nat} {s : LoopState}
    (hreach : Reaches input c start (.forTest i limit) s) (hin : i < limit) :
    ∃ metadata, balDecodeArm64 input.table (input.memory.word s.guestAddress) = some metadata := by
  by_contra hnone
  have hundecodable : Undecodable input (.forTest i limit) s :=
    ⟨i, limit, rfl, hin, by
      cases hdecode : balDecodeArm64 input.table (input.memory.word s.guestAddress) with
      | none => rfl
      | some metadata => exact absurd ⟨metadata, hdecode⟩ hnone⟩
  have hmax := h.max_ne_zero
  obtain ⟨⟨fuel, htranslate⟩, hentry⟩ := h
  rw [balTier1CompilerTranslate, if_neg hmax, Option.map_eq_some_iff] at htranslate
  obtain ⟨s', hrun, rfl⟩ := htranslate
  obtain ⟨fuel', hrun'⟩ := hreach.runLoops hrun
  have hstatus : s'.compiler.status ≠ .success := by
    rcases hundecodable.not_ok hmax hrun' with hstatus | hstatus <;> rw [hstatus] <;> decide
  simp only [finishTranslation] at hentry
  split at hentry
  · cases hentry
  · next hsuccess =>
      rw [not_or, not_not, not_not] at hsuccess
      exact hstatus (Compiler.terminateBlock_code ⟨hsuccess.1, hsuccess.2⟩).1.status

/-! ### The scan -/

/-- The local variables while the block goes on. -/
structure Running (input : TranslateInput) (start : Address) (p : LoopPoint) (s : LoopState) :
    Prop where
  notTerminated : s.isBlockTerminated = false
  static : s.isPcDynamic = false
  scans : Scans input start p s.guestAddress

theorem LoopState.Counts.eq {s s' : LoopState} (h : s.Counts s') :
    s'.compiler = s.compiler ∧ s'.guestAddress = s.guestAddress ∧
      s'.isBlockTerminated = s.isBlockTerminated ∧ s'.isPcDynamic = s.isPcDynamic := by
  obtain ⟨mappings, rfl⟩ := h
  exact ⟨rfl, rfl, rfl, rfl⟩

theorem LoopState.Counts.count_eq {s s' : LoopState} (h : s.Counts s') :
    s'.armInstructionCount = s.armInstructionCount + 1 := by
  obtain ⟨mappings, rfl⟩ := h
  rfl

/-- An instruction at which the block goes on. -/
theorem translateInstruction_continues {base : Address} {blockOffset i : Nat} {s : LoopState}
    {metadata : Metadata}
    (hdecode : balDecodeArm64 input.table (input.memory.word s.guestAddress) = some metadata)
    (hmore : endingOf input i metadata = none) (hterminated : s.isBlockTerminated = false)
    (hok : (translateInstruction input base blockOffset i s).1.compiler.Ok) :
    ∃ p s', s.compiler.allocator.plan metadata (input.memory.word s.guestAddress) = some p ∧
      (s.compiler.apply p).Ok ∧
      (s.withCompiler (s.compiler.apply p)).Counts s' ∧
      translateInstruction input base blockOffset i s =
        ({ s' with guestAddress := s.guestAddress + 4 }, false) := by
  obtain ⟨-, hcase⟩ := translateInstruction_ok hok
  simp only [hdecode] at hcase
  obtain ⟨htrapped, houtcome, hlimit⟩ := endingOf_none hmore
  simp only [htrapped, Bool.false_eq_true, if_false, hlimit] at hcase
  obtain ⟨hok', s', hcounts, heq⟩ := hcase
  have hswitch := (LoopState.translateOpcode_ok hok').2
  simp only [houtcome] at hswitch
  obtain ⟨p, hplan, hopcode⟩ := hswitch
  have hflag : (s.withCompiler (s.compiler.apply p)).isBlockTerminated = false := hterminated
  simp only [hopcode, hflag, Bool.false_eq_true, if_false] at heq hok' hcounts
  exact ⟨p, s', hplan, hok', hcounts, heq⟩

/-- What the last instruction of a block leaves behind. -/
def LeavesAt (input : TranslateInput) (s0 : LoopState) (metadata : Metadata) (ending : Ending)
    (s : LoopState) : Prop :=
  match ending with
  | .trapped => s = s0.terminate
  | _ =>
      (s0.translateOpcode metadata (input.memory.word s0.guestAddress)).compiler.Ok ∧
        ∃ s', (s0.translateOpcode metadata (input.memory.word s0.guestAddress)).Counts s' ∧
          s = s'.terminate

/-- Whatever ends a block in the switch has also marked it terminated. -/
theorem LoopState.translateOpcode_terminated {s : LoopState} {metadata : Metadata} {w : BitVec 32}
    (hok : (s.translateOpcode metadata w).compiler.Ok) (houtcome : metadata.outcome ≠ .continues) :
    (s.translateOpcode metadata w).isBlockTerminated = true := by
  have hswitch := (LoopState.translateOpcode_ok hok).2
  cases hkind : metadata.outcome with
  | continues => exact absurd hkind houtcome
  | stops =>
      simp only [hkind] at hswitch
      rw [hswitch]
      rfl
  | jumps =>
      simp only [hkind] at hswitch
      rw [hswitch]
  | movesRegister =>
      simp only [hkind] at hswitch
      obtain ⟨p, -, hswitch⟩ := hswitch
      rw [hswitch]
      rfl
  | returns =>
      simp only [hkind] at hswitch
      obtain ⟨p, -, hswitch⟩ := hswitch
      rw [hswitch]
  | branches =>
      simp only [hkind] at hswitch
      rw [hswitch]
      rfl
  | fails => simp only [hkind] at hswitch

theorem translateInstruction_ends {base : Address} {blockOffset i : Nat} {s : LoopState}
    {metadata : Metadata} {ending : Ending}
    (hdecode : balDecodeArm64 input.table (input.memory.word s.guestAddress) = some metadata)
    (hending : endingOf input i metadata = some ending)
    (hok : (translateInstruction input base blockOffset i s).1.compiler.Ok) :
    (translateInstruction input base blockOffset i s).2 = true ∧
      LeavesAt input s metadata ending (translateInstruction input base blockOffset i s).1 := by
  obtain ⟨-, hcase⟩ := translateInstruction_ok hok
  simp only [hdecode] at hcase
  obtain ⟨htrapped, rfl⟩ | ⟨htrapped, houtcome, rfl⟩ | ⟨htrapped, -, hlimit, rfl⟩ :=
    endingOf_some hending
  · simp only [htrapped, if_true] at hcase
    rw [hcase]
    exact ⟨rfl, rfl⟩
  · simp only [htrapped, Bool.false_eq_true, if_false] at hcase
    obtain ⟨hok', s', hcounts, heq⟩ := hcase
    have hterminated := LoopState.translateOpcode_terminated hok' houtcome
    have hs' : s'.isBlockTerminated = true := by rw [hcounts.eq.2.2.1, hterminated]
    have hself : s' = s'.terminate := by
      cases s'
      simp only at hs'
      rw [hs']
      rfl
    by_cases hlimit : i + 1 = input.maxInstructions
    · simp only [hlimit, if_true] at heq
      rw [heq]
      exact ⟨rfl, hok', s', hcounts, rfl⟩
    · simp only [hlimit, if_false, hterminated, if_true] at heq
      rw [heq]
      exact ⟨rfl, hok', s', hcounts, hself⟩
  · simp only [htrapped, Bool.false_eq_true, if_false, hlimit, if_true] at hcase
    obtain ⟨hok', s', hcounts, heq⟩ := hcase
    rw [heq]
    exact ⟨rfl, hok', s', hcounts, rfl⟩

theorem LeavesAt.terminated {s0 s : LoopState} {metadata : Metadata} {ending : Ending}
    (h : LeavesAt input s0 metadata ending s) : s.isBlockTerminated = true := by
  unfold LeavesAt at h
  split at h
  · rw [h]
    rfl
  · obtain ⟨-, s', -, rfl⟩ := h
    rfl

/-- The state in which a block is terminated, with the instruction at which it ended. -/
structure Ended (input : TranslateInput) (c : Compiler) (start : Address) (s : LoopState)
    (s0 : LoopState) (metadata : Metadata) (ending : Ending) : Prop where
  before : ∃ i limit, Reaches input c start (.forTest i limit) s0 ∧
    Running input start (.forTest i limit) s0 ∧ i < limit ∧ endingOf input i metadata = some ending
  decodes : balDecodeArm64 input.table (input.memory.word s0.guestAddress) = some metadata
  leaves : LeavesAt input s0 metadata ending s

theorem Ended.endsAt {s s0 : LoopState} {metadata : Metadata} {ending : Ending}
    (h : Ended input c start s s0 metadata ending) :
    EndsAt input start s0.guestAddress metadata ending := by
  obtain ⟨i, limit, -, hrunning, hin, hending⟩ := h.before
  exact ⟨i, limit, hrunning.scans, hin, h.decodes, hending⟩

/-- **The loops follow the scan** as long as the block goes on, and then stop at its end. -/
theorem Succeeds.reached (h : Succeeds input c start t entry) {p : LoopPoint} {s : LoopState}
    (hreach : Reaches input c start p s) :
    Running input start p s ∨
      (p = .whileTest ∧ ∃ s0 metadata ending, Ended input c start s s0 metadata ending) := by
  induction hreach with
  | start => exact .inl ⟨rfl, rfl, .refl⟩
  | @step p p' s s' hreach hnext ih =>
      have hok := h.ok (.step hreach hnext)
      rcases ih with hrunning | ⟨rfl, s0, metadata, ending, hended⟩
      · obtain ⟨bytes, rfl, -, hreadable, rfl, rfl⟩ | ⟨i, limit, rfl, hout, rfl, rfl⟩ |
          ⟨i, limit, rfl, hin, rfl, rfl⟩ := loopStep_next hnext
        · exact .inl ⟨hrunning.notTerminated, hrunning.static,
            hrunning.scans.tail (.readable hreadable)⟩
        · exact .inl ⟨hrunning.notTerminated, hrunning.static, hrunning.scans.tail (.exhausted hout)⟩
        · obtain ⟨metadata, hdecode⟩ := h.decodes hreach hin
          cases hending : endingOf input i metadata with
          | none =>
              obtain ⟨plan, s1, -, -, hcounts, heq⟩ :=
                translateInstruction_continues hdecode hending hrunning.notTerminated hok
              obtain ⟨-, -, hterminated, hdynamic⟩ := hcounts.eq
              rw [heq]
              exact .inl ⟨hterminated.trans hrunning.notTerminated, hdynamic.trans hrunning.static,
                hrunning.scans.tail (.next hin hdecode hending)⟩
          | some ending =>
              obtain ⟨hbreak, hleaves⟩ := translateInstruction_ends hdecode hending hok
              rw [hbreak]
              exact .inr ⟨rfl, s, metadata, ending, ⟨i, limit, hreach, hrunning, hin, hending⟩,
                hdecode, hleaves⟩
      · -- A terminated block makes no further move.
        obtain ⟨_, -, hfalse, _⟩ | ⟨_, _, habsurd, _⟩ | ⟨_, _, habsurd, _⟩ := loopStep_next hnext
        · rw [hended.leaves.terminated] at hfalse
          cases hfalse
        · cases habsurd
        · cases habsurd

/-- The run of the loops ends with the final state. -/
theorem Final.runLoops_eq {s s' : LoopState} (h : Final input c start t s) {fuel : Nat}
    (hrun : runLoops input start c.assembler.offset fuel .whileTest (startState c start) = some s') :
    s' = s := by
  obtain ⟨fuel', hrun'⟩ := h.reaches.runLoops hrun
  have hone : runLoops input start c.assembler.offset 1 .whileTest s = some s := by
    rw [runLoops, loopStep_terminated h.terminated]
  exact runLoops_unique hrun' hone

theorem Succeeds.endedAt (h : Succeeds input c start t entry) {s : LoopState}
    (hfinal : Final input c start t s) :
    ∃ s0 metadata ending, Ended input c start s s0 metadata ending := by
  rcases h.reached hfinal.reaches with hrunning | ⟨-, hended⟩
  · have hterminated := hfinal.terminated
    rw [hrunning.notTerminated] at hterminated
    cases hterminated
  · exact hended

theorem Succeeds.ended (h : Succeeds input c start t entry) :
    ∃ s s0 metadata ending, Final input c start t s ∧ Ended input c start s s0 metadata ending := by
  obtain ⟨-, ⟨s, hfinal⟩, -⟩ := h.final
  obtain ⟨s0, metadata, ending, hended⟩ := h.endedAt hfinal
  exact ⟨s, s0, metadata, ending, hfinal, hended⟩

end Reached

end Ballistic
