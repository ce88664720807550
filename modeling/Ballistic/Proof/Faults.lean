import Ballistic.Proof.Scripts

/-!
# Why an instruction stops the block

The check after an instruction looks at the compiler's status and at the assembler's. What it finds is
decided before the instruction is translated: by the instruction, by the register allocator and by the
room in the buffer (`failure_iff`).
-/

namespace Ballistic

open Machine Machine.X86

/-- An instruction that is in the decoder table and that the compiler refuses. -/
def Unsupported (metadata : Metadata) (w : BitVec 32) : Prop :=
  match metadata.irOpcode with
  | .trap | .load | .store | .xor | .mul | .div | .callHost => True
  | .branchConditional => w &&& 0xF ≠ 0xE ∧ Compiler.conditionFlag (w &&& 0xF) = none
  | .add | .sub | .cmp =>
      isRegister (metadata.operand 3) = true ∧ extractOperandValue w (metadata.operand 2) ≠ 0
  | .and => metadata.nameAt 3 = 'S' ∨ extractOperandValue w (metadata.operand 2) ≠ 0
  | .mov | .jump | .branchZero | .branchNotZero | .return => False

theorem Unsupported.status {metadata : Metadata} {w : BitVec 32} (h : Unsupported metadata w)
    (s : LoopState) : (s.translateOpcode metadata w).compiler.status = .unknownInstruction := by
  unfold Unsupported at h
  unfold LoopState.translateOpcode
  cases hopcode : metadata.irOpcode with
  | trap | load | store | xor | mul | div | callHost => rfl
  | branchConditional =>
      simp only [hopcode] at h
      simp only [LoopState.withCompiler, LoopState.terminate, Compiler.translateBCond, h.1, h.2,
        if_false]
  | add | sub | cmp =>
      simp only [hopcode] at h
      simp only [LoopState.translateAddSub, h.1, if_true, LoopState.withCompiler,
        Compiler.translateAddSubReg, if_pos h.2]
  | and =>
      simp only [hopcode] at h
      simp only [LoopState.withCompiler, Compiler.translateAnd]
      split
      · rfl
      · next hname => rw [if_pos (h.resolve_left hname)]
  | mov | jump | branchZero | branchNotZero | «return» =>
      simp only [hopcode] at h

/-! ### The code of an instruction -/

/-- The instruction ends the block with two arms of its own, or with one that it jumps to always. -/
def Metadata.branches (metadata : Metadata) : Bool :=
  match metadata.irOpcode with
  | .branchZero | .branchNotZero | .branchConditional => true
  | _ => false

/-- The requests of an instruction. -/
def instructionScript (metadata : Metadata) (w : BitVec 32) (r : RegisterAllocator) : Script :=
  match metadata.irOpcode with
  | .mov =>
      if metadata.nameAt 3 = 'N' ∨ metadata.nameAt 3 = 'K' ∨ metadata.nameAt 3 = 'Z' then
        .movImmediate metadata w
      else if isRegister (metadata.operand 1) then .movRegister metadata w
      else .done
  | .add | .sub | .cmp =>
      let isSub := metadata.irOpcode == .sub || metadata.irOpcode == .cmp
      if isRegister (metadata.operand 3) then .addSubReg metadata w isSub
      else if (metadata.operand 2).type = .immediate then .addSubImm metadata w isSub
      else .done
  | .and => .and metadata w
  | .return => .storesPc metadata w
  | .branchZero | .branchNotZero => .tests metadata w
  | .branchConditional =>
      if w &&& 0xF = 0xE then .pushMacros (Compiler.dirtyStores r) .done else .done
  | _ => .done

def armCalls (r : RegisterAllocator) (pc : Address) (epilogue : List EmitCall) : List EmitCall :=
  (Compiler.dirtyStores r).flatMap Macro.calls ++ storePcCalls pc ++ epilogue

/-- The calls of `terminate_block_conditional` up to the last `ret`. -/
def conditionalCalls (r : RegisterAllocator) (condition : Condition) (fallthroughPc takenPc : Address) :
    List EmitCall :=
  .jccRel32 condition (BitVec.ofNat 32 (Compiler.epilogueSize r fallthroughPc)) ::
    (armCalls r fallthroughPc (restoreCalls ++ [.ret]) ++ armCalls r takenPc [.popR64 (some .rbp)])

/-- The calls of a branch after its macros and up to the last `ret`. -/
def branchEnd (metadata : Metadata) (w : BitVec 32) (guestAddress : Address) (r : RegisterAllocator) :
    List EmitCall :=
  match metadata.irOpcode with
  | .branchZero =>
      conditionalCalls r .e (guestAddress + 4) (guestAddress + Compiler.branchOffset metadata w 1)
  | .branchNotZero =>
      conditionalCalls r .ne (guestAddress + 4) (guestAddress + Compiler.branchOffset metadata w 1)
  | .branchConditional =>
      let takenPc := guestAddress +
        ((w >>> 5 &&& 0x7FFFF ^^^ 0x40000) - 0x40000).signExtend 64 * 4
      if w &&& 0xF = 0xE then storePcCalls takenPc ++ [.popR64 (some .rbp)]
      else
        match Compiler.conditionFlag (w &&& 0xF) with
        | none => []
        | some (flagOffset, testForZero) =>
            .cmpMem8RbpOffsetImm (BitVec.ofNat 32 flagOffset) 0 ::
              conditionalCalls r (if testForZero then .e else .ne) (guestAddress + 4) takenPc
  | _ => []

section Code

variable (c : Compiler) (metadata : Metadata) (w : BitVec 32) (guestAddress : Address)

/-- The macros of an instruction that is not a branch which leave the window, and those of a branch
before its last request for a register. -/
def leavingMacros : List Macro := (instructionScript metadata w c.allocator).leaving c

/-- All calls of a branch. -/
def branchCalls : List EmitCall :=
  let script := instructionScript metadata w c.allocator
  (lowered c.window.macros (script.pushes c.allocator)).flatMap Macro.calls ++
    branchEnd metadata w guestAddress (script.allocator c.allocator) ++ [.ret]

/-- There is room for the code that the instruction adds to the buffer. -/
def CodeFits : Prop :=
  if metadata.branches then
    EmitCall.AllFit c.assembler.capacity c.assembler.offset (branchCalls c metadata w guestAddress)
  else MacrosFit c.assembler.capacity c.assembler.offset (leavingMacros c metadata w)

/-- The buffer ends inside the code that the instruction adds, and none of the emits that the
instruction makes after that overwrites the status. -/
def CodeEndsQuietly : Prop :=
  if metadata.branches then
    EmitCall.EndsQuietly c.assembler.capacity c.assembler.offset
      (branchCalls c metadata w guestAddress)
  else MacrosEndQuietly c.assembler.capacity c.assembler.offset (leavingMacros c metadata w)

instance decidableCodeFits : Decidable (CodeFits c metadata w guestAddress) :=
  inferInstanceAs (Decidable (if metadata.branches then _ else _))

instance decidableCodeEndsQuietly : Decidable (CodeEndsQuietly c metadata w guestAddress) :=
  inferInstanceAs (Decidable (if metadata.branches then _ else _))

/-- A register that the instruction asks for is refused, and there is room for the macros before. -/
def Refused (error : BalError) : Prop :=
  MacrosFit c.assembler.capacity c.assembler.offset (leavingMacros c metadata w) ∧
    (instructionScript metadata w c.allocator).refusal c.allocator = some error

/-- `translate_and` has no registers for its operands: one is refused, or there is no room for the
macros that load the sources. -/
def LacksOperands : Prop :=
  metadata.irOpcode = .and ∧
    ((Script.and metadata w).refusal c.allocator ≠ none ∨
      ¬MacrosFit c.assembler.capacity c.assembler.offset ((Script.andOperands metadata w).leaving c))

/-- Why an instruction stops the block, with the status that it leaves. -/
inductive InstructionFails : BalError → Prop
  | unsupported (h : Unsupported metadata w) : InstructionFails .unknownInstruction
  | operands (hsupported : ¬Unsupported metadata w) (h : LacksOperands c metadata w) :
      InstructionFails .incorrectRegisterType
  | refused {error : BalError} (hsupported : ¬Unsupported metadata w)
      (hoperands : ¬LacksOperands c metadata w) (h : Refused c metadata w error) :
      InstructionFails error
  | overflow (hsupported : ¬Unsupported metadata w) (hoperands : ¬LacksOperands c metadata w)
      (hserved : ∀ error, ¬Refused c metadata w error) (h : CodeEndsQuietly c metadata w guestAddress) :
      InstructionFails .instructionOverflow
  | overwritten (hsupported : ¬Unsupported metadata w) (hoperands : ¬LacksOperands c metadata w)
      (hserved : ∀ error, ¬Refused c metadata w error) (hshort : ¬CodeFits c metadata w guestAddress)
      (h : ¬CodeEndsQuietly c metadata w guestAddress) : InstructionFails .invalidArgument

end Code

/-- The status that the check after an instruction reports. -/
def Compiler.failure (c : Compiler) : BalError :=
  if c.status = .success then c.assembler.status else c.status

/-! ### Instructions that only push macros -/

section Macros

variable {s : LoopState} {metadata : Metadata} {w : BitVec 32}

theorem isLowered_instructionScript (metadata : Metadata) (w : BitVec 32) (r : RegisterAllocator) :
    (instructionScript metadata w r).IsLowered := by
  unfold instructionScript
  have hstores : ∀ m ∈ Compiler.dirtyStores r, m.isLowered = true := by
    intro m hm
    rw [Macro.isLowered, Compiler.dirtyStores_store r m hm]
  cases metadata.irOpcode with
  | mov =>
      simp only
      repeat' split
      · exact Script.isLowered_movImmediate metadata w
      · exact Script.isLowered_movRegister metadata w
      · trivial
  | add | sub | cmp =>
      simp only
      repeat' split
      · exact Script.isLowered_addSubReg metadata w _
      · exact Script.isLowered_addSubImm metadata w _
      · trivial
  | and => exact Script.isLowered_and metadata w
  | «return» => exact Script.isLowered_storesPc metadata w
  | branchZero | branchNotZero => exact Script.isLowered_tests metadata w
  | branchConditional =>
      simp only
      split
      · exact Script.isLowered_pushMacros hstores trivial
      · trivial
  | _ => trivial

/-- The switch carries out the script of an instruction that is neither a branch nor a conjunction. -/
theorem translateOpcode_script (hstatus : s.compiler.status = .success) (hsupported : ¬Unsupported metadata w)
    (hbranch : metadata.branches = false) (hand : metadata.irOpcode ≠ .and) :
    (s.translateOpcode metadata w).compiler =
      (instructionScript metadata w s.compiler.allocator).run s.compiler := by
  unfold Unsupported at hsupported
  unfold Metadata.branches at hbranch
  unfold LoopState.translateOpcode instructionScript
  cases hopcode : metadata.irOpcode with
  | mov =>
      simp only [LoopState.translateMov]
      split
      · exact (Script.run_movImmediate _ _ _).symm
      · split
        · exact (Script.run_movRegister _ _ _ hstatus).symm
        · rfl
  | add | sub | cmp =>
      simp only [hopcode, not_and, not_not] at hsupported
      simp only [LoopState.translateAddSub, hopcode]
      split
      · next hregister => exact (Script.run_addSubReg _ _ _ _ (hsupported hregister)).symm
      · split
        · exact (Script.run_addSubImm _ _ _ _).symm
        · rfl
  | jump | «return» => rfl
  | and => exact absurd hopcode hand
  | branchZero | branchNotZero | branchConditional => simp only [hopcode] at hbranch; cases hbranch
  | trap | load | store | xor | mul | div | callHost =>
      simp only [hopcode, not_true_eq_false] at hsupported

end Macros

/-! ### Refusals -/

theorem Script.refusal_ne_success {script : Script} {r : RegisterAllocator} {error : BalError}
    (h : script.refusal r = some error) : error ≠ .success := by
  induction script generalizing r with
  | done => cases h
  | push m rest ih => exact ih h
  | mark arm rest ih => exact ih h
  | allocate arm skipLoad rest ih =>
      simp only [Script.refusal] at h
      split at h
      · cases h
        exact Compiler.refusalError_ne_success arm
      · exact ih _ h

theorem Script.refusal_ne_overflow {script : Script} {r : RegisterAllocator} {error : BalError}
    (h : script.refusal r = some error) : error ≠ .instructionOverflow := by
  induction script generalizing r with
  | done => cases h
  | push m rest ih => exact ih h
  | mark arm rest ih => exact ih h
  | allocate arm skipLoad rest ih =>
      simp only [Script.refusal] at h
      split at h
      · cases h
        unfold refusalError
        split <;> decide
      · exact ih _ h

/-! ### The conjunction -/

namespace Compiler

variable {c : Compiler} {metadata : Metadata} {w : BitVec 32}

theorem allocateX86Register_none (h : ¬c.Ok) (arm : Nat) (skipLoad : Bool) :
    (c.allocateX86Register arm skipLoad).1 = none := by
  unfold allocateX86Register
  by_cases hstatus : c.status = .success
  · have hassembler : c.assembler.status ≠ .success := fun ha => h ⟨hstatus, ha⟩
    simp [hstatus, hassembler]
  · simp [hstatus]

/-- The compiler after the two sources of `translate_and`. -/
def andSources (c : Compiler) (metadata : Metadata) (w : BitVec 32) : Compiler :=
  (Script.andOperands metadata w).run c

theorem andSources_failed (h : ¬(c.andSources metadata w).Ok) :
    ((c.andSources metadata w).allocateX86Register (registerOperand metadata w 0) true).1 = none :=
  allocateX86Register_none h _ _

/-- With a register missing the translator sets its error over whatever went wrong. -/
theorem translateAnd_lacks (hsupported : ¬(metadata.nameAt 3 = 'S' ∨
      extractOperandValue w (metadata.operand 2) ≠ 0))
    (hnone : ((c.andSources metadata w).allocateX86Register (registerOperand metadata w 0) true).1 = none) :
    (c.translateAnd metadata w).status = .incorrectRegisterType := by
  rw [not_or] at hsupported
  simp only [translateAnd, if_neg hsupported.1, if_neg hsupported.2]
  rw [if_pos]
  exact .inl hnone

theorem translateAnd_script (hsupported : ¬(metadata.nameAt 3 = 'S' ∨
      extractOperandValue w (metadata.operand 2) ≠ 0))
    (hn : (c.allocateX86Register (registerOperand metadata w 1) false).1 ≠ none)
    (hm : ((c.allocateX86Register (registerOperand metadata w 1) false).2.allocateX86Register
      (registerOperand metadata w 3) false).1 ≠ none)
    (hd : ((c.andSources metadata w).allocateX86Register (registerOperand metadata w 0) true).1 ≠ none) :
    c.translateAnd metadata w = (Script.and metadata w).run c := by
  rw [not_or] at hsupported
  simp only [translateAnd, if_neg hsupported.1, if_neg hsupported.2]
  rw [if_neg (by
    rintro (hnone | hnone | hnone)
    · exact hd hnone
    · exact hn hnone
    · exact hm hnone)]
  simp only [Script.and, Script.run]
  split
  · rfl
  · split
    · rfl
    · split <;> rfl

/-- The sources fail if there is no room for their loads, or if one of them is refused. -/
theorem andSources_not_ok (hok : c.Ok) (hwindow : ∀ m ∈ c.window.macros, m.isLowered = true)
    (hsize : c.assembler.capacity ≤ sizeMax)
    (h : ¬MacrosFit c.assembler.capacity c.assembler.offset ((Script.andOperands metadata w).leaving c) ∨
      (Script.andOperands metadata w).refusal c.allocator ≠ none) : ¬(c.andSources metadata w).Ok := by
  intro hgood
  have hoperands : (Script.andOperands metadata w).IsLowered := fun _ _ => trivial
  obtain ⟨hshort, hfits⟩ := Script.run_room hoperands hok hwindow hsize
  by_cases hroom : MacrosFit c.assembler.capacity c.assembler.offset
      ((Script.andOperands metadata w).leaving c)
  · have hsources := hfits hroom
    obtain ⟨error, hrefusal⟩ := Option.ne_none_iff_exists'.mp (h.resolve_left (not_not.mpr hroom))
    rw [hrefusal] at hsources
    exact Script.refusal_ne_success hrefusal (hsources.symm.trans hgood.status)
  · have hstatus := (hshort hroom).2.symm.trans hgood.assembler
    split at hstatus <;> cases hstatus

/-- With all its registers the conjunction carries out its script. -/
theorem translateAnd_served (hok : c.Ok)
    (hsupported : ¬(metadata.nameAt 3 = 'S' ∨ extractOperandValue w (metadata.operand 2) ≠ 0))
    {n m d : Allocated} (hn : c.allocator.allocate (registerOperand metadata w 1) false = some n)
    (hm : n.allocator.allocate (registerOperand metadata w 3) false = some m)
    (hd : m.allocator.allocate (registerOperand metadata w 0) true = some d)
    (hgood : (c.andSources metadata w).Ok) (hallocator : (c.andSources metadata w).allocator = m.allocator) :
    c.translateAnd metadata w = (Script.and metadata w).run c := by
  have hfirst := allocateX86Register_of_plan hok hn
  have hgiven : (c.apply n.toPlan).Ok := by
    by_contra hfailed
    have hstays : c.andSources metadata w = c.apply n.toPlan := by
      simp only [andSources, Script.andOperands, Script.run, hfirst, allocateX86Register_failed hfailed]
    exact hfailed (hstays ▸ hgood)
  have hsecond : ((c.apply n.toPlan).allocateX86Register (registerOperand metadata w 3) false) =
      (some m.register, (c.apply n.toPlan).apply m.toPlan) :=
    allocateX86Register_of_plan hgiven hm
  have hthird := allocateX86Register_of_plan hgood (hallocator ▸ hd)
  refine translateAnd_script hsupported ?_ ?_ ?_
  · rw [hfirst]
    exact Option.some_ne_none _
  · rw [hfirst, hsecond]
    exact Option.some_ne_none _
  · exact (congrArg Prod.fst hthird).trans_ne (Option.some_ne_none _)

/-- **The conjunction** reports its own error if it lacks a register, and else carries out its script. -/
theorem translateAnd_spec (hok : c.Ok) (hwindow : ∀ m ∈ c.window.macros, m.isLowered = true)
    (hsize : c.assembler.capacity ≤ sizeMax) (hand : metadata.irOpcode = .and)
    (hsupported : ¬(metadata.nameAt 3 = 'S' ∨ extractOperandValue w (metadata.operand 2) ≠ 0)) :
    (LacksOperands c metadata w → (c.translateAnd metadata w).status = .incorrectRegisterType) ∧
      (¬LacksOperands c metadata w → c.translateAnd metadata w = (Script.and metadata w).run c) := by
  have hfailed := fun h => translateAnd_lacks hsupported
    (andSources_failed (andSources_not_ok hok hwindow hsize h))
  by_cases hroom : MacrosFit c.assembler.capacity c.assembler.offset
      ((Script.andOperands metadata w).leaving c)
  swap
  · exact ⟨fun _ => hfailed (.inl hroom), fun h => absurd ⟨hand, .inr hroom⟩ h⟩
  cases hn : c.allocator.allocate (registerOperand metadata w 1) false with
  | none =>
      have hrefusal : (Script.and metadata w).refusal c.allocator ≠ none := by
        simp [Script.and, Script.refusal, hn]
      refine ⟨fun _ => hfailed (.inr ?_), fun h => absurd ⟨hand, .inl hrefusal⟩ h⟩
      simp [Script.andOperands, Script.refusal, hn]
  | some n =>
      cases hm : n.allocator.allocate (registerOperand metadata w 3) false with
      | none =>
          have hrefusal : (Script.and metadata w).refusal c.allocator ≠ none := by
            simp [Script.and, Script.refusal, hn, hm]
          refine ⟨fun _ => hfailed (.inr ?_), fun h => absurd ⟨hand, .inl hrefusal⟩ h⟩
          simp [Script.andOperands, Script.refusal, hn, hm]
      | some m =>
          have hoperands : (Script.andOperands metadata w).refusal c.allocator = none := by
            simp [Script.andOperands, Script.refusal, hn, hm]
          have hallocator : (Script.andOperands metadata w).allocator c.allocator = m.allocator := by
            simp [Script.andOperands, Script.allocator, hn, hm]
          have hlowered : (Script.andOperands metadata w).IsLowered := fun _ _ => trivial
          have hsources := (Script.run_room hlowered hok hwindow hsize).2 hroom
          rw [hoperands] at hsources
          obtain ⟨hsame, hgood⟩ := hsources
          rw [← hsame] at hgood
          have hm' : (c.andSources metadata w).allocator = m.allocator := by
            rw [andSources, hsame]
            exact hallocator
          cases hd : m.allocator.allocate (registerOperand metadata w 0) true with
          | none =>
              have hrefusal : (Script.and metadata w).refusal c.allocator ≠ none := by
                simp [Script.and, Script.refusal, hn, hm, hd]
              refine ⟨fun _ => translateAnd_lacks hsupported ?_, fun h =>
                absurd ⟨hand, .inl hrefusal⟩ h⟩
              exact (allocateX86Register_refused hgood (hm' ▸ hd)).1
          | some d =>
              have hrefusal : (Script.and metadata w).refusal c.allocator = none := by
                simp only [Script.and, Script.refusal, hn, hm, hd]
                repeat' split
                all_goals rfl
              exact ⟨fun h => absurd h.2 (by simp [hrefusal, hroom]),
                fun _ => translateAnd_served hok hsupported hn hm hd hgood hm'⟩

end Compiler

/-! ### Branches -/

theorem makes_stores (r : RegisterAllocator) :
    Makes ((Compiler.dirtyStores r).flatMap Macro.calls) (flushMacros · (Compiler.dirtyStores r)) := by
  refine Makes.flushMacros fun m hm => ?_
  rw [Macro.isLowered, Compiler.dirtyStores_store r m hm]

theorem makes_arm (r : RegisterAllocator) (pc : Address) {epilogue : Assembler → Assembler}
    {calls : List EmitCall} (h : ∀ a, epilogue a = calls.foldl EmitCall.apply a) :
    Makes (armCalls r pc calls) (Compiler.emitArm (Compiler.dirtyStores r) pc epilogue) := by
  have hstores := ((makes_stores r).trans (Makes.emits (storePcCalls pc))).trans (Makes.emits calls)
  have hform : Compiler.emitArm (Compiler.dirtyStores r) pc epilogue = fun a =>
      calls.foldl EmitCall.apply
        ((storePcCalls pc).foldl EmitCall.apply (flushMacros a (Compiler.dirtyStores r))) := by
    funext a
    rw [Compiler.emitArm, h, emitStorePc_calls]
  rw [hform]
  exact hstores

/-- `terminate_block_conditional` makes its calls and then the last `ret`. -/
theorem terminateBlockConditional_makes (condition : Condition) (fallthroughPc takenPc : Address)
    (r : RegisterAllocator) : ∃ f, Makes (conditionalCalls r condition fallthroughPc takenPc) f ∧
      ∀ c : Compiler, c.allocator = r →
        (c.terminateBlockConditional condition fallthroughPc takenPc).assembler =
          (f c.flushAll.assembler).emitRet := by
  have hjump := Makes.emits
    [.jccRel32 condition (BitVec.ofNat 32 (Compiler.epilogueSize r fallthroughPc))]
  have hpop : ∀ a : Assembler, a.emitPopR64 (some .rbp) =
      [EmitCall.popR64 (some .rbp)].foldl EmitCall.apply a := fun _ => rfl
  have hfirst := makes_arm r fallthroughPc emitEpilogue_calls
  have hsecond := makes_arm r takenPc hpop
  refine ⟨_, hjump.trans (hfirst.trans hsecond), ?_⟩
  rintro c rfl
  rw [Compiler.terminateBlockConditional_assembler]
  rfl

section Branches

variable {s : LoopState} {metadata : Metadata} {w : BitVec 32}

/-- A branch carries out its script, lowers the window, and makes the calls of its end. -/
theorem translateOpcode_branch (hsupported : ¬Unsupported metadata w) (hbranch : metadata.branches = true)
    {c : Compiler} (hc : (instructionScript metadata w s.compiler.allocator).run s.compiler = c) :
    ∃ f, Makes (branchEnd metadata w s.guestAddress c.allocator) f ∧
      (s.translateOpcode metadata w).compiler.status = c.status ∧
      (s.translateOpcode metadata w).compiler.assembler = (f c.flushAll.assembler).emitRet := by
  unfold Unsupported at hsupported
  unfold Metadata.branches at hbranch
  unfold LoopState.translateOpcode branchEnd
  unfold instructionScript at hc
  cases hopcode : metadata.irOpcode with
  | branchZero =>
      simp only [hopcode] at hc ⊢
      obtain ⟨f, hf, hassembler⟩ := terminateBlockConditional_makes .e (s.guestAddress + 4)
        (s.guestAddress + Compiler.branchOffset metadata w 1) c.allocator
      refine ⟨f, hf, ?_, ?_⟩
      · rw [← hc]
        exact Compiler.terminateBlockConditional_status _ _ _ _
      · rw [← hassembler c rfl, ← hc]
        rfl
  | branchNotZero =>
      simp only [hopcode] at hc ⊢
      obtain ⟨f, hf, hassembler⟩ := terminateBlockConditional_makes .ne (s.guestAddress + 4)
        (s.guestAddress + Compiler.branchOffset metadata w 1) c.allocator
      refine ⟨f, hf, ?_, ?_⟩
      · rw [← hc]
        exact Compiler.terminateBlockConditional_status _ _ _ _
      · rw [← hassembler c rfl, ← hc]
        rfl
  | branchConditional =>
      simp only [hopcode] at hc hsupported ⊢
      simp only [LoopState.withCompiler, LoopState.terminate, Compiler.translateBCond]
      by_cases halways : w &&& 0xF = 0xE
      · rw [if_pos halways] at hc
        rw [Script.run_pushMacros, Script.run] at hc
        simp only [if_pos halways]
        refine ⟨_, (Makes.emits (storePcCalls _)).trans (Makes.emits [.popR64 (some .rbp)]), ?_, ?_⟩
        · rw [← hc]
          rfl
        · rw [← hc]
          simp only [Compiler.onAssembler_assembler, emitStorePc_calls, Assembler.emitShortEpilogue]
          rfl
      · rw [if_neg halways, Script.run] at hc
        subst hc
        simp only [if_neg halways]
        cases hflag : Compiler.conditionFlag (w &&& 0xF) with
        | none => exact absurd ⟨halways, hflag⟩ hsupported
        | some flag =>
            obtain ⟨flagOffset, testForZero⟩ := flag
            simp only
            obtain ⟨f, hf, hassembler⟩ := terminateBlockConditional_makes
              (if testForZero then .e else .ne) (s.guestAddress + 4)
              (s.guestAddress + ((w >>> 5 &&& 0x7FFFF ^^^ 0x40000) - 0x40000).signExtend 64 * 4)
              s.compiler.allocator
            refine ⟨_, (Makes.emits [.cmpMem8RbpOffsetImm (BitVec.ofNat 32 flagOffset) 0]).trans hf,
              ?_, ?_⟩
            · rw [Compiler.terminateBlockConditional_status]
              rfl
            · exact hassembler (s.compiler.flushAll.onAssembler
                (·.emitCmpMem8RbpOffsetImm (BitVec.ofNat 32 flagOffset) 0)) rfl
  | mov | add | sub | cmp | jump | «return» | and | trap | load | store | xor | mul | div | callHost =>
      simp only [hopcode] at hbranch
      cases hbranch

/-- A branch is refused its register before it pushes anything. -/
theorem leavingMacros_refused {c : Compiler} (hbranch : metadata.branches = true) {error : BalError}
    (h : (instructionScript metadata w c.allocator).refusal c.allocator = some error) :
    leavingMacros c metadata w = [] := by
  unfold Metadata.branches at hbranch
  unfold leavingMacros Script.leaving
  unfold instructionScript at h ⊢
  cases hopcode : metadata.irOpcode with
  | branchZero | branchNotZero =>
      simp only [hopcode, Script.tests, Script.refusal, Script.pushes] at h ⊢
      split at h
      · rfl
      · cases h
  | branchConditional =>
      simp only [hopcode] at h
      have hpushes : ∀ macros r, (Script.pushMacros macros .done).refusal r = none := by
        intro macros r
        induction macros with
        | nil => rfl
        | cons m macros ih => exact ih
      split at h
      · rw [hpushes] at h
        cases h
      · cases h
  | mov | add | sub | cmp | jump | «return» | and | trap | load | store | xor | mul | div | callHost =>
      simp only [hopcode] at hbranch
      cases hbranch

/-! ### The status of an instruction -/

theorem Refused.of_branch {c : Compiler} (hbranch : metadata.branches = true) {error : BalError}
    (h : (instructionScript metadata w c.allocator).refusal c.allocator = some error) :
    Refused c metadata w error := by
  refine ⟨?_, h⟩
  rw [leavingMacros_refused hbranch h]
  trivial

/-- A branch that is served leaves the status of all its calls. -/
theorem translateOpcode_branch_status (hok : s.compiler.Ok)
    (hwindow : ∀ m ∈ s.compiler.window.macros, m.isLowered = true)
    (hsize : s.compiler.assembler.capacity ≤ sizeMax) (hsupported : ¬Unsupported metadata w)
    (hbranch : metadata.branches = true)
    (hserved : (instructionScript metadata w s.compiler.allocator).refusal s.compiler.allocator = none) :
    (s.translateOpcode metadata w).compiler.failure =
      if CodeFits s.compiler metadata w s.guestAddress then .success
      else if CodeEndsQuietly s.compiler metadata w s.guestAddress then .instructionOverflow
      else .invalidArgument := by
  unfold CodeFits CodeEndsQuietly
  simp only [hbranch, if_true]
  generalize hscript : instructionScript metadata w s.compiler.allocator = script at hserved
  have hlowered : script.IsLowered := hscript ▸ isLowered_instructionScript _ _ _
  obtain ⟨hshort, hfits⟩ := Script.run_room hlowered hok hwindow hsize
  obtain ⟨f, hf, hstatus, hassembler⟩ := translateOpcode_branch (s := s) hsupported hbranch rfl
  rw [hscript] at hf hstatus hassembler
  obtain ⟨hout, hleft⟩ :=
    isLowered_drain hwindow (Script.isLowered_pushes hlowered s.compiler.allocator)
  have hcalls : branchCalls s.compiler metadata w s.guestAddress =
      ((lowered s.compiler.window.macros (script.pushes s.compiler.allocator)).flatMap Macro.calls ++
        branchEnd metadata w s.guestAddress (script.allocator s.compiler.allocator)) ++ [.ret] := by
    simp only [branchCalls, hscript]
  rw [hcalls]
  by_cases hroom : MacrosFit s.compiler.assembler.capacity s.compiler.assembler.offset
      (script.leaving s.compiler)
  · have hdone := hfits hroom
    rw [hserved] at hdone
    obtain ⟨hrun, hgood⟩ := hdone
    rw [hrun] at hf hstatus hassembler
    have hflushed : (s.compiler.apply (script.plan s.compiler.allocator)).flushAll.assembler =
        flushMacros s.compiler.assembler
          (lowered s.compiler.window.macros (script.pushes s.compiler.allocator)) :=
      Compiler.flushAll_lowered
    rw [hflushed] at hassembler
    rw [Compiler.failure, if_pos (hstatus.trans hgood.status), hassembler]
    exact ((Makes.flushMacros (List.forall_mem_append.mpr ⟨hout, hleft⟩)).trans hf).ret_status
      hok.assembler hsize
  · obtain ⟨hrun, hfailed⟩ := hshort hroom
    have hnot : (script.run s.compiler).assembler.status ≠ .success := by
      rw [hfailed]
      split <;> decide
    have hflushed : (script.run s.compiler).flushAll.assembler.status ≠ .success := by
      change (flushMacros _ _).status ≠ _
      rw [flushMacros_failed _ hnot]
      exact hnot
    have hfirst : ∀ rest, ¬EmitCall.AllFit s.compiler.assembler.capacity s.compiler.assembler.offset
        ((lowered s.compiler.window.macros (script.pushes s.compiler.allocator)).flatMap Macro.calls ++
          rest) := by
      intro rest hall
      obtain ⟨hlow, -⟩ := EmitCall.allFit_append.mp hall
      rw [lowered, List.flatMap_append] at hlow
      exact hroom (EmitCall.allFit_append.mp hlow).1
    rw [Compiler.failure, if_pos (hstatus.trans hrun), hassembler,
      Makes.emitRet_failed (hf.failed hflushed), if_neg, if_neg]
    · intro hquiet
      exact hfirst _ (Makes.endsQuietly_ret.mp hquiet).1
    · intro hall
      exact hfirst _ (EmitCall.allFit_append.mp hall).1

/-- An instruction that only pushes macros and is served leaves the status of those that leave the
window. -/
theorem translateOpcode_macros_status (hok : s.compiler.Ok)
    (hwindow : ∀ m ∈ s.compiler.window.macros, m.isLowered = true)
    (hsize : s.compiler.assembler.capacity ≤ sizeMax)
    (hbranch : metadata.branches = false)
    (hrun : (s.translateOpcode metadata w).compiler =
      (instructionScript metadata w s.compiler.allocator).run s.compiler)
    (hserved : ∀ error, ¬Refused s.compiler metadata w error) :
    (s.translateOpcode metadata w).compiler.failure =
      if CodeFits s.compiler metadata w s.guestAddress then .success
      else if CodeEndsQuietly s.compiler metadata w s.guestAddress then .instructionOverflow
      else .invalidArgument := by
  unfold CodeFits CodeEndsQuietly
  simp only [hbranch, Bool.false_eq_true, if_false]
  unfold leavingMacros
  unfold Refused leavingMacros at hserved
  rw [hrun]
  generalize hscript : instructionScript metadata w s.compiler.allocator = script at hserved
  have hlowered : script.IsLowered := hscript ▸ isLowered_instructionScript _ _ _
  obtain ⟨hshort, hfits⟩ := Script.run_room hlowered hok hwindow hsize
  by_cases hroom : MacrosFit s.compiler.assembler.capacity s.compiler.assembler.offset
      (script.leaving s.compiler)
  · have hdone := hfits hroom
    cases hrefusal : script.refusal s.compiler.allocator with
    | none =>
        rw [hrefusal] at hdone
        rw [if_pos hroom, hdone.1, Compiler.failure, if_pos hdone.2.status, hdone.2.assembler]
    | some error => exact absurd ⟨hroom, hrefusal⟩ (hserved error)
  · obtain ⟨hstatus, hassembler⟩ := hshort hroom
    rw [if_neg hroom, Compiler.failure, if_pos hstatus, hassembler]

/-- The switch carries out the script of an instruction that is no branch and has its operands. -/
theorem translateOpcode_run (hok : s.compiler.Ok)
    (hwindow : ∀ m ∈ s.compiler.window.macros, m.isLowered = true)
    (hsize : s.compiler.assembler.capacity ≤ sizeMax) (hsupported : ¬Unsupported metadata w)
    (hoperands : ¬LacksOperands s.compiler metadata w) (hbranch : metadata.branches = false) :
    (s.translateOpcode metadata w).compiler =
      (instructionScript metadata w s.compiler.allocator).run s.compiler := by
  by_cases hand : metadata.irOpcode = .and
  · have hsupported' := hsupported
    simp only [Unsupported, hand] at hsupported'
    obtain ⟨-, hcarries⟩ := Compiler.translateAnd_spec hok hwindow hsize hand hsupported'
    simp only [LoopState.translateOpcode, hand, instructionScript]
    exact hcarries hoperands
  · exact translateOpcode_script hok.status hsupported hbranch hand

/-- A refusal is what the check after the instruction reports. -/
theorem Refused.failure (hok : s.compiler.Ok)
    (hwindow : ∀ m ∈ s.compiler.window.macros, m.isLowered = true)
    (hsize : s.compiler.assembler.capacity ≤ sizeMax) (hsupported : ¬Unsupported metadata w)
    (hoperands : ¬LacksOperands s.compiler metadata w) {error : BalError}
    (h : Refused s.compiler metadata w error) :
    (s.translateOpcode metadata w).compiler.failure = error := by
  obtain ⟨hroom, hrefusal⟩ := h
  obtain ⟨-, hfits⟩ := Script.run_room
    (isLowered_instructionScript metadata w s.compiler.allocator) hok hwindow hsize
  have hstatus := hfits hroom
  rw [hrefusal] at hstatus
  have hsame : (s.translateOpcode metadata w).compiler.status = error := by
    cases hbranch : metadata.branches with
    | true =>
        obtain ⟨-, -, hbranched, -⟩ := translateOpcode_branch (s := s) hsupported hbranch rfl
        exact hbranched.trans hstatus
    | false =>
        rw [translateOpcode_run hok hwindow hsize hsupported hoperands hbranch]
        exact hstatus
  rw [Compiler.failure, if_neg (hsame ▸ Script.refusal_ne_success hrefusal), hsame]

/-- **Why an instruction stops the block.** -/
theorem failure_iff (hok : s.compiler.Ok)
    (hwindow : ∀ m ∈ s.compiler.window.macros, m.isLowered = true)
    (hsize : s.compiler.assembler.capacity ≤ sizeMax) {error : BalError} (herror : error ≠ .success) :
    (s.translateOpcode metadata w).compiler.failure = error ↔
      InstructionFails s.compiler metadata w s.guestAddress error := by
  by_cases hunsupported : Unsupported metadata w
  · have hstatus := hunsupported.status s
    have hfailure : (s.translateOpcode metadata w).compiler.failure = .unknownInstruction := by
      rw [Compiler.failure, if_neg (by rw [hstatus]; decide), hstatus]
    rw [hfailure]
    constructor
    · rintro rfl
      exact .unsupported hunsupported
    · intro h
      cases h with
      | unsupported => rfl
      | operands hnot | refused hnot | overflow hnot | overwritten hnot => exact absurd hunsupported hnot
  by_cases hlacks : LacksOperands s.compiler metadata w
  · have hsupported := hunsupported
    simp only [Unsupported, hlacks.1] at hsupported
    have hstatus : (s.translateOpcode metadata w).compiler.status = .incorrectRegisterType := by
      simp only [LoopState.translateOpcode, hlacks.1]
      exact (Compiler.translateAnd_spec hok hwindow hsize hlacks.1 hsupported).1 hlacks
    have hfailure : (s.translateOpcode metadata w).compiler.failure = .incorrectRegisterType := by
      rw [Compiler.failure, if_neg (by rw [hstatus]; decide), hstatus]
    rw [hfailure]
    constructor
    · rintro rfl
      exact .operands hunsupported hlacks
    · intro h
      cases h with
      | unsupported hyes => exact absurd hyes hunsupported
      | operands => rfl
      | refused _ hnot | overflow _ hnot | overwritten _ hnot => exact absurd hlacks hnot
  by_cases hrefused : ∃ refusal, Refused s.compiler metadata w refusal
  · obtain ⟨refusal, hrefused⟩ := hrefused
    rw [hrefused.failure hok hwindow hsize hunsupported hlacks]
    constructor
    · rintro rfl
      exact .refused hunsupported hlacks hrefused
    · intro h
      cases h with
      | unsupported hyes => exact absurd hyes hunsupported
      | operands _ hyes => exact absurd hyes hlacks
      | refused _ _ hrefused' => exact Option.some.inj (hrefused.2.symm.trans hrefused'.2)
      | overflow _ _ hnot | overwritten _ _ hnot => exact absurd hrefused (hnot refusal)
  have hserved : ∀ refusal, ¬Refused s.compiler metadata w refusal := fun refusal h => hrefused ⟨refusal, h⟩
  have hstatus : (s.translateOpcode metadata w).compiler.failure =
      if CodeFits s.compiler metadata w s.guestAddress then .success
      else if CodeEndsQuietly s.compiler metadata w s.guestAddress then .instructionOverflow
      else .invalidArgument := by
    cases hbranch : metadata.branches with
    | true =>
        refine translateOpcode_branch_status hok hwindow hsize hunsupported hbranch ?_
        cases hrefusal : (instructionScript metadata w s.compiler.allocator).refusal
            s.compiler.allocator with
        | none => rfl
        | some refusal => exact absurd (Refused.of_branch hbranch hrefusal) (hserved refusal)
    | false =>
        exact translateOpcode_macros_status hok hwindow hsize hbranch
          (translateOpcode_run hok hwindow hsize hunsupported hlacks hbranch) hserved
  have hshort : CodeEndsQuietly s.compiler metadata w s.guestAddress →
      ¬CodeFits s.compiler metadata w s.guestAddress := by
    unfold CodeFits CodeEndsQuietly
    split
    · exact EmitCall.EndsQuietly.not_allFit
    · exact MacrosEndQuietly.not_fit
  rw [hstatus]
  constructor
  · rintro rfl
    by_cases hfits : CodeFits s.compiler metadata w s.guestAddress
    · rw [if_pos hfits] at herror
      exact absurd rfl herror
    · rw [if_neg hfits]
      by_cases hquiet : CodeEndsQuietly s.compiler metadata w s.guestAddress
      · rw [if_pos hquiet]
        exact .overflow hunsupported hlacks hserved hquiet
      · rw [if_neg hquiet]
        exact .overwritten hunsupported hlacks hserved hfits hquiet
  · intro h
    cases h with
    | unsupported hyes => exact absurd hyes hunsupported
    | operands _ hyes => exact absurd hyes hlacks
    | refused _ _ hrefused => exact absurd hrefused (hserved _)
    | overflow _ _ _ hquiet => rw [if_neg (hshort hquiet), if_pos hquiet]
    | overwritten _ _ _ hnofit hloud => rw [if_neg hnofit, if_neg hloud]

/-! ### Failed compilers -/

/-- An error of the compiler is kept by all instructions but those that set one of their own. -/
theorem translateOpcode_kept (hfailed : s.compiler.status ≠ .success)
    (hsupported : ¬Unsupported metadata w) (hand : metadata.irOpcode ≠ .and) :
    (s.translateOpcode metadata w).compiler.status = s.compiler.status := by
  cases hbranch : metadata.branches with
  | true =>
      obtain ⟨-, -, hstatus, -⟩ := translateOpcode_branch (s := s) hsupported hbranch rfl
      exact hstatus.trans (Script.run_refused _ hfailed)
  | false =>
      unfold Unsupported at hsupported
      unfold Metadata.branches at hbranch
      unfold LoopState.translateOpcode
      cases hopcode : metadata.irOpcode with
      | mov =>
          simp only [LoopState.translateMov]
          split
          · exact (congrArg Compiler.status (Script.run_movImmediate _ _ _).symm).trans
              (Script.run_refused _ hfailed)
          · split
            · simp only [LoopState.withCompiler, LoopState.terminate, Compiler.translateMovRegister,
                if_pos hfailed]
            · rfl
      | add | sub | cmp =>
          simp only [hopcode, not_and, not_not] at hsupported
          simp only [LoopState.translateAddSub, hopcode]
          split
          · next hregister =>
              exact (congrArg Compiler.status (Script.run_addSubReg _ _ _ _ (hsupported hregister)).symm).trans
                (Script.run_refused _ hfailed)
          · split
            · exact (congrArg Compiler.status (Script.run_addSubImm _ _ _ _).symm).trans
                (Script.run_refused _ hfailed)
            · rfl
      | jump => rfl
      | «return» => exact (Script.storesPc metadata w).run_refused hfailed
      | and => exact absurd hopcode hand
      | branchZero | branchNotZero | branchConditional => simp only [hopcode] at hbranch; cases hbranch
      | trap | load | store | xor | mul | div | callHost =>
          simp only [hopcode, not_true_eq_false] at hsupported

/-- The check finds the failure of the assembler, unless a branch has overwritten it. -/
theorem translateOpcode_failed (hstatus : s.compiler.status = .success)
    (hfailed : s.compiler.assembler.status ≠ .success) (hsupported : ¬Unsupported metadata w)
    (hand : metadata.irOpcode ≠ .and) :
    (s.translateOpcode metadata w).compiler.failure =
      if metadata.branches then .invalidArgument else s.compiler.assembler.status := by
  obtain ⟨hrun, hassembler⟩ :=
    (instructionScript metadata w s.compiler.allocator).run_failed hfailed
  cases hbranch : metadata.branches with
  | true =>
      obtain ⟨f, hf, hsame, hcode⟩ := translateOpcode_branch (s := s) hsupported hbranch rfl
      have hflushed : ((instructionScript metadata w s.compiler.allocator).run
          s.compiler).flushAll.assembler.status ≠ .success := by
        change (flushMacros _ _).status ≠ _
        rw [hassembler, flushMacros_failed _ hfailed]
        exact hfailed
      rw [Compiler.failure, if_pos (hsame.trans (hrun.trans hstatus)), hcode,
        Makes.emitRet_failed (hf.failed hflushed), if_pos rfl]
  | false =>
      rw [translateOpcode_script hstatus hsupported hbranch hand, Compiler.failure,
        if_pos (hrun.trans hstatus), hassembler, if_neg Bool.false_ne_true]

/-- Without a register for its operands the conjunction sets its own error. -/
theorem translateOpcode_and_failed (hfailed : ¬s.compiler.Ok) (hsupported : ¬Unsupported metadata w)
    (hand : metadata.irOpcode = .and) :
    (s.translateOpcode metadata w).compiler.status = .incorrectRegisterType := by
  simp only [Unsupported, hand] at hsupported
  simp only [LoopState.translateOpcode, hand]
  refine Compiler.translateAnd_lacks hsupported (Compiler.andSources_failed ?_)
  rw [Compiler.andSources, Script.andOperands]
  simp only [Script.run, Compiler.allocateX86Register_failed hfailed]
  exact hfailed

/-! ### The window -/

theorem translateOpcode_branch_window (hsupported : ¬Unsupported metadata w)
    (hbranch : metadata.branches = true) :
    (s.translateOpcode metadata w).compiler.window.macros = [] := by
  unfold Unsupported at hsupported
  unfold Metadata.branches at hbranch
  unfold LoopState.translateOpcode
  cases hopcode : metadata.irOpcode with
  | branchZero | branchNotZero => rfl
  | branchConditional =>
      simp only [hopcode] at hsupported
      simp only [LoopState.withCompiler, LoopState.terminate, Compiler.translateBCond]
      split
      · rfl
      · next halways =>
          split
          · next hflag => exact absurd ⟨halways, hflag⟩ hsupported
          · rfl
  | mov | add | sub | cmp | jump | «return» | and | trap | load | store | xor | mul | div | callHost =>
      simp only [hopcode] at hbranch
      cases hbranch

/-- Without a failure the window keeps macros that can be lowered. -/
theorem translateOpcode_window (hok : s.compiler.Ok)
    (hwindow : ∀ m ∈ s.compiler.window.macros, m.isLowered = true)
    (hsize : s.compiler.assembler.capacity ≤ sizeMax) (hdone : (s.translateOpcode metadata w).compiler.Ok) :
    ∀ m ∈ (s.translateOpcode metadata w).compiler.window.macros, m.isLowered = true := by
  have hsupported : ¬Unsupported metadata w := by
    intro hunsupported
    have hstatus := (hunsupported.status s).symm.trans hdone.status
    cases hstatus
  cases hbranch : metadata.branches with
  | true =>
      rw [translateOpcode_branch_window hsupported hbranch]
      exact List.forall_mem_nil _
  | false =>
      have hoperands : ¬LacksOperands s.compiler metadata w := by
        intro hlacks
        have hfailure : (s.translateOpcode metadata w).compiler.failure = .incorrectRegisterType :=
          (failure_iff hok hwindow hsize (by decide)).mpr (.operands hsupported hlacks)
        rw [Compiler.failure, if_pos hdone.status, hdone.assembler] at hfailure
        cases hfailure
      rw [translateOpcode_run hok hwindow hsize hsupported hoperands hbranch] at hdone ⊢
      have hlowered := isLowered_instructionScript metadata w s.compiler.allocator
      generalize instructionScript metadata w s.compiler.allocator = script at hdone hlowered ⊢
      obtain ⟨hshort, hfits⟩ := Script.run_room hlowered hok hwindow hsize
      by_cases hroom : MacrosFit s.compiler.assembler.capacity s.compiler.assembler.offset
          (script.leaving s.compiler)
      swap
      · have hstatus := (hshort hroom).2.symm.trans hdone.assembler
        split at hstatus <;> cases hstatus
      have hresult := hfits hroom
      cases hrefusal : script.refusal s.compiler.allocator with
      | some error =>
          rw [hrefusal] at hresult
          exact absurd (hresult.symm.trans hdone.status) (Script.refusal_ne_success hrefusal)
      | none =>
          rw [hrefusal] at hresult
          obtain ⟨hrun, hgood⟩ := hresult
          have hleft : (s.compiler.apply (script.plan s.compiler.allocator)).window.macros =
              (drain s.compiler.window.macros (script.pushes s.compiler.allocator)).2 :=
            (Compiler.pushAll_drain hok.assembler).2 hgood.assembler
          rw [hrun, hleft]
          exact (isLowered_drain hwindow (Script.isLowered_pushes hlowered _)).2

end Branches

end Ballistic
