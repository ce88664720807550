import Ballistic.Proof.BlockLength
import Ballistic.Proof.Continuation

/-!
# The instruction counter

The addition to the instruction counter is part of the common block end. A block that comes there adds
the instructions it has counted, as a signed 32-bit immediate. A conditional branch returns from its own
arms before, and adds nothing.
-/

namespace Ballistic

open Machine Machine.X86

/-- `cpu->instruction_count`. -/
def instructionCount (m : Memory) (cpu : Address) : BitVec 64 :=
  m.read64 (above cpu offsetInstructionCount)

/-- Every call of the block returns with the instruction counter increased by `v`. -/
def AddsToCounter (code : Nat → Byte) (entry : Nat) (v : BitVec 64) : Prop :=
  ∀ s cpu, Call s cpu entry →
    ∃ fuel u, runToRet code fuel s = some u ∧
      instructionCount u.memory cpu = instructionCount s.memory cpu + v

theorem AddsToCounter.unique {code : Nat → Byte} {entry : Nat} {v w : BitVec 64}
    (h : AddsToCounter code entry v) (h' : AddsToCounter code entry w) : v = w := by
  obtain ⟨fuel, u, hrun, hcount⟩ := h _ _ (someCall_call entry)
  obtain ⟨fuel', u', hrun', hcount'⟩ := h' _ _ (someCall_call entry)
  obtain rfl := runToRet_unique hrun hrun'
  exact BitVec.add_right_inj _ |>.mp (hcount.symm.trans hcount')

/-! ### The counted scan -/

/-- The guest instructions that a move of the loops takes up. -/
def LoopPoint.instructions : LoopPoint → Nat
  | .whileTest => 0
  | .forTest i limit => if i < limit then 1 else 0

section Scan

variable (input : TranslateInput) (start : Address)

/-- A move of the loops, with the number of instructions at which the block has gone on. -/
structure CountedMove (x y : Nat × LoopPoint × Address) : Prop where
  move : ScanMove input x.2 y.2
  count : y.1 = x.1 + x.2.1.instructions

/-- The block ends at the instruction at `a`, for the reason `ending`, with `n` instructions before
it. -/
def EndsAfter (n : Nat) (a : Address) (metadata : Metadata) (ending : Ending) : Prop :=
  ∃ i limit, Relation.ReflTransGen (CountedMove input) (0, .whileTest, start)
      (n, .forTest i limit, a) ∧ i < limit ∧
    balDecodeArm64 input.table (input.memory.word a) = some metadata ∧
    endingOf input i metadata = some ending

variable {input start}

theorem countedMove_rightUnique : Relator.RightUnique (CountedMove input) := by
  intro x y z hy hz
  exact Prod.ext (hy.count.trans hz.count.symm) (scanMove_rightUnique hy.move hz.move)

theorem EndsAfter.unique {n n' : Nat} {a b : Address} {metadata metadata' : Metadata}
    {ending ending' : Ending} (h : EndsAfter input start n a metadata ending)
    (h' : EndsAfter input start n' b metadata' ending') : n = n' ∧ ending = ending' := by
  obtain ⟨i, limit, hscan, hin, hdecode, hending⟩ := h
  obtain ⟨i', limit', hscan', hin', hdecode', hending'⟩ := h'
  cases eq_of_stuck countedMove_rightUnique hscan hscan'
    (fun x hmove => scanMove_stuck hin hdecode hending x.2 hmove.move)
    (fun x hmove => scanMove_stuck hin' hdecode' hending' x.2 hmove.move)
  cases hdecode.symm.trans hdecode'
  exact ⟨rfl, Option.some.inj (hending.symm.trans hending')⟩

end Scan

/-- The guest instructions that a block performs which ends after `n` instructions: these, and the last
one unless it was left out. -/
def executedInstructions (n : Nat) (ending : Ending) : Nat :=
  if ending.performed || ending.transfers then n + 1 else n

/-- The number is a sign-extended 32-bit immediate. -/
def FitsImmediate (n : Nat) : Prop := n % 2 ^ 64 < 2 ^ 31 ∨ 2 ^ 64 - 2 ^ 31 ≤ n % 2 ^ 64

/-- What keeps the counter right. A conditional branch adds nothing, which is right for a multiple of
`2 ^ 64` only; an unsupported instruction is counted but left out. -/
def CountsRight (n : Nat) : Ending → Prop
  | .trapped => FitsImmediate n
  | .opcode .branches => 2 ^ 64 ∣ n + 1
  | .opcode .stops => False
  | _ => FitsImmediate (n + 1)

/-! ### What the code adds -/

/-- The immediate of the counter macro, as the host adds it. -/
def countImmediate (count : Nat) : BitVec 64 := ((BitVec.ofNat 64 count).setWidth 32).signExtend 64

theorem toNat_countImmediate (count : Nat) :
    (countImmediate count).toNat =
      if count % 2 ^ 32 < 2 ^ 31 then count % 2 ^ 32 else count % 2 ^ 32 + (2 ^ 64 - 2 ^ 32) := by
  have hwidth : ((BitVec.ofNat 64 count).setWidth 32).toNat = count % 2 ^ 32 := by
    rw [BitVec.toNat_setWidth, BitVec.toNat_ofNat]
    omega
  rw [countImmediate, BitVec.toNat_signExtend, BitVec.msb_eq_decide, hwidth, BitVec.toNat_setWidth,
    hwidth]
  by_cases hsmall : count % 2 ^ 32 < 2 ^ 31
  · rw [if_pos hsmall, decide_eq_false (by omega)]
    simp only [Bool.false_eq_true, if_false]
    omega
  · rw [if_neg hsmall, decide_eq_true (by omega)]
    simp only [if_true]
    omega

theorem countImmediate_eq_iff (count n : Nat) :
    countImmediate count = BitVec.ofNat 64 n ↔
      (if count % 2 ^ 32 < 2 ^ 31 then count % 2 ^ 32 else count % 2 ^ 32 + (2 ^ 64 - 2 ^ 32)) =
        n % 2 ^ 64 := by
  rw [← toNat_countImmediate, ← BitVec.toNat_inj, BitVec.toNat_ofNat]

theorem countImmediate_eq_self_iff (n : Nat) :
    countImmediate n = BitVec.ofNat 64 n ↔ FitsImmediate n := by
  rw [countImmediate_eq_iff, FitsImmediate]
  split <;> omega

/-- One instruction too many is never hidden by the immediate. -/
theorem countImmediate_succ_ne (n : Nat) : countImmediate (n + 1) ≠ BitVec.ofNat 64 n := by
  rw [ne_eq, countImmediate_eq_iff]
  split <;> omega

section Code

variable {s : State} {cpu : Address} {entry : Nat}

/-- Code that keeps to the record before the counter leaves the counter alone. -/
theorem execAll_spares {is : List Instr}
    (h : ∀ i ∈ is, Confined workingRegisters offsetInstructionCount i) (hrbp : s.regs .rbp = cpu) :
    (execAll s is).regs .rbp = cpu ∧
      instructionCount (execAll s is).memory cpu = instructionCount s.memory cpu := by
  have hwithin := execAll_within (by decide) (by decide) h s
  have hmemory := hwithin.memory
  rw [hrbp] at hmemory
  refine ⟨(hwithin.regs _ (by decide)).trans hrbp, Memory.read64_congr fun k hk => ?_⟩
  rw [above_above]
  refine hmemory _ ?_
  unfold offsetInstructionCount
  rw [distance_above cpu (by omega)]
  omega

theorem Call.instructionCount_prologue (hcall : Call s cpu entry) :
    instructionCount (execAll s prologueCode).memory cpu = instructionCount s.memory cpu := by
  refine Memory.read64_congr fun k hk => ?_
  rw [above_above, execAll_prologueCode]
  exact savedMemory_frame s _ (hcall.outside (by unfold offsetInstructionCount cpuSize; omega))

/-- The common block end adds the count. -/
theorem instructionCount_tailCode {r : RegisterAllocator} (hwf : r.Wf) (pc : Address)
    (dynamic : Bool) (count : Nat) {flags : EngineFlags}
    (hcounting : flags.has EngineFlags.instructionCounting = true) (hrbp : s.regs .rbp = cpu) :
    instructionCount (execAll s (Compiler.tailCode r pc dynamic count flags)).memory cpu =
      instructionCount s.memory cpu + countImmediate count := by
  have haddress : s.frameAddress (BitVec.ofNat 32 offsetInstructionCount) =
      above cpu offsetInstructionCount := by
    rw [State.frameAddress_eq _ (by decide), hrbp]
    rfl
  have hadd : (execAll s (immediateMacro .addCpuIcount (some .rbp) (BitVec.ofNat 64 count)).instrs) =
      { s with
        memory := s.memory.write64 (above cpu offsetInstructionCount)
          (instructionCount s.memory cpu + countImmediate count)
        flags := addFlags (instructionCount s.memory cpu) (countImmediate count) } := by
    simp only [immediateMacro, Macro.instrs, execAll_cons, execAll_nil, Instr.exec, haddress]
    rfl
  have hrest : ∀ i ∈ instrsOf (Compiler.dirtyStores r) ++ if dynamic then [] else storePcCode pc,
      Confined workingRegisters offsetInstructionCount i := by
    intro i hi
    refine spares_armCode hwf pc i ?_
    cases dynamic with
    | true =>
        rw [if_pos rfl, List.append_nil] at hi
        exact List.mem_append_left _ hi
    | false => exact hi
  rw [Compiler.tailCode, if_pos hcounting, List.append_assoc, execAll_append, hadd]
  refine (execAll_spares hrest ?_).2.trans (Memory.read64_write64_self ..)
  exact hrbp

end Code

/-! ### Blocks -/

section Blocks

variable {input : TranslateInput} {c : Compiler} {start : Address} {t : Translation} {entry : Nat}
  {s s0 : LoopState} {metadata : Metadata} {ending : Ending}

/-- The loops count the instructions at which the block goes on. -/
theorem Succeeds.countedScan (h : Succeeds input c start t entry) {p : LoopPoint}
    (hreach : Reaches input c start p s) (hrunning : Running input start p s) :
    Relation.ReflTransGen (CountedMove input) (0, .whileTest, start)
      (s.armInstructionCount, p, s.guestAddress) := by
  refine h.pointInduction (P := fun p s => Relation.ReflTransGen (CountedMove input)
    (0, .whileTest, start) (s.armInstructionCount, p, s.guestAddress)) .refl ?_ ?_ ?_ hreach hrunning
  · intro s bytes hscan hreadable
    exact hscan.tail ⟨.readable hreadable, rfl⟩
  · intro i limit s hscan hout
    exact hscan.tail ⟨.exhausted hout, by simp [LoopPoint.instructions, hout]⟩
  · intro i limit s s' metadata plan _ _ hscan hin hdecode hmore _ _ hcounts
    refine hscan.tail ⟨.next hin hdecode hmore, ?_⟩
    have hcount : s'.armInstructionCount = s.armInstructionCount + 1 := hcounts.count_eq
    simp only [LoopPoint.instructions, if_pos hin, hcount]

theorem Succeeds.endsAfter (h : Succeeds input c start t entry)
    (hended : Ended input c start s s0 metadata ending) :
    EndsAfter input start s0.armInstructionCount s0.guestAddress metadata ending := by
  obtain ⟨i, limit, hreach, hrunning, hin, hending⟩ := hended.before
  exact ⟨i, limit, h.countedScan hreach hrunning, hin, hended.decodes, hending⟩

/-- A block that comes to the common end adds the instructions it has counted. -/
theorem Succeeds.addsCount (h : Succeeds input c start t entry) (hwindow : c.window.macros = [])
    (hcounting : input.engineFlags.has EngineFlags.instructionCounting = true)
    (hfinal : Final input c start t s) (hended : Ended input c start s s0 metadata ending)
    (hne : ending ≠ .opcode .branches) :
    AddsToCounter t.compiler.assembler.buffer entry (countImmediate s.armInstructionCount) := by
  obtain ⟨i, limit, hreach, hrunning, -, -⟩ := hended.before
  obtain ⟨js, hcode, hspares⟩ := h.sparing hreach hrunning
  obtain ⟨p, is, hplan, hblock, hexec⟩ := h.straight hwindow hfinal hended hne hcode
  have hsafe := RegisterAllocator.endPlan_safe hcode.wf hplan
  intro m cpu hcall
  obtain ⟨fuel, u, hrun, -, hmemory⟩ := (hblock _ fun _ _ => rfl).run hcall
  have hbefore : ∀ k ∈ js ++ instrsOf p.macros,
      Confined workingRegisters offsetInstructionCount k := fun k hk =>
    (List.mem_append.mp hk).elim (hspares k) (spares_instrsOf hsafe.confined k)
  obtain ⟨hrbp, hcount⟩ := execAll_spares hbefore hcall.inside.rbp
  refine ⟨fuel, u, hrun, ?_⟩
  rw [hmemory, hexec, execAll_append, instructionCount_tailCode hsafe.wf _ _ _ hcounting hrbp, hcount,
    hcall.instructionCount_prologue]

/-- A block that ends at a conditional branch returns before the common end. -/
theorem Succeeds.addsNothing (h : Succeeds input c start t entry) (hwindow : c.window.macros = [])
    (hfinal : Final input c start t s)
    (hended : Ended input c start s s0 metadata (.opcode .branches)) :
    AddsToCounter t.compiler.assembler.buffer entry 0#64 := by
  obtain ⟨i, limit, hreach, hrunning, -, -⟩ := hended.before
  obtain ⟨js, hcode, hspares⟩ := h.sparing hreach hrunning
  obtain ⟨hok, -⟩ := hended.leaves.compiler_eq nofun
  obtain ⟨c1, ks, hproduces, hwf, hspares', hshape⟩ :=
    LoopState.translateBranch hended.outcome_eq hok hcode.wf
  have hbody : ∀ {is : List Instr}, (∀ i ∈ is, i ∈ js ++ ks) →
      ∀ i ∈ is, Confined workingRegisters offsetInstructionCount i := fun hmem i hi =>
    (List.mem_append.mp (hmem i hi)).elim (hspares i) (hspares' i)
  intro m cpu hcall
  rw [BitVec.add_zero, ← hcall.instructionCount_prologue]
  rcases hshape with ⟨condition, fallthroughPc, takenPc, heq⟩ | ⟨hpending, heq⟩
  · obtain ⟨is, hfork, -, hmem⟩ := h.fork hwindow hfinal hended hcode hproduces heq
    have hbody := hbody hmem
    obtain ⟨hrbp, hcount⟩ := execAll_spares hbody hcall.inside.rbp
    obtain ⟨fuel, u, hrun, hmemory, -⟩ := hfork.run hwf (fun i hi => (List.mem_append.mp hi).elim
      (straight_prologueCode i) fun hi => (hbody i hi).straight) hcall.rip
    refine ⟨fuel, u, hrun, ?_⟩
    rw [execAll_append] at hmemory
    rw [hmemory, (execAll_spares (spares_armCode hwf _) hrbp).2, hcount]
  · obtain ⟨is, hshort, -, hmem⟩ := h.short hwindow hfinal hended hcode hproduces hpending heq
    have hbody := hbody hmem
    obtain ⟨fuel, u, hrun, hmemory, -⟩ := hshort.run (fun i hi => (List.mem_append.mp hi).elim
      (straight_prologueCode i) fun hi => (hbody i hi).straight) hcall.rip
    refine ⟨fuel, u, hrun, ?_⟩
    rw [execAll_append] at hmemory
    rw [hmemory, (execAll_spares hbody hcall.inside.rbp).2]

/-- **Instruction counting.** A block compiled with the counting flag adds the number of the
instructions it performs exactly if that number is a signed 32-bit immediate and the block ends neither
at a conditional branch nor at an unsupported instruction. -/
theorem addsExecuted_iff (hreachable : c.Reachable) (h : Succeeds input c start t entry)
    (hcounting : input.engineFlags.has EngineFlags.instructionCounting = true) {n : Nat} {a : Address}
    (hends : EndsAfter input start n a metadata ending) :
    AddsToCounter t.compiler.assembler.buffer entry (BitVec.ofNat 64 (executedInstructions n ending)) ↔
      CountsRight n ending := by
  obtain ⟨s, s0, metadata', ending', hfinal, hended⟩ := h.ended
  obtain ⟨rfl, rfl⟩ := (h.endsAfter hended).unique hends
  have hcount := hended.leaves.count_eq
  have hiff : ∀ {v}, AddsToCounter t.compiler.assembler.buffer entry v → ∀ w,
      AddsToCounter t.compiler.assembler.buffer entry w ↔ v = w := by
    intro v hv w
    constructor
    · exact hv.unique
    · rintro rfl
      exact hv
  by_cases hbranch : ending' = .opcode .branches
  · subst hbranch
    rw [hiff (h.addsNothing hreachable.window hfinal hended)]
    change 0#64 = BitVec.ofNat 64 (s0.armInstructionCount + 1) ↔ 2 ^ 64 ∣ s0.armInstructionCount + 1
    rw [← BitVec.toNat_inj, BitVec.toNat_ofNat, BitVec.toNat_ofNat, Nat.dvd_iff_mod_eq_zero]
    exact eq_comm
  · obtain ⟨i, limit, -, hrunning, -, hending⟩ := hended.before
    obtain ⟨p, hplan, -⟩ := hended.leaves.plan hending hrunning.static hbranch
    rw [hiff (h.addsCount hreachable.window hcounting hfinal hended hbranch), hcount]
    cases ending' with
    | trapped => exact countImmediate_eq_self_iff _
    | limit => exact countImmediate_eq_self_iff _
    | opcode outcome =>
        cases outcome with
        | branches => exact absurd rfl hbranch
        | stops => exact iff_of_false (countImmediate_succ_ne _) id
        | jumps | returns | movesRegister => exact countImmediate_eq_self_iff _
        | continues | fails => cases hplan

end Blocks

/-- A guest with the counting flag: `MOVZ X0, #1` and then `RET`. -/
def countingInput (words : List (BitVec 32)) : TranslateInput :=
  { TranslateInput.ofWords 0x1000 words 8 with engineFlags := EngineFlags.instructionCounting }

theorem countingInput_endsAfter :
    EndsAfter (countingInput [0xD2800020, 0xD65F03C0]) 0x1000 1 0x1004 retMetadata
      (.opcode .returns) := by
  refine ⟨1, 2, ?_, by decide, by decide, by decide⟩
  have hreadable : Readable (countingInput [0xD2800020, 0xD65F03C0]) 0x1000 8 :=
    ⟨by decide, by decide, by decide⟩
  have hdecode : balDecodeArm64 (countingInput [0xD2800020, 0xD65F03C0]).table
      ((countingInput [0xD2800020, 0xD65F03C0]).memory.word 0x1000) =
      some (moveWideMetadata true 2) := by decide
  have henter : CountedMove (countingInput [0xD2800020, 0xD65F03C0]) (0, .whileTest, 0x1000)
      (0, .forTest 0 2, 0x1000) := ⟨.readable hreadable, rfl⟩
  have hnext : CountedMove (countingInput [0xD2800020, 0xD65F03C0]) (0, .forTest 0 2, 0x1000)
      (1, .forTest 1 2, 0x1004) := ⟨.next (by decide) hdecode (by decide), rfl⟩
  exact .tail (.tail .refl henter) hnext

/-- The block of two instructions adds two. -/
theorem addsExecuted_iff_movz : ∃ t,
    Succeeds (countingInput [0xD2800020, 0xD65F03C0]) (.fresh 256) 0x1000 t 0 ∧
      (AddsToCounter t.compiler.assembler.buffer 0
          (BitVec.ofNat 64 (executedInstructions 1 (.opcode .returns))) ↔
        CountsRight 1 (.opcode .returns)) := by
  obtain ⟨t, -, h⟩ := succeeds_of_eval (countingInput [0xD2800020, 0xD65F03C0]) (.fresh 256) 0x1000 6
    (show _ = some 0 by decide)
  exact ⟨t, h, addsExecuted_iff (Compiler.fresh_reachable (by decide)) h (by decide)
    countingInput_endsAfter⟩

/-- `B.EQ` with the counting flag: one instruction is executed, and the counter stays at zero. -/
theorem uncounted_bEq : ∃ t u,
    Succeeds (countingInput [0x54000040]) (.fresh 256) 0x1000 t 0 ∧
      EndsAfter (countingInput [0x54000040]) 0x1000 0 0x1000 branchCondMetadata
        (.opcode .branches) ∧
      Call zeroFlagCall 0 0 ∧ runToRet t.compiler.assembler.buffer 40 zeroFlagCall = some u ∧
      instructionCount zeroFlagCall.memory 0 = 0 ∧ instructionCount u.memory 0 = 0 ∧
      ¬AddsToCounter t.compiler.assembler.buffer 0
        (BitVec.ofNat 64 (executedInstructions 0 (.opcode .branches))) := by
  obtain ⟨t, htranslate, h⟩ := succeeds_of_eval (countingInput [0x54000040]) (.fresh 256) 0x1000 5
    (show _ = some 0 by decide)
  have hrun : ((balTier1CompilerTranslate (countingInput [0x54000040]) (.fresh 256) 0x1000 5).bind
      fun t => (runToRet t.compiler.assembler.buffer 40 zeroFlagCall).map
        fun u => instructionCount u.memory 0) = some 0 := by decide
  rw [htranslate, Option.bind_some, Option.map_eq_some_iff] at hrun
  obtain ⟨u, hrun, hcount⟩ := hrun
  have hcall : Call zeroFlagCall 0 0 := ⟨rfl, rfl, (someCall_call 0).disjoint⟩
  have hreadable : Readable (countingInput [0x54000040]) 0x1000 4 :=
    ⟨by decide, by decide, by decide⟩
  have hends : EndsAfter (countingInput [0x54000040]) 0x1000 0 0x1000 branchCondMetadata
      (.opcode .branches) :=
    ⟨0, 1, .tail .refl ⟨.readable hreadable, rfl⟩, by decide, by decide, by decide⟩
  refine ⟨t, u, h, hends, hcall, hrun, by decide, hcount, fun hadds => ?_⟩
  obtain ⟨fuel, u', hrun', hcount'⟩ := hadds _ _ hcall
  obtain rfl := runToRet_unique hrun hrun'
  exact absurd (hcount.symm.trans hcount') (by decide)

end Ballistic
