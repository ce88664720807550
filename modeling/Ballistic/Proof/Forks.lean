import Ballistic.Proof.Straight

/-!
# Blocks with a conditional end

The code of a conditional branch is straight-line code, a jump, and two arms that each store the dirty
registers and a program counter of their own (`ForkAt`); a run through it returns at the end of the arm
that the host flags choose (`ForkAt.run`). A branch that is always taken has the second arm alone.
-/

namespace Ballistic

open Machine Machine.X86

/-! ### Arms -/

/-- The code of an arm, up to its epilogue. -/
def armCode (r : RegisterAllocator) (pc : Address) : List Instr :=
  instrsOf (Compiler.dirtyStores r) ++ storePcCode pc

theorem confined_armCode {r : RegisterAllocator} (hwf : r.Wf) (pc : Address) :
    ∀ i ∈ armCode r pc, Confined workingRegisters cpuSize i := fun i hi =>
  (List.mem_append.mp hi).elim (confined_instrsOf (confined_dirtyStores hwf) i)
    (confined_storePcCode pc i)

/-- An arm leaves the instruction counter alone. -/
theorem spares_armCode {r : RegisterAllocator} (hwf : r.Wf) (pc : Address) :
    ∀ i ∈ armCode r pc, Confined workingRegisters offsetInstructionCount i := by
  intro i hi
  rcases List.mem_append.mp hi with hi | hi
  · exact spares_instrsOf (confined_dirtyStores hwf) i hi
  · simp only [storePcCode, List.mem_cons, List.not_mem_nil, or_false] at hi
    rcases hi with rfl | rfl
    · exact (by decide : Reg.rax ∈ workingRegisters)
    · exact (by decide : offsetPc + 8 ≤ offsetInstructionCount)

/-- An arm leaves its program counter in the record. -/
theorem cpuState_armCode {r : RegisterAllocator} (hwf : r.Wf) {s : State} {cpu : Address}
    (hrbp : s.regs .rbp = cpu) (pc : Address) :
    (cpuState (execAll s (armCode r pc)).memory cpu).pc = pc := by
  have hwithin := execAll_within (by decide) (by decide)
    (confined_instrsOf (confined_dirtyStores hwf)) s
  have hrbp' := (hwithin.regs _ (by decide)).trans hrbp
  rw [armCode, execAll_append, execAll_storePcCode hrbp']
  exact Memory.read64_write64_self ..

theorem execAll_epilogueCode_memory (s : State) : (execAll s epilogueCode).memory = s.memory := rfl

/-- A run through straight-line code and an epilogue that leaves the memory alone. -/
theorem runToRet_epilogue {code : Nat → Byte} {start stop : Nat} {is pops : List Instr} {s : State}
    (hcode : CodeAt code start (is ++ (pops ++ [.ret])) stop) (his : ∀ i ∈ is, i.straight)
    (hpops : ∀ i ∈ pops, i.straight) (hmemory : ∀ t : State, (execAll t pops).memory = t.memory)
    (hrip : s.rip = start) :
    ∃ fuel u, runToRet code fuel s = some u ∧ u.memory = (execAll s is).memory ∧
      u.regs = (execAll (execAll s is) pops).regs := by
  rw [← List.append_assoc] at hcode
  obtain ⟨middle, stop', hbefore, hret⟩ := hcode.split
  have hstraight : ∀ i ∈ is ++ pops, i.straight := fun i hi =>
    (List.mem_append.mp hi).elim (his i) (hpops i)
  have hrun := runToRet_straight hbefore hstraight hrip 1
  have hstop := runToRet_atRet (s := { execAll s (is ++ pops) with rip := middle }) hret 0
  refine ⟨_, _, hrun.trans hstop, ?_, ?_⟩
  · change (execAll s (is ++ pops)).memory = _
    rw [execAll_append, hmemory]
  · change (execAll s (is ++ pops)).regs = _
    rw [execAll_append]

/-- At `start` lie the straight-line code `is` and a jump, and behind it the two arms that it chooses
from. -/
structure ForkAt (code : Nat → Byte) (start : Nat) (is : List Instr) (condition : Condition)
    (r : RegisterAllocator) (fallthroughPc takenPc : Address) : Prop where
  layout : ∃ jump next offset stop stop', CodeAt code start is jump ∧
    CodeAt code jump [.jcc condition offset] next ∧
    CodeAt code next (armCode r fallthroughPc ++ (epilogueCode ++ [.ret])) stop ∧
    CodeAt code (jumpTarget next offset) (armCode r takenPc ++ ([.pop .rbp] ++ [.ret])) stop'

/-- At `start` lie the straight-line code `is` and the short epilogue. -/
structure ShortAt (code : Nat → Byte) (start : Nat) (is : List Instr) : Prop where
  layout : ∃ stop, CodeAt code start (is ++ ([.pop .rbp] ++ [.ret])) stop

theorem ShortAt.run {code : Nat → Byte} {start : Nat} {is : List Instr} (h : ShortAt code start is)
    (his : ∀ i ∈ is, i.straight) {s : State} (hrip : s.rip = start) :
    ∃ fuel u, runToRet code fuel s = some u ∧ u.memory = (execAll s is).memory ∧
      u.regs = (execAll (execAll s is) [.pop .rbp]).regs := by
  obtain ⟨stop, hcode⟩ := h.layout
  exact runToRet_epilogue hcode his (by decide) (fun _ => rfl) hrip

/-- The code up to and including a conditional end is a fork, whatever is emitted behind it, in every
buffer that begins like the compiler's. -/
theorem Compiler.terminateBlockConditional_forkIn {c : Compiler} {condition : Condition}
    {fallthroughPc takenPc : Address} (h : (c.terminateBlockConditional condition fallthroughPc takenPc).Ok)
    {a a' : Assembler} {is dead : List Instr} (hbefore : Emitted a c.assembler is)
    (hafter : Emitted (c.terminateBlockConditional condition fallthroughPc takenPc).assembler a' dead)
    {code : Nat → Byte} (hsame : ∀ k < a'.offset, code k = a'.buffer k) :
    ForkAt code a.offset (is ++ c.pending) condition c.allocator fallthroughPc takenPc := by
  obtain ⟨-, a1, a2, a3, hflush, hjump, hfirst, hsize, hsecond⟩ :=
    Compiler.terminateBlockConditional_code h
  have hfront := hbefore.trans hflush
  have hrest := hsecond.trans hafter
  have harms := (hfirst.trans hsecond).trans hafter
  have hjumps := (hjump.trans (hfirst.trans hsecond)).trans hafter
  have hin : ∀ {start stop : Nat} {js : List Instr}, CodeAt a'.buffer start js stop →
      stop ≤ a'.offset → CodeAt code start js stop := fun hcode hle =>
    hcode.congr fun k _ hk => hsame k (Nat.lt_of_lt_of_le hk hle)
  have hcode := hin (hjumps.codeAt hfront.code le_rfl) hjumps.offset_le
  have hjcc := hin (harms.codeAt hjump.code le_rfl) harms.offset_le
  have harm := hin (hrest.codeAt hfirst.code le_rfl) hrest.offset_le
  have harm' := hin (hafter.codeAt hsecond.code le_rfl) hafter.offset_le
  -- The jump lands behind the first arm, at the stores of the second one.
  rw [hsize, ← Compiler.jumpTarget_epilogueSize] at harm'
  exact ⟨_, _, _, _, _, hcode, hjcc, harm, harm'⟩

theorem Compiler.terminateBlockConditional_fork {c : Compiler} {condition : Condition}
    {fallthroughPc takenPc : Address} (h : (c.terminateBlockConditional condition fallthroughPc takenPc).Ok)
    {a a' : Assembler} {is dead : List Instr} (hbefore : Emitted a c.assembler is)
    (hafter : Emitted (c.terminateBlockConditional condition fallthroughPc takenPc).assembler a' dead) :
    ForkAt a'.buffer a.offset (is ++ c.pending) condition c.allocator fallthroughPc takenPc :=
  Compiler.terminateBlockConditional_forkIn h hbefore hafter fun _ _ => rfl

theorem Produces.fork {c c1 : Compiler} {ks : List Instr} (h : Produces c c1 ks) {condition : Condition}
    {fallthroughPc takenPc : Address}
    (hok : (c1.terminateBlockConditional condition fallthroughPc takenPc).Ok) :
    ∃ is, ForkAt (c1.terminateBlockConditional condition fallthroughPc takenPc).assembler.buffer
        c.assembler.offset is condition c1.allocator fallthroughPc takenPc ∧
      (∀ m, execAll m is = execAll m (c.pending ++ ks)) ∧ ∀ i ∈ is, i ∈ c.pending ++ ks := by
  obtain ⟨is, hemitted, hexec, hmem⟩ := h
  exact ⟨_, Compiler.terminateBlockConditional_fork hok hemitted (.refl _), hexec, hmem⟩

namespace ForkAt

variable {code : Nat → Byte} {start : Nat} {is : List Instr} {condition : Condition}
  {r : RegisterAllocator} {fallthroughPc takenPc : Address} {s : State}

/-- **A run through a fork** returns at the end of the arm that the host flags choose, behind the epilogue
of that arm. -/
theorem run (h : ForkAt code start is condition r fallthroughPc takenPc) (hwf : r.Wf)
    (his : ∀ i ∈ is, i.straight) (hrip : s.rip = start) :
    ∃ fuel u, runToRet code fuel s = some u ∧
      u.memory = (execAll (execAll s is) (armCode r
        (if (execAll s is).flags.holds condition then takenPc else fallthroughPc))).memory ∧
      u.regs = (execAll (execAll (execAll s is) (armCode r
        (if (execAll s is).flags.holds condition then takenPc else fallthroughPc)))
        (if (execAll s is).flags.holds condition then [.pop .rbp] else epilogueCode)).regs := by
  obtain ⟨jump, next, offset, stop, stop', hbefore, hjump, hfirst, hsecond⟩ := h.layout
  have hstraight : ∀ pc, ∀ i ∈ armCode r pc, i.straight := fun pc i hi =>
    (confined_armCode hwf pc i hi).straight
  have hrun := fun fuel => runToRet_straight hbefore his hrip fuel
  generalize execAll s is = e at hrun ⊢
  have harm : ∃ fuel u, runToRet code fuel
      { e with rip := if e.flags.holds condition then jumpTarget next offset else next } = some u ∧
      u.memory = (execAll e (armCode r
        (if e.flags.holds condition then takenPc else fallthroughPc))).memory ∧
      u.regs = (execAll (execAll e (armCode r
        (if e.flags.holds condition then takenPc else fallthroughPc)))
        (if e.flags.holds condition then [.pop .rbp] else epilogueCode)).regs := by
    cases hholds : e.flags.holds condition with
    | true =>
        obtain ⟨fuel, u, hend, hmemory, hregs⟩ := runToRet_epilogue hsecond (hstraight takenPc)
          (by decide) (fun _ => rfl) (s := { e with rip := jumpTarget next offset }) rfl
        rw [execAll_rip e] at hmemory
        rw [execAll_rip e, execAll_rip (execAll e (armCode r takenPc))] at hregs
        exact ⟨fuel, u, hend, hmemory, hregs⟩
    | false =>
        obtain ⟨fuel, u, hend, hmemory, hregs⟩ := runToRet_epilogue hfirst (hstraight fallthroughPc)
          straight_epilogueCode execAll_epilogueCode_memory (s := { e with rip := next }) rfl
        rw [execAll_rip e] at hmemory
        rw [execAll_rip e, execAll_rip (execAll e (armCode r fallthroughPc))] at hregs
        exact ⟨fuel, u, hend, hmemory, hregs⟩
  obtain ⟨fuel, u, hend, hmemory, hregs⟩ := harm
  have hjcc := runToRet_jcc (s := { e with rip := jump }) hjump fuel
  exact ⟨_, u, (hrun (fuel + 1)).trans (hjcc.trans hend), hmemory, hregs⟩

/-- A control path may take the jump, and comes to the short epilogue of the second arm. -/
theorem secondPath (h : ForkAt code start is condition r fallthroughPc takenPc) (hwf : r.Wf)
    (his : ∀ i ∈ is, i.straight) (hrip : s.rip = start) :
    ∃ middle stop, ControlPath code s
        { execAll (execAll s is) (armCode r takenPc) with rip := middle } ∧
      CodeAt code middle ([.pop .rbp] ++ [.ret]) stop := by
  obtain ⟨jump, next, offset, -, stop', hbefore, hjump, -, hsecond⟩ := h.layout
  obtain ⟨middle, stop, harm, hrest⟩ := hsecond.split
  have hpath := controlPath_execAll hbefore his hrip
  generalize execAll s is = e at hpath ⊢
  have hjcc := controlPath_jcc (s := { e with rip := jump }) hjump
  have hstores := controlPath_execAll (s := { e with rip := jumpTarget next offset }) harm
    (fun i hi => (confined_armCode hwf takenPc i hi).straight) rfl
  rw [execAll_rip] at hstores
  exact ⟨middle, stop, hpath.trans (hjcc.trans hstores), hrest⟩

end ForkAt

/-! ### The translators -/

namespace Compiler

variable {c : Compiler} {w : BitVec 32} {a : Address}

theorem translateCbzCbnz_code {metadata : Metadata} {isCbnz : Bool}
    (h : (c.translateCbzCbnz metadata w a isCbnz).Ok) :
    ∃ n c1, c.allocator.allocate (registerOperand metadata w 0) false = some n ∧
      Produces c c1 (instrsOf n.macros) ∧ c1.allocator = n.allocator ∧
      c.translateCbzCbnz metadata w a isCbnz = c1.terminateBlockConditional
        (if isCbnz then .ne else .e) (a + 4) (a + branchOffset metadata w 1) := by
  simp only [translateCbzCbnz] at h ⊢
  have htested := h.of_terminateBlockConditional
  obtain ⟨n, hplan, heq⟩ := allocateX86Register_plan htested.of_push
  rw [heq] at htested ⊢
  have hproduces := (produces_apply htested.of_push).trans (produces_push htested)
  -- The comparison macro is pushed, but stands for no instruction.
  have hempty : (registerMacro .testRegisterRegister (some n.register)
      (some n.register)).instrs = [] := rfl
  rw [hempty, List.append_nil] at hproduces
  exact ⟨n, _, hplan, hproduces, rfl, rfl⟩

/-- The target of `B.cond`, as the translator computes it. -/
def bCondTarget (w : BitVec 32) (a : Address) : Address :=
  a + ((w >>> 5 &&& 0x7FFFF ^^^ 0x40000) - 0x40000).signExtend 64 * 4

theorem translateBCond_always (halways : w &&& 0xF = 0xE) (h : (c.translateBCond w a).Ok) :
    ∃ c1, Produces c c1 (armCode c.allocator (bCondTarget w a)) ∧ c1.allocator = c.allocator ∧
      c1.pending = [] ∧ c.translateBCond w a = c1.onAssembler Assembler.emitShortEpilogue := by
  simp only [translateBCond, if_pos halways] at h ⊢
  have hassembler := h.assembler
  rw [onAssembler_assembler] at hassembler
  obtain ⟨hstored, -⟩ := Assembler.emitted_shortEpilogue hassembler
  obtain ⟨hflushed, hemitted⟩ := Assembler.emitted_storePc hstored
  have hok : c.flushDirtyRegisters.flushAll.Ok := ⟨h.status, hflushed⟩
  have hstores := (produces_flushDirtyRegisters hok.of_flushAll).trans (produces_flushAll hok)
  have hpc := produces_onAssembler (f := fun a' => a'.emitStorePc (bCondTarget w a)) rfl hemitted
  have hproduces := hstores.trans hpc
  rw [List.append_nil] at hproduces
  exact ⟨_, hproduces, flushDirtyRegisters_allocator c, rfl, rfl⟩

theorem translateBCond_code (hcond : w &&& 0xF ≠ 0xE) (h : (c.translateBCond w a).Ok) :
    ∃ flagOffset testForZero c1, conditionFlag (w &&& 0xF) = some (flagOffset, testForZero) ∧
      Produces c c1 [.cmpMem8 (BitVec.ofNat 32 flagOffset) 0] ∧ c1.allocator = c.allocator ∧
      c.translateBCond w a = c1.terminateBlockConditional (if testForZero then .e else .ne) (a + 4)
        (bCondTarget w a) := by
  simp only [translateBCond, if_neg hcond] at h ⊢
  cases hflag : conditionFlag (w &&& 0xF) with
  | none =>
      simp only [hflag] at h
      exact absurd h.status (by simp)
  | some flag =>
      obtain ⟨flagOffset, testForZero⟩ := flag
      simp only [hflag] at h ⊢
      have hcompared := h.of_terminateBlockConditional
      have hassembler := hcompared.assembler
      rw [onAssembler_assembler] at hassembler
      have hok : c.flushAll.Ok := ⟨hcompared.status, (Assembler.emit_success hassembler).1⟩
      have hcmp := produces_onAssembler
        (f := fun a => a.emitCmpMem8RbpOffsetImm (BitVec.ofNat 32 flagOffset) 0) rfl
        (Assembler.emitted_cmpMem8 hassembler)
      exact ⟨flagOffset, testForZero, _, rfl, (produces_flushAll hok).trans hcmp, rfl, rfl⟩

end Compiler

/-- The two shapes of the code of a conditional branch: a jump that chooses between two arms, or the
second arm at once. -/
theorem LoopState.translateBranch {s : LoopState} {metadata : Metadata} {w : BitVec 32}
    (houtcome : metadata.outcome = .branches) (hok : (s.translateOpcode metadata w).compiler.Ok)
    (hwf : s.compiler.allocator.Wf) :
    ∃ c1 ks, Produces s.compiler c1 ks ∧ c1.allocator.Wf ∧
      (∀ i ∈ ks, Confined workingRegisters offsetInstructionCount i) ∧
      ((∃ condition fallthroughPc takenPc, (s.translateOpcode metadata w).compiler =
          c1.terminateBlockConditional condition fallthroughPc takenPc) ∨
        c1.pending = [] ∧ (s.translateOpcode metadata w).compiler =
          c1.onAssembler Assembler.emitShortEpilogue) := by
  have hcompare : ∀ isCbnz,
      (s.compiler.translateCbzCbnz metadata w s.guestAddress isCbnz).Ok →
      ∃ c1 ks, Produces s.compiler c1 ks ∧ c1.allocator.Wf ∧
        (∀ i ∈ ks, Confined workingRegisters offsetInstructionCount i) ∧
        ((∃ condition fallthroughPc takenPc,
          s.compiler.translateCbzCbnz metadata w s.guestAddress isCbnz =
            c1.terminateBlockConditional condition fallthroughPc takenPc) ∨
          c1.pending = [] ∧ s.compiler.translateCbzCbnz metadata w s.guestAddress isCbnz =
            c1.onAssembler Assembler.emitShortEpilogue) := by
    intro isCbnz hok
    obtain ⟨n, c1, hplan, hproduces, hallocator, heq⟩ := Compiler.translateCbzCbnz_code hok
    obtain ⟨hsafe, -⟩ := RegisterAllocator.allocate_safe hwf hplan
    exact ⟨c1, _, hproduces, hallocator ▸ hsafe.wf, spares_instrsOf hsafe.confined,
      .inl ⟨_, _, _, heq⟩⟩
  unfold translateOpcode at hok ⊢
  unfold Metadata.outcome at houtcome
  cases hopcode : metadata.irOpcode with
  | branchZero =>
      simp only [hopcode] at hok ⊢
      exact hcompare false hok
  | branchNotZero =>
      simp only [hopcode] at hok ⊢
      exact hcompare true hok
  | branchConditional =>
      simp only [hopcode, withCompiler, terminate] at hok ⊢
      by_cases halways : w &&& 0xF = 0xE
      · obtain ⟨c1, hproduces, hallocator, hpending, heq⟩ :=
          Compiler.translateBCond_always halways hok
        exact ⟨c1, _, hproduces, hallocator ▸ hwf, spares_armCode hwf _, .inr ⟨hpending, heq⟩⟩
      · obtain ⟨flagOffset, testForZero, c1, -, hproduces, hallocator, heq⟩ :=
          Compiler.translateBCond_code halways hok
        refine ⟨c1, _, hproduces, hallocator ▸ hwf, fun i hi => ?_, .inl ⟨_, _, _, heq⟩⟩
        rw [List.mem_singleton] at hi
        subst hi
        exact trivial
  | _ =>
      simp only [hopcode] at houtcome
      first
      | exact absurd houtcome (by decide)
      | (split at houtcome
         · exact absurd houtcome (by decide)
         · split at houtcome <;> exact absurd houtcome (by decide))

/-! ### Whole blocks -/

section Blocks

variable {input : TranslateInput} {c : Compiler} {start : Address} {t : Translation} {entry : Nat}
  {s s0 : LoopState} {metadata : Metadata} {js ks : List Instr} {c1 : Compiler}

theorem LeavesAt.compiler_eq {ending : Ending} (h : LeavesAt input s0 metadata ending s)
    (hne : ending ≠ .trapped) :
    (s0.translateOpcode metadata (input.memory.word s0.guestAddress)).compiler.Ok ∧
      s.compiler = (s0.translateOpcode metadata (input.memory.word s0.guestAddress)).compiler := by
  unfold LeavesAt at h
  split at h
  · exact absurd rfl hne
  · obtain ⟨hok, s', hcounts, rfl⟩ := h
    exact ⟨hok, hcounts.eq.1⟩

theorem Ended.outcome_eq (h : Ended input c start s s0 metadata (.opcode .branches)) :
    metadata.outcome = .branches := by
  obtain ⟨i, limit, -, -, -, hending⟩ := h.before
  obtain ⟨-, h⟩ | ⟨-, -, h⟩ | ⟨-, -, -, h⟩ := endingOf_some hending
  · cases h
  · exact (Ending.opcode.inj h).symm
  · cases h

/-- The code around a conditional branch: the block before it, and what `terminate_block` adds behind
it, where no run comes. -/
theorem Succeeds.aroundBranch (h : Succeeds input c start t entry) (hwindow : c.window.macros = [])
    (hfinal : Final input c start t s)
    (hended : Ended input c start s s0 metadata (.opcode .branches)) (hcode : CodeUpTo c start s0 js)
    (hproduces : Produces s0.compiler c1 ks) :
    (s0.translateOpcode metadata (input.memory.word s0.guestAddress)).compiler.Ok ∧
      ∃ is dead, Emitted c.assembler c1.assembler (prologueCode ++ is) ∧
        (∀ m, execAll m (is ++ c1.pending) = execAll m (js ++ ks)) ∧
        (∀ i ∈ is ++ c1.pending, i ∈ js ++ ks) ∧ entry = c.assembler.offset ∧
        Emitted (s0.translateOpcode metadata
          (input.memory.word s0.guestAddress)).compiler.assembler t.compiler.assembler dead := by
  obtain ⟨hok, hcompiler⟩ := hended.leaves.compiler_eq nofun
  have hokFinal := hfinal.ok
  rw [hfinal.compiler_eq] at hokFinal
  obtain ⟨-, is2, htail, -, -⟩ := Compiler.terminateBlock_code hokFinal
  rw [← hfinal.compiler_eq, hcompiler] at htail
  have hstart := (h.ok .start).assembler
  obtain ⟨is, hemitted, hexec, hmem⟩ := hcode.produces.trans hproduces
  rw [startState_assembler] at hstart hemitted
  obtain ⟨-, hprologue⟩ := Assembler.emitted_prologue hstart
  have hempty : (startState c start).compiler.pending = [] := by
    rw [Compiler.pending]
    simp [startState, hwindow]
  rw [hempty, List.nil_append] at hmem
  simp only [hempty, List.nil_append] at hexec
  exact ⟨hok, is, _, hprologue.trans hemitted, hexec, hmem, h.final.1, htail⟩

/-- A block whose last instruction ends in `terminate_block_conditional` is a fork, in every buffer that
begins like the compiler's. -/
theorem Succeeds.forkIn (h : Succeeds input c start t entry) (hwindow : c.window.macros = [])
    (hfinal : Final input c start t s)
    (hended : Ended input c start s s0 metadata (.opcode .branches)) (hcode : CodeUpTo c start s0 js)
    (hproduces : Produces s0.compiler c1 ks) {condition : Condition} {fallthroughPc takenPc : Address}
    (heq : (s0.translateOpcode metadata (input.memory.word s0.guestAddress)).compiler =
      c1.terminateBlockConditional condition fallthroughPc takenPc) {code : Nat → Byte}
    (hsame : ∀ k < t.compiler.assembler.offset, code k = t.compiler.assembler.buffer k) :
    ∃ is, ForkAt code entry (prologueCode ++ is) condition c1.allocator fallthroughPc takenPc ∧
      (∀ m, execAll m is = execAll m (js ++ ks)) ∧ ∀ i ∈ is, i ∈ js ++ ks := by
  obtain ⟨hok, is, dead, hemitted, hexec, hmem, rfl, hafter⟩ :=
    h.aroundBranch hwindow hfinal hended hcode hproduces
  rw [heq] at hok hafter
  have hfork := Compiler.terminateBlockConditional_forkIn hok hemitted hafter hsame
  rw [List.append_assoc] at hfork
  exact ⟨is ++ c1.pending, hfork, hexec, hmem⟩

theorem Succeeds.fork (h : Succeeds input c start t entry) (hwindow : c.window.macros = [])
    (hfinal : Final input c start t s)
    (hended : Ended input c start s s0 metadata (.opcode .branches)) (hcode : CodeUpTo c start s0 js)
    (hproduces : Produces s0.compiler c1 ks) {condition : Condition} {fallthroughPc takenPc : Address}
    (heq : (s0.translateOpcode metadata (input.memory.word s0.guestAddress)).compiler =
      c1.terminateBlockConditional condition fallthroughPc takenPc) :
    ∃ is, ForkAt t.compiler.assembler.buffer entry (prologueCode ++ is) condition c1.allocator
        fallthroughPc takenPc ∧
      (∀ m, execAll m is = execAll m (js ++ ks)) ∧ ∀ i ∈ is, i ∈ js ++ ks :=
  h.forkIn hwindow hfinal hended hcode hproduces heq fun _ _ => rfl

/-- A block whose last instruction is an unconditional `B.cond` runs straight to the short epilogue, in
every buffer that begins like the compiler's. -/
theorem Succeeds.shortIn (h : Succeeds input c start t entry) (hwindow : c.window.macros = [])
    (hfinal : Final input c start t s)
    (hended : Ended input c start s s0 metadata (.opcode .branches)) (hcode : CodeUpTo c start s0 js)
    (hproduces : Produces s0.compiler c1 ks) (hpending : c1.pending = [])
    (heq : (s0.translateOpcode metadata (input.memory.word s0.guestAddress)).compiler =
      c1.onAssembler Assembler.emitShortEpilogue) {code : Nat → Byte}
    (hsame : ∀ k < t.compiler.assembler.offset, code k = t.compiler.assembler.buffer k) :
    ∃ is, ShortAt code entry (prologueCode ++ is) ∧
      (∀ m, execAll m is = execAll m (js ++ ks)) ∧ ∀ i ∈ is, i ∈ js ++ ks := by
  obtain ⟨hok, is, dead, hemitted, hexec, hmem, rfl, hafter⟩ :=
    h.aroundBranch hwindow hfinal hended hcode hproduces
  rw [heq] at hok hafter
  have hassembler := hok.assembler
  rw [Compiler.onAssembler_assembler] at hassembler hafter
  obtain ⟨-, hshort⟩ := Assembler.emitted_shortEpilogue hassembler
  rw [hpending, List.append_nil] at hmem
  simp only [hpending, List.append_nil] at hexec
  have hcodeAt := hafter.codeAt (hemitted.trans hshort).code le_rfl
  have hin := hcodeAt.congr fun k _ hk => hsame k (Nat.lt_of_lt_of_le hk hafter.offset_le)
  exact ⟨is, ⟨_, hin⟩, hexec, hmem⟩

theorem Succeeds.short (h : Succeeds input c start t entry) (hwindow : c.window.macros = [])
    (hfinal : Final input c start t s)
    (hended : Ended input c start s s0 metadata (.opcode .branches)) (hcode : CodeUpTo c start s0 js)
    (hproduces : Produces s0.compiler c1 ks) (hpending : c1.pending = [])
    (heq : (s0.translateOpcode metadata (input.memory.word s0.guestAddress)).compiler =
      c1.onAssembler Assembler.emitShortEpilogue) :
    ∃ is, ShortAt t.compiler.assembler.buffer entry (prologueCode ++ is) ∧
      (∀ m, execAll m is = execAll m (js ++ ks)) ∧ ∀ i ∈ is, i ∈ js ++ ks :=
  h.shortIn hwindow hfinal hended hcode hproduces hpending heq fun _ _ => rfl

end Blocks

end Ballistic
