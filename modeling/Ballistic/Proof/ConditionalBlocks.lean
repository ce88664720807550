import Ballistic.Proof.Forks
import Ballistic.Proof.Simulation

/-!
# Blocks that end in a conditional branch

A block of additions and subtractions of immediates and of wide moves, ended by `B.cond` on a single
flag, goes where the A64 condition says, with the registers of the straight-line part in the record.
The straight-line part is right as long as it makes no difference whether its wide moves to the zero
register change the stack pointer.
-/

namespace Ballistic

open Machine Machine.X86

/-! ### Conditions -/

section Conditions

variable {w : BitVec 32} {imm19 : BitVec 19} {cond : BitVec 4}

theorem ushiftRight_and {position n : Nat} (hn : n ≤ 32) {mask : BitVec 32}
    (hmask : mask.toNat = 2 ^ n - 1) :
    w >>> position &&& mask = (w.extractLsb' position n).setWidth 32 := by
  apply BitVec.eq_of_toNat_eq
  have hlt := (w.extractLsb' position n).isLt
  have hle : 2 ^ n ≤ 2 ^ 32 := Nat.pow_le_pow_right (by decide) hn
  rw [BitVec.toNat_and, hmask, Nat.and_two_pow_sub_one_eq_mod, BitVec.toNat_setWidth,
    Nat.mod_eq_of_lt (hlt.trans_le hle), BitVec.extractLsb'_toNat, BitVec.toNat_ushiftRight]

theorem bCondTarget_eq (h : A64.decode w = some (.branchCond imm19 cond)) (a : Address) :
    Compiler.bCondTarget w a = a + (imm19 ++ 0#2).signExtend 64 := by
  obtain ⟨-, -, rfl, -⟩ := A64.decode_fields h
  rw [Compiler.bCondTarget, ushiftRight_and (n := 19) (by decide) rfl, xor_sub_signExtend,
    signExtend_mul_four (by decide)]

theorem condField_eq (h : A64.decode w = some (.branchCond imm19 cond)) :
    w &&& 0xF = cond.setWidth 32 := by
  obtain ⟨-, -, -, rfl⟩ := A64.decode_fields h
  have hmask : (0xF : BitVec 32).toNat = 2 ^ 4 - 1 := rfl
  rw [← ushiftRight_and (by decide) hmask, BitVec.ushiftRight_zero]

/-- The conditions on a single flag are that the flag's byte is not zero, and its negation. -/
theorem conditionFlag_holds (hcond : cond.toNat < 8) :
    ∃ flagOffset testForZero, Compiler.conditionFlag (cond.setWidth 32) = some (flagOffset, testForZero) ∧
      flagOffset < 2 ^ 31 ∧
      ∀ {base : Address} {r : RegisterAllocator} {s : State} {g : A64.State}, Holds base r s g ∅ →
        A64.conditionHolds g cond =
          (decide (s.memory (above base flagOffset) ≠ 0) != testForZero) := by
  have hcases : ∀ cond : BitVec 4, cond.toNat < 8 → cond = 0 ∨ cond = 1 ∨ cond = 2 ∨ cond = 3 ∨
      cond = 4 ∨ cond = 5 ∨ cond = 6 ∨ cond = 7 := by decide
  rcases hcases cond hcond with rfl | rfl | rfl | rfl | rfl | rfl | rfl | rfl <;>
    refine ⟨_, _, rfl, by decide, fun hholds => ?_⟩ <;>
    simp [A64.conditionHolds, hholds.flagN, hholds.flagZ, hholds.flagC, hholds.flagV]

end Conditions

theorem cmp8Flags_holds (x : Byte) (testForZero : Bool) :
    (cmp8Flags x 0).holds (if testForZero then .e else .ne) = (decide (x ≠ 0) != testForZero) := by
  have hzf : (cmp8Flags x 0).zf = decide (x = 0) := by
    change (x - 0#8 == 0) = _
    rw [BitVec.sub_zero]
    rfl
  cases testForZero with
  | false =>
      change (!(cmp8Flags x 0).zf) = _
      rw [hzf, Bool.bne_false, decide_not]
  | true =>
      change (cmp8Flags x 0).zf = _
      rw [hzf, Bool.bne_true, decide_not, Bool.not_not]

theorem exec_branchCond (access : A64.TagAccess) (g : A64.State) (imm19 : BitVec 19)
    (cond : BitVec 4) : A64.Instr.exec access g (.branchCond imm19 cond) =
      some { g with pc := if A64.conditionHolds g cond then g.pc + (imm19 ++ 0#2).signExtend 64
        else g.pc + 4 } := by
  simp only [A64.Instr.exec]
  split <;> rfl

/-! ### Blocks -/

/-- An arm puts the guest in the record, with the program counter of the arm. -/
theorem Holds.cpuState_armCode {base : Address} {r : RegisterAllocator} {s : State} {g : A64.State}
    (hwf : r.Wf) (h : Holds base r s g ∅) (pc : Address) :
    Ballistic.cpuState (execAll s (armCode r pc)).memory base = { g with pc := pc } :=
  h.tail hwf pc false 0 0

/-- The guest memory holds the instructions `body` and then `B.cond` from `start` on, and the limit
leaves room for them. -/
structure ConditionalBlock (input : TranslateInput) (start : Address) (body : List A64.Instr)
    (imm19 : BitVec 19) (cond : BitVec 4) : Prop where
  words : ∀ {k i}, (body ++ [.branchCond imm19 cond])[k]? = some i →
    A64.decode (input.memory.word (start + BitVec.ofNat 64 (4 * k))) = some i
  length_le : body.length + 1 ≤ input.maxInstructions
  body_immediate : ∀ i ∈ body, isSlotImmediate i = true
  singleFlag : cond.toNat < 8

/-- From `g` on, it makes no difference to the registers and flags behind `body` whether its wide moves
to the zero register are discarded or change the stack pointer. -/
def SlotAgrees (access : A64.TagAccess) (g : A64.State) (body : List A64.Instr) : Prop :=
  ∃ slot zero, body.foldlM (slotExec access) g = some slot ∧
    A64.execAll access g body = some zero ∧ slot.SameRegisters zero

/-- Both readings of the class are defined and go on to the next instruction. -/
theorem slotExec_next (access : A64.TagAccess) (g : A64.State) {i : A64.Instr}
    (h : isSlotImmediate i = true) :
    (∃ g', slotExec access g i = some g' ∧ g'.pc = g.pc + 4) ∧
      ∃ g', i.exec access g = some g' ∧ g'.pc = g.pc + 4 := by
  cases i with
  | addSubImm sf op s sh imm12 rn rd =>
      have hnext : ∃ g', A64.Instr.exec access g (.addSubImm sf op s sh imm12 rn rd) = some g' ∧
          g'.pc = g.pc + 4 :=
        ⟨_, rfl, congrArg (· + 4) (A64.State.writeSum_pc _ _ _ _)⟩
      exact ⟨hnext, hnext⟩
  | moveWide sf opc hw imm16 rd =>
      simp only [isSlotImmediate, Bool.and_eq_true, bne_iff_ne] at h
      have hdefined : ¬(opc = 1 ∨ (!sf && hw.getLsbD 1) = true) := by
        rw [not_or]
        refine ⟨h.1, ?_⟩
        cases sf <;> simp_all
      refine ⟨⟨_, if_neg hdefined, rfl⟩, ⟨_, if_neg hdefined, ?_⟩⟩
      exact congrArg (· + 4) (A64.State.setGeneral_pc _ _ _)
  | _ => exact absurd h (by simp [isSlotImmediate])

/-- A sequence whose steps are all defined and go on to the next instruction is defined and goes on
behind its last one. -/
theorem foldlM_next {step : A64.State → A64.Instr → Option A64.State} {body : List A64.Instr}
    (h : ∀ i ∈ body, ∀ g, ∃ g', step g i = some g' ∧ g'.pc = g.pc + 4) (g : A64.State) :
    ∃ g', body.foldlM step g = some g' ∧ g'.pc = g.pc + BitVec.ofNat 64 (4 * body.length) := by
  induction body generalizing g with
  | nil => exact ⟨g, rfl, (BitVec.add_zero g.pc).symm⟩
  | cons i is ih =>
      obtain ⟨g', hstep, hpc⟩ := h i (by simp) g
      obtain ⟨g'', hrest, hpc'⟩ := ih (fun j hj => h j (by simp [hj])) g'
      refine ⟨g'', ?_, ?_⟩
      · rw [List.foldlM_cons, hstep]
        exact hrest
      · rw [hpc', hpc, BitVec.add_assoc, List.length_cons, Nat.mul_add, Nat.add_comm, BitVec.ofNat_add]
        rfl

/-- A block that moves nothing to the zero register cannot tell. -/
theorem slotAgrees_of_isImmediate (access : A64.TagAccess) {body : List A64.Instr}
    (h : ∀ i ∈ body, isImmediate i = true) (g : A64.State) : SlotAgrees access g body := by
  obtain ⟨slot, hslot, -⟩ := foldlM_next (fun i hi g =>
    (slotExec_next access g (isSlotImmediate_of_isImmediate (h i hi))).1) g
  refine ⟨slot, slot, hslot, ?_, .refl slot⟩
  have hsame : ∀ (body : List A64.Instr), (∀ i ∈ body, isImmediate i = true) → ∀ g,
      A64.execAll access g body = body.foldlM (slotExec access) g := by
    intro body h
    induction body with
    | nil => exact fun _ => rfl
    | cons i is ih =>
        intro g
        rw [A64.execAll, List.foldlM_cons, slotExec_eq access g (h i (by simp))]
        exact congrArg _ (funext (ih fun j hj => h j (by simp [hj])))
  rw [hsame body h, hslot]

section Blocks

variable {input : TranslateInput} {c : Compiler} {start : Address} {t : Translation} {entry : Nat}
  {body : List A64.Instr} {imm19 : BitVec 19} {cond : BitVec 4}

theorem ConditionalBlock.last (hblock : ConditionalBlock input start body imm19 cond) :
    A64.decode (input.memory.word (start + BitVec.ofNat 64 (4 * body.length))) =
      some (.branchCond imm19 cond) := hblock.words (by simp)

theorem ConditionalBlock.guestSequence (hblock : ConditionalBlock input start body imm19 cond)
    (hgenerated : input.table.Generated) :
    GuestSequence input start isSlotImmediate body branchCondMetadata where
  words := fun hget => hblock.words (by
    rw [List.getElem?_append_left (List.getElem?_eq_some_iff.mp hget).1]
    exact hget)
  inClass := hblock.body_immediate
  length_le := hblock.length_le
  decodes := decode_branchCond hgenerated hblock.last
  untrapped := isTrapped_branchCond _
  ends := by decide

/-- What a run leaves of the guest that the host holds before a branch on a single flag: it returns
balanced exactly if the branch is not taken. -/
theorem Succeeds.branchRun (h : Succeeds input c start t entry) (hreachable : c.Reachable)
    {s s0 : LoopState} (hfinal : Final input c start t s)
    (hended : Ended input c start s s0 branchCondMetadata (.opcode .branches))
    (hword : A64.decode (input.memory.word s0.guestAddress) = some (.branchCond imm19 cond))
    (hsingle : cond.toNat < 8) {js : List Instr} (hcode : CodeUpTo c start s0 js) {code : Nat → Byte}
    (hsame : ∀ k < t.compiler.assembler.offset, code k = t.compiler.assembler.buffer k)
    (access : A64.TagAccess) {m : State} {cpu : Address} (hcall : Call m cpu entry) {g : A64.State}
    (hnext : Holds cpu s0.compiler.allocator (execAll (execAll m prologueCode) js) g ∅)
    (hpc : g.pc = s0.guestAddress) :
    ∃ fuel u, runToRet code fuel m = some u ∧
      A64.Instr.exec access g (.branchCond imm19 cond) = some (cpuState u.memory cpu) ∧
      (Balanced m u ↔ A64.conditionHolds g cond = false) := by
  obtain ⟨hok, -⟩ := hended.leaves.compiler_eq nofun
  have hcond := condField_eq hword
  obtain ⟨flagOffset, testForZero, hflag, hoffset, hholds⟩ := conditionFlag_holds hsingle
  have hnotAlways : input.memory.word s0.guestAddress &&& 0xF ≠ 0xE := by
    rw [hcond]
    intro halways
    have hvalue := congrArg BitVec.toNat halways
    rw [BitVec.toNat_setWidth, Nat.mod_eq_of_lt (by omega)] at hvalue
    rw [hvalue] at hsingle
    exact absurd hsingle (by decide)
  obtain ⟨flagOffset', testForZero', c1, hflag', hproduces, hallocator, heq⟩ :=
    Compiler.translateBCond_code hnotAlways hok
  rw [hcond, hflag] at hflag'
  cases hflag'
  obtain ⟨is, hfork, hexec, hmem⟩ :=
    h.forkIn hreachable.window hfinal hended hcode hproduces heq hsame
  have hconfined : ∀ i ∈ is, Confined workingRegisters cpuSize i := by
    intro i hi
    rcases List.mem_append.mp (hmem i hi) with hi | hi
    · exact hcode.confined i hi
    · rw [List.mem_singleton] at hi
      subst hi
      exact trivial
  obtain ⟨fuel, u, hrun, hmemory, hregs⟩ := hfork.run (hallocator ▸ hcode.wf) (fun i hi =>
    (List.mem_append.mp hi).elim (straight_prologueCode i) fun hi => (hconfined i hi).straight) hcall.rip
  refine ⟨fuel, u, hrun, ?_⟩
  have hinside : Inside m (execAll m (prologueCode ++ is)) cpu := by
    rw [execAll_append]
    exact hcall.inside.execAll hcall hconfined
  have harms : ∀ pc, Inside m (execAll (execAll m (prologueCode ++ is)) (armCode c1.allocator pc)) cpu :=
    fun pc => hinside.execAll hcall (confined_armCode (hallocator ▸ hcode.wf) pc)
  generalize hjumps : (execAll m (prologueCode ++ is)).flags.holds _ = jumps at hmemory hregs
  rw [execAll_append, hexec, execAll_append] at hmemory hjumps
  generalize execAll (execAll m prologueCode) js = host at hmemory hjumps hnext
  have haddress' : host.frameAddress (BitVec.ofNat 32 flagOffset) = above cpu flagOffset := by
    rw [State.frameAddress_eq _ (by rw [BitVec.toNat_ofNat]; omega), hnext.rbp, BitVec.toNat_ofNat,
      Nat.mod_eq_of_lt (by omega)]
  simp only [execAll_cons, execAll_nil, Instr.exec, haddress'] at hmemory hjumps
  have hcompared : Holds cpu c1.allocator
      { host with flags := cmp8Flags (host.memory (above cpu flagOffset)) 0 } g ∅ :=
    hallocator ▸ hnext.congr_state hcode.wf rfl (fun _ _ => rfl) rfl
  -- The jump is taken exactly if the condition holds.
  have hjump : (cmp8Flags (host.memory (above cpu flagOffset)) 0).holds
      (if testForZero then .e else .ne) = A64.conditionHolds g cond := by
    rw [hholds hnext, cmp8Flags_holds]
  obtain rfl := hjumps.symm.trans hjump
  constructor
  · rw [hmemory, hcompared.cpuState_armCode (hallocator ▸ hcode.wf), bCondTarget_eq hword, ← hpc]
    exact exec_branchCond access g imm19 cond
  · rw [Balanced.congr hregs]
    cases A64.conditionHolds g cond with
    | true => exact iff_of_false (harms _).not_balanced_pop (by decide)
    | false => exact iff_of_true (harms _).balanced.1 rfl

/-- What a block with a conditional end leaves in the record: the registers that its body leaves when
wide moves change the stack pointer, and the program counter that the condition chooses. -/
theorem Succeeds.conditionalRun (h : Succeeds input c start t entry) (hreachable : c.Reachable)
    (hgenerated : input.table.Generated) (hblock : ConditionalBlock input start body imm19 cond)
    (access : A64.TagAccess) {s : State} {cpu : Address} (hcall : Call s cpu entry) :
    ∃ fuel u slot, runToRet t.compiler.assembler.buffer fuel s = some u ∧
      body.foldlM (slotExec access) { cpuState s.memory cpu with pc := start } = some slot ∧
      A64.Instr.exec access slot (.branchCond imm19 cond) = some (cpuState u.memory cpu) := by
  obtain ⟨sf, s0, metadata, ending, hfinal, hended⟩ := h.ended
  obtain ⟨rfl, rfl, haddress, js, hcode, hsimulated⟩ := h.simulatedAll
    (isSlotImmediate_simulates hgenerated access) (hblock.guestSequence hgenerated) hended
  have hword := hblock.last
  rw [← haddress] at hword
  obtain ⟨g, hbody, hpc, hnext⟩ := hsimulated (hcall.holds.withPc start)
  obtain ⟨fuel, u, hrun, hlast, -⟩ := h.branchRun hreachable hfinal hended hword hblock.singleFlag hcode
    (fun _ _ => rfl) access hcall hnext (hpc.trans haddress.symm)
  exact ⟨fuel, u, g, hrun, hbody, hlast⟩

/-- **Blocks with a conditional end.** A block of the immediate subset, ended by `B.cond` on a single
flag and run on any CPU record, leaves in it what the A64 instructions leave in sequence, exactly if
its wide moves to the zero register may as well change the stack pointer. -/
theorem conditionalBlock_iff (hreachable : c.Reachable) (hgenerated : input.table.Generated)
    (hblock : ConditionalBlock input start body imm19 cond) (h : Succeeds input c start t entry)
    (access : A64.TagAccess) {s : State} {cpu : Address} (hcall : Call s cpu entry) :
    (∃ fuel u, runToRet t.compiler.assembler.buffer fuel s = some u ∧
      A64.execAll access { cpuState s.memory cpu with pc := start }
        (body ++ [.branchCond imm19 cond]) = some (cpuState u.memory cpu)) ↔
      SlotAgrees access { cpuState s.memory cpu with pc := start } body := by
  obtain ⟨fuel, u, slot, hrun, hslot, hlast⟩ :=
    h.conditionalRun hreachable hgenerated hblock access hcall
  generalize ({ cpuState s.memory cpu with pc := start } : A64.State) = g at hslot ⊢
  obtain ⟨slot', hslot', hpc⟩ := foldlM_next (fun i hi g =>
    (slotExec_next access g (hblock.body_immediate i hi)).1) g
  obtain ⟨zero, hzero, hpc'⟩ := foldlM_next (fun i hi g =>
    (slotExec_next access g (hblock.body_immediate i hi)).2) g
  cases hslot.symm.trans hslot'
  rw [← A64.execAll_eq_foldlM] at hzero
  rw [A64.execAll_append, hzero]
  simp only [Option.bind_some, A64.execAll, Option.bind_fun_some, exec_branchCond]
  rw [exec_branchCond] at hlast
  constructor
  · rintro ⟨fuel', u', hrun', hexec⟩
    obtain rfl := runToRet_unique hrun hrun'
    have heq := Option.some.inj (hexec.trans hlast.symm)
    refine ⟨slot, zero, hslot, hzero, ?_⟩
    exact ⟨(congrArg A64.State.x heq).symm, (congrArg A64.State.flagN heq).symm,
      (congrArg A64.State.flagZ heq).symm, (congrArg A64.State.flagC heq).symm,
      (congrArg A64.State.flagV heq).symm⟩
  · rintro ⟨slot', zero', hslot', hzero', hsame⟩
    cases hslot.symm.trans hslot'
    cases hzero.symm.trans hzero'
    refine ⟨fuel, u, hrun, ?_⟩
    rw [← hlast, hsame.conditionHolds_eq cond, hpc, ← hpc']
    exact congrArg some (A64.State.ext hsame.x.symm hsame.flagN.symm hsame.flagZ.symm
      hsame.flagC.symm hsame.flagV.symm rfl)

end Blocks

/-- `ADDS X0, X0, #0` and `B.EQ #8`. -/
theorem conditionalBlock_adds : ConditionalBlock (.ofWords 0x1000 [0xB1000000, 0x54000040] 8) 0x1000
    [.addSubImm true false true false 0 0 0] 2 0 where
  words := decodes_of_forall (by decide)
  length_le := by decide
  body_immediate := by decide
  singleFlag := by decide

theorem conditionalBlock_iff_adds : ∃ t fuel u,
    Succeeds (.ofWords 0x1000 [0xB1000000, 0x54000040] 8) (.fresh 256) 0x1000 t 0 ∧
      runToRet t.compiler.assembler.buffer fuel (someCall 0) = some u ∧
      A64.execAll ⟨false, 0⟩ { cpuState (someCall 0).memory 0 with pc := 0x1000 }
        ([.addSubImm true false true false 0 0 0] ++ [.branchCond 2 0]) =
          some (cpuState u.memory 0) := by
  obtain ⟨t, -, h⟩ := succeeds_of_eval (.ofWords 0x1000 [0xB1000000, 0x54000040] 8) (.fresh 256) 0x1000
    6 (show _ = some 0 by decide)
  obtain ⟨fuel, u, hrun, hstate⟩ := (conditionalBlock_iff (Compiler.fresh_reachable (by decide))
    generatedTable_generated conditionalBlock_adds h ⟨false, 0⟩ (someCall_call 0)).mpr
    (slotAgrees_of_isImmediate ⟨false, 0⟩ (by decide) _)
  exact ⟨t, fuel, u, h, hrun, hstate⟩

/-- `MOVZ XZR, #5` and `B.EQ #8`. -/
theorem conditionalBlock_movz : ConditionalBlock (.ofWords 0x1000 [0xD28000BF, 0x54000040] 8) 0x1000
    [.moveWide true 2 0 5 31] 2 0 where
  words := decodes_of_forall (by decide)
  length_le := by decide
  body_immediate := by decide
  singleFlag := by decide

/-- A move to the zero register in front of a conditional branch: the stack pointer is 5 behind it. -/
theorem movz_before_bEq : ∃ t u,
    Succeeds (.ofWords 0x1000 [0xD28000BF, 0x54000040] 8) (.fresh 256) 0x1000 t 0 ∧
      ConditionalBlock (.ofWords 0x1000 [0xD28000BF, 0x54000040] 8) 0x1000
        [.moveWide true 2 0 5 31] 2 0 ∧
      Call (someCall 0) 0 0 ∧ runToRet t.compiler.assembler.buffer 40 (someCall 0) = some u ∧
      (cpuState (someCall 0).memory 0).x 31 = 0 ∧ (cpuState u.memory 0).x 31 = 5 ∧
      ¬∃ fuel u, runToRet t.compiler.assembler.buffer fuel (someCall 0) = some u ∧
        A64.execAll ⟨false, 0⟩ { cpuState (someCall 0).memory 0 with pc := 0x1000 }
          ([.moveWide true 2 0 5 31] ++ [.branchCond 2 0]) = some (cpuState u.memory 0) := by
  obtain ⟨t, htranslate, h⟩ := succeeds_of_eval (.ofWords 0x1000 [0xD28000BF, 0x54000040] 8)
    (.fresh 256) 0x1000 6 (show _ = some 0 by decide)
  have hrun : ((balTier1CompilerTranslate (.ofWords 0x1000 [0xD28000BF, 0x54000040] 8) (.fresh 256)
      0x1000 6).bind fun t => (runToRet t.compiler.assembler.buffer 40 (someCall 0)).map
        fun u => (cpuState u.memory 0).x 31) = some 5 := by decide
  rw [htranslate, Option.bind_some, Option.map_eq_some_iff] at hrun
  obtain ⟨u, hrun, hslot⟩ := hrun
  refine ⟨t, u, h, conditionalBlock_movz, someCall_call 0, hrun, by decide, hslot, ?_⟩
  rintro ⟨fuel, u', hrun', hexec⟩
  obtain rfl := runToRet_unique hrun hrun'
  have hzero : (A64.execAll ⟨false, 0⟩ { cpuState (someCall 0).memory 0 with pc := 0x1000 }
      ([.moveWide true 2 0 5 31] ++ [.branchCond 2 0])).map (·.x 31) = some 0 := by decide
  rw [hexec, Option.map_some, hslot] at hzero
  exact absurd hzero (by decide)

end Ballistic
