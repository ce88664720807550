import Ballistic.Proof.Coherence
import Ballistic.Proof.ConditionalBlocks
import Ballistic.Proof.RegisterForms

/-!
# Blocks of the integer subset

The immediate subset together with additions, subtractions and conjunctions of registers. The forms
with two registers are only right while nothing is evicted, so a block is in the subset if it has
none of them, or if all its instructions together name at most nine guest registers. Ended by a
return, a branch or a branch on one flag, such a block does to the CPU record what the A64
instructions do in sequence, wherever in the code buffer it lies and whatever is compiled behind it
(`Succeeds.integerRun`).
-/

namespace Ballistic

open Machine Machine.X86

/-! ### The subset -/

/-- Additions and subtractions of two general registers whose destination is not the second operand,
and conjunctions of general registers: all 64 bits wide and without a shift. -/
def isRegisterForm : A64.Instr → Bool
  | .addSubShifted sf _ s shift rm imm6 rn rd =>
      sf && shift != 3 && imm6 == 0 && rn != 31 && rm != 31 && rd != rm && (s || rd != 31)
  | .logicalShifted sf opc _ n rm imm6 rn rd =>
      sf && opc == 0 && !n && imm6 == 0 && rn != 31 && rm != 31 && rd != 31
  | _ => false

def isInteger (i : A64.Instr) : Bool := isImmediate i || isRegisterForm i

/-- The guest registers that an instruction needs in host registers. A discarded result needs none. -/
def namedRegisters : A64.Instr → Finset A64.Register
  | .addSubImm _ _ s _ _ rn rd => if s && rd == 31 then {rn} else {rn, rd}
  | .moveWide _ _ _ _ rd => {rd}
  | .addSubShifted _ _ s _ rm _ rn rd => if s && rd == 31 then {rn, rm} else {rn, rm, rd}
  | .logicalShifted _ _ _ _ rm _ rn rd => {rn, rm, rd}
  | .ret rn => {rn}
  | _ => ∅

/-- The instructions that end a block of the subset. -/
def isEnd : A64.Instr → Bool
  | .branchCond _ cond => decide (cond.toNat < 8)
  | i => isExit i

/-- The guest memory holds the instructions `body` and then `last` from `start` on, and the limit
leaves room for them. -/
structure IntegerBlock (input : TranslateInput) (start : Address) (body : List A64.Instr)
    (last : A64.Instr) : Prop where
  words : ∀ {k i}, (body ++ [last])[k]? = some i →
    A64.decode (input.memory.word (start + BitVec.ofNat 64 (4 * k))) = some i
  length_le : body.length + 1 ≤ input.maxInstructions
  body_integer : (∀ i ∈ body, isImmediate i = true) ∨ ∃ touched : Finset A64.Register,
    touched.card ≤ 9 ∧ ∀ i ∈ body, isInteger i = true ∧ namedRegisters i ⊆ touched
  last_end : isEnd last = true

/-! ### One instruction -/

section Instructions

variable {table : DecoderTable} {touched : Finset (Fin 32)}

/-- As long as no guest register outside `touched` has a host register, the plan for an instruction
of the class gives none to another one, and does to the guest what `step` does. -/
def SimulatesWithin (table : DecoderTable) (touched : Finset (Fin 32)) (inClass : A64.Instr → Bool)
    (step : A64.State → A64.Instr → Option A64.State) : Prop :=
  ∀ {w : BitVec 32} {r : RegisterAllocator} {i : A64.Instr}, inClass i = true →
    A64.decode w = some i →
    ∃ metadata, balDecodeArm64 table w = some metadata ∧ metadata.outcome = .continues ∧
      (∀ flags, isTrapped flags metadata = false) ∧
      ∀ {p : Plan}, r.plan metadata w = some p → r.Wf → r.mapped ⊆ touched →
        p.allocator.mapped ⊆ touched ∧
        ∀ {base : Address} {s : State} {g : A64.State}, Holds base r s g ∅ →
          ∃ g', step g i = some g' ∧ g'.pc = g.pc + 4 ∧
            Holds base p.allocator (execAll s (instrsOf p.macros)) g' ∅

theorem SimulatesWithin.goesOn {inClass : A64.Instr → Bool}
    {step : A64.State → A64.Instr → Option A64.State}
    (h : SimulatesWithin table touched inClass step) : GoesOn table inClass := by
  intro w i hclass hdecode
  obtain ⟨metadata, hmetadata, houtcome, huntrapped, -⟩ := h (r := .reset) hclass hdecode
  exact ⟨metadata, hmetadata, houtcome, huntrapped⟩

theorem SimulatesWithin.of_simulates {inClass : A64.Instr → Bool}
    {step : A64.State → A64.Instr → Option A64.State} (h : Simulates table inClass step) :
    SimulatesWithin table Finset.univ inClass step := by
  intro w r i hclass hdecode
  obtain ⟨metadata, hmetadata, houtcome, huntrapped, hstep⟩ := h (r := r) hclass hdecode
  exact ⟨metadata, hmetadata, houtcome, huntrapped, fun hplan hwf _ =>
    ⟨Finset.subset_univ _, fun hholds => hstep hplan hwf hholds⟩⟩

/-- A plan asks for the registers that its instruction names. -/
theorem RegisterAllocator.plan_mapped_subset {r : RegisterAllocator} (hwf : r.Wf)
    (hmapped : r.mapped ⊆ touched) {metadata : Metadata} {w : BitVec 32} {p : Plan}
    (hplan : r.plan metadata w = some p)
    (hasked : ∀ a : Fin 32, (a : Nat) ∈ askedRegisters metadata w → a ∈ touched) :
    p.allocator.mapped ⊆ touched := by
  intro a ha
  rcases plan_mapped hwf hplan ha with ha | ha
  · exact hmapped ha
  · exact hasked a ha

theorem asked_moveWide (hgenerated : table.Generated) {w : BitVec 32} {sf : Bool} {opc hw : BitVec 2}
    {imm16 : BitVec 16} {rd : A64.Register} (h : A64.decode w = some (.moveWide sf opc hw imm16 rd))
    (hopc : opc ≠ 1) (hhw : (sf || !hw.getLsbD 1) = true) :
    RegisterAllocator.askedRegisters (moveWideMetadata sf opc) w = [(rd : Nat)] := by
  obtain ⟨-, hrd, -⟩ := decode_moveWide hgenerated h hopc hhw
  rw [← hrd]
  rfl

theorem asked_addSubImm (hgenerated : table.Generated) {w : BitVec 32} {sf op s sh : Bool}
    {imm12 : BitVec 12} {rn rd : A64.Register}
    (h : A64.decode w = some (.addSubImm sf op s sh imm12 rn rd)) :
    RegisterAllocator.askedRegisters (addSubImmMetadata sf op s) w =
      (rn : Nat) :: if s && (rd : Nat) == 31 then [] else [(rd : Nat)] := by
  obtain ⟨-, hrd, hrn, -⟩ := decode_addSubImm hgenerated h
  have hsets : Compiler.isSettingFlags (addSubImmMetadata sf op s) = s := by
    cases op <;> cases s <;> rfl
  have hregister : isRegister ((addSubImmMetadata sf op s).operand 3) = false := rfl
  simp only [RegisterAllocator.askedRegisters, hrd, hrn, hsets, hregister]
  cases op <;> rfl

theorem asked_addSubShifted (hgenerated : table.Generated) {w : BitVec 32} {sf op s : Bool}
    {shift : BitVec 2} {imm6 : BitVec 6} {rm rn rd : A64.Register}
    (h : A64.decode w = some (.addSubShifted sf op s shift rm imm6 rn rd)) :
    RegisterAllocator.askedRegisters (addSubShiftedMetadata sf op s) w =
      (rn : Nat) :: (rm : Nat) :: if s && (rd : Nat) == 31 then [] else [(rd : Nat)] := by
  obtain ⟨-, hrd, hrn, -, hrm⟩ := decode_addSubShifted hgenerated h
  have hsets : Compiler.isSettingFlags (addSubShiftedMetadata sf op s) = s := by
    cases op <;> cases s <;> rfl
  have hregister : isRegister ((addSubShiftedMetadata sf op s).operand 3) = true := by
    cases sf <;> rfl
  simp only [RegisterAllocator.askedRegisters, hrd, hrn, hrm, hsets, hregister]
  cases op <;> rfl

theorem asked_andShifted (hgenerated : table.Generated) {w : BitVec 32} {sf : Bool} {shift : BitVec 2}
    {imm6 : BitVec 6} {rm rn rd : A64.Register}
    (h : A64.decode w = some (.logicalShifted sf 0 shift false rm imm6 rn rd)) :
    RegisterAllocator.askedRegisters (andShiftedMetadata sf) w =
      [(rn : Nat), (rm : Nat), (rd : Nat)] := by
  obtain ⟨-, hrd, hrn, -, hrm⟩ := decode_andShifted hgenerated h
  rw [← hrd, ← hrn, ← hrm]
  rfl

/-- The destination of a flag-setting form is asked for unless it is register 31. -/
theorem mem_destination {s : Bool} {a rd : A64.Register} {named : Finset A64.Register}
    (h : (a : Nat) ∈ if s && (rd : Nat) == 31 then [] else [(rd : Nat)])
    (hnamed : (s && rd == 31) = false → rd ∈ named) : a ∈ named := by
  split at h
  · cases h
  · next hkept =>
      rw [List.mem_singleton] at h
      rw [Fin.ext h]
      refine hnamed ?_
      by_contra hdiscarded
      simp only [Bool.not_eq_false, Bool.and_eq_true, beq_iff_eq] at hdiscarded
      exact hkept (by simp [hdiscarded.1, hdiscarded.2])

/-- Nine host registers are enough for the registers that the instructions of a block name. -/
theorem isInteger_simulates (hgenerated : table.Generated) (access : A64.TagAccess)
    (hcard : touched.card ≤ 9) :
    SimulatesWithin table touched
      (fun i => isInteger i && decide (namedRegisters i ⊆ touched)) fun g i => i.exec access g := by
  intro w r i h hdecode
  simp only [Bool.and_eq_true, decide_eq_true_eq, isInteger, Bool.or_eq_true] at h
  obtain ⟨hinteger | hregister, hnamed⟩ := h
  · obtain ⟨metadata, hmetadata, houtcome, huntrapped, hstep⟩ :=
      isImmediate_simulates (r := r) hgenerated access hinteger hdecode
    refine ⟨metadata, hmetadata, houtcome, huntrapped, fun hplan hwf hmapped =>
      ⟨RegisterAllocator.plan_mapped_subset hwf hmapped hplan fun a ha => hnamed ?_,
        fun hholds => hstep hplan hwf hholds⟩⟩
    cases i with
    | addSubImm sf op s sh imm12 rn rd =>
        rw [(decode_addSubImm hgenerated hdecode).1] at hmetadata
        cases hmetadata
        rw [asked_addSubImm hgenerated hdecode] at ha
        rcases List.mem_cons.mp ha with hrn | ha
        · rw [Fin.ext hrn, namedRegisters]
          split <;> simp
        · exact mem_destination ha fun hkept => by simp [namedRegisters, hkept]
    | moveWide sf opc hw imm16 rd =>
        simp only [isImmediate, Bool.and_eq_true, bne_iff_ne] at hinteger
        obtain ⟨⟨hopc, hhw⟩, -⟩ := hinteger
        rw [(decode_moveWide hgenerated hdecode hopc hhw).1] at hmetadata
        cases hmetadata
        rw [asked_moveWide hgenerated hdecode hopc hhw, List.mem_singleton] at ha
        rw [Fin.ext ha, namedRegisters, Finset.mem_singleton]
    | _ => exact absurd hinteger (by simp [isImmediate])
  · cases i with
    | addSubShifted sf op s shift rm imm6 rn rd =>
        simp only [isRegisterForm, Bool.and_eq_true, bne_iff_ne, beq_iff_eq, Bool.or_eq_true,
          and_assoc] at hregister
        obtain ⟨rfl, hshift, rfl, hrn, hrm, hne, hrd⟩ := hregister
        refine ⟨_, (decode_addSubShifted hgenerated hdecode).1, outcome_addSubShifted true op s,
          fun flags => isTrapped_addSubShifted flags true op s, fun hplan hwf hmapped => ?_⟩
        have hrn' : rn ∈ touched := hnamed (by rw [namedRegisters]; split <;> simp)
        have hrm' : rm ∈ touched := hnamed (by rw [namedRegisters]; split <;> simp)
        have hrd' : (s && rd == 31) = false → rd ∈ touched := fun hkept =>
          hnamed (by simp [namedRegisters, hkept])
        refine ⟨RegisterAllocator.plan_mapped_subset hwf hmapped hplan fun a ha => ?_,
          fun {base host g} hholds => ?_⟩
        · rw [asked_addSubShifted hgenerated hdecode] at ha
          rcases List.mem_cons.mp ha with ha | ha
          · rwa [Fin.ext ha]
          rcases List.mem_cons.mp ha with ha | ha
          · rwa [Fin.ext ha]
          · exact mem_destination ha hrd'
        · rw [plan_addSubShifted hgenerated hdecode] at hplan
          have hdiscarded : (s && (rd : Nat) == 31) = (s && rd == 31) := by
            congr 1
            rw [Bool.eq_iff_iff, beq_iff_eq, beq_iff_eq]
            exact ⟨fun h => Fin.ext h, fun h => congrArg Fin.val h⟩
          obtain ⟨-, hleft⟩ := hholds.planAddSubReg hwf hcard hmapped hrn' hrm'
            (fun hkept => hrd' (hdiscarded ▸ hkept)) hrm hplan
          rw [if_neg hne] at hleft
          have hset : rd = 31 → s = true := fun heq => hrd.resolve_right (not_not.mpr heq)
          refine ⟨_, exec_addSubShifted hshift hrn hrm hset access g, ?_, hleft.withPc _⟩
          exact congrArg (· + 4) (A64.State.writeSum_pc _ _ _ _)
    | logicalShifted sf opc shift n rm imm6 rn rd =>
        simp only [isRegisterForm, Bool.and_eq_true, bne_iff_ne, beq_iff_eq, Bool.not_eq_true',
          and_assoc] at hregister
        obtain ⟨rfl, rfl, rfl, rfl, hrn, hrm, hrd⟩ := hregister
        refine ⟨_, (decode_andShifted hgenerated hdecode).1, rfl,
          fun flags => isTrapped_andShifted flags true, fun hplan hwf hmapped => ?_⟩
        have hrn' : rn ∈ touched := hnamed (by simp [namedRegisters])
        have hrm' : rm ∈ touched := hnamed (by simp [namedRegisters])
        have hrd' : rd ∈ touched := hnamed (by simp [namedRegisters])
        refine ⟨RegisterAllocator.plan_mapped_subset hwf hmapped hplan fun a ha => ?_,
          fun {base host g} hholds => ?_⟩
        · rw [asked_andShifted hgenerated hdecode] at ha
          simp only [List.mem_cons, List.not_mem_nil, or_false] at ha
          rcases ha with ha | ha | ha <;> rwa [Fin.ext ha]
        · rw [plan_andShifted hgenerated hdecode] at hplan
          obtain ⟨-, hleft⟩ := hholds.planAnd hwf hcard hmapped hrn' hrm' hrd hplan
          exact ⟨_, exec_andShifted true hrn hrm hrd access g, rfl, hleft.withPc _⟩
    | _ => exact absurd hregister (by simp [isRegisterForm])

end Instructions

/-! ### Blocks -/

section Blocks

variable {input : TranslateInput} {c : Compiler} {start : Address} {t : Translation} {entry : Nat}
  {body : List A64.Instr} {last : A64.Instr} {lastMetadata : Metadata} {inClass : A64.Instr → Bool}
  {step : A64.State → A64.Instr → Option A64.State} {touched : Finset (Fin 32)}

theorem reset_mapped_subset : RegisterAllocator.reset.mapped ⊆ touched := by
  intro a ha
  obtain ⟨x, hx⟩ := RegisterAllocator.mem_mapped.mp ha
  cases hx

/-- The end of a sequence: the block comes to its last instruction, with code for all before it. -/
theorem Succeeds.simulatedWithin (h : Succeeds input c start t entry)
    (hsimulates : SimulatesWithin input.table touched inClass step)
    (hblock : GuestSequence input start inClass body lastMetadata) {s s0 : LoopState}
    {metadata : Metadata} {ending : Ending} (hended : Ended input c start s s0 metadata ending) :
    metadata = lastMetadata ∧ ending = .opcode lastMetadata.outcome ∧
      s0.guestAddress = start + BitVec.ofNat 64 (4 * body.length) ∧
      ∃ js, CodeUpTo c start s0 js ∧
        ∀ {base : Address} {host : State} {g : A64.State}, Holds base .reset host g ∅ →
          ∃ g', body.foldlM step g = some g' ∧
            g'.pc = g.pc + BitVec.ofNat 64 (4 * body.length) ∧
            Holds base s0.compiler.allocator (execAll host js) g' ∅ := by
  obtain ⟨hmetadata, hending, haddress, hcount⟩ := h.endsSequence hsimulates.goesOn hblock hended
  obtain ⟨i, limit, hreach, hrunning, -⟩ := hended.before
  have hinduction := h.sequenceInduction hblock
    (P := fun s => ∃ js, SimulatedUpTo step c start body s js ∧
      s.compiler.allocator.mapped ⊆ touched) ?_ ?_ hreach hrunning
  · obtain ⟨⟨js, hup, -⟩, -⟩ := hinduction
    have hsimulated := @hup.simulates
    rw [hcount, List.take_length] at hsimulated
    exact ⟨hmetadata, hending, haddress, js, hup.code, hsimulated⟩
  · refine ⟨[], ⟨⟨RegisterAllocator.reset_wf, .refl _, by simp⟩, fun hholds => ⟨_, rfl, ?_, hholds⟩⟩,
      reset_mapped_subset⟩
    exact (BitVec.add_zero _).symm
  · intro s s' metadata plan hbody hup _ hword hdecode hplan hok hcompiler hcount
    obtain ⟨js, hup, hmapped⟩ := hup
    obtain ⟨metadata', hmetadata, -, -, hstep⟩ := hsimulates (r := s.compiler.allocator)
      (hblock.inClass _ (List.getElem_mem hbody)) hword
    rw [hdecode] at hmetadata
    cases hmetadata
    obtain ⟨hmapped', hnext⟩ := hstep hplan hup.code.wf hmapped
    refine ⟨js ++ instrsOf plan.macros, ⟨hup.code.apply
      (RegisterAllocator.plan_safe hup.code.wf hplan) hok hcompiler, ?_⟩, ?_⟩
    · intro base host g hholds
      obtain ⟨g', hexec, hpc, hheld⟩ := hup.simulates hholds
      obtain ⟨g'', hexec', hpc', hheld'⟩ := hnext hheld
      rw [hcount, hcompiler]
      refine ⟨g'', ?_, ?_, ?_⟩
      · rw [List.take_add_one, List.getElem?_eq_getElem hbody, List.foldlM_append, hexec]
        simp [hexec']
      · rw [hpc', hpc]
        exact add_instruction g.pc s.armInstructionCount
      · rw [execAll_append]
        exact hheld'
    · rw [hcompiler]
      exact hmapped'

/-- The entry of the last instruction of a block of the subset. -/
theorem isEnd_metadata (hgenerated : input.table.Generated) (hlast : isEnd last = true) {w : BitVec 32}
    (hdecode : A64.decode w = some last) :
    ∃ metadata, balDecodeArm64 input.table w = some metadata ∧ metadata.outcome ≠ .continues ∧
      ∀ flags, isTrapped flags metadata = false := by
  by_cases hexit : isExit last = true
  · obtain ⟨metadata, outcome, hmetadata, rfl, huntrapped, hstops, -⟩ :=
      isExit_plan (r := .reset) hgenerated hexit hdecode
    exact ⟨metadata, hmetadata, hstops, huntrapped⟩
  · cases last with
    | branchCond imm19 cond =>
        exact ⟨_, decode_branchCond hgenerated hdecode, by decide, isTrapped_branchCond⟩
    | _ => exact absurd hlast hexit

namespace IntegerBlock

theorem last_word (hblock : IntegerBlock input start body last) :
    A64.decode (input.memory.word (start + BitVec.ofNat 64 (4 * body.length))) = some last :=
  hblock.words (by simp)

theorem guestSequence (hblock : IntegerBlock input start body last)
    (hgenerated : input.table.Generated) (hclass : ∀ i ∈ body, inClass i = true) :
    ∃ lastMetadata, GuestSequence input start inClass body lastMetadata := by
  obtain ⟨metadata, hmetadata, hstops, huntrapped⟩ :=
    isEnd_metadata hgenerated hblock.last_end hblock.last_word
  exact ⟨metadata,
    { words := fun hget => hblock.words (by
        rw [List.getElem?_append_left (List.getElem?_eq_some_iff.mp hget).1]
        exact hget)
      inClass := hclass
      length_le := hblock.length_le
      decodes := hmetadata
      untrapped := huntrapped _
      ends := hstops }⟩

/-- The class of a block of the subset, and the registers it stays within. -/
theorem simulates (hblock : IntegerBlock input start body last) (hgenerated : input.table.Generated)
    (access : A64.TagAccess) :
    ∃ touched inClass, (∀ i ∈ body, inClass i = true) ∧
      SimulatesWithin input.table touched inClass fun g i => i.exec access g := by
  rcases hblock.body_integer with himmediate | ⟨touched, hcard, hinteger⟩
  · exact ⟨Finset.univ, isImmediate, himmediate,
      SimulatesWithin.of_simulates (isImmediate_simulates hgenerated access)⟩
  · refine ⟨touched, _, fun i hi => ?_, isInteger_simulates hgenerated access hcard⟩
    simp only [Bool.and_eq_true, decide_eq_true_eq]
    exact hinteger i hi

end IntegerBlock

/-- **A block of the integer subset**, called at its entry in a buffer that begins like the
compiler's, returns with what the A64 instructions leave in sequence. -/
theorem Succeeds.integerRun (h : Succeeds input c start t entry) (hreachable : c.Reachable)
    (hgenerated : input.table.Generated) (hblock : IntegerBlock input start body last)
    {code : Nat → Byte}
    (hsame : ∀ k < t.compiler.assembler.offset, code k = t.compiler.assembler.buffer k)
    (access : A64.TagAccess) {s : State} {cpu : Address} (hcall : Call s cpu entry) :
    ∃ fuel u, runToRet code fuel s = some u ∧
      A64.execAll access { cpuState s.memory cpu with pc := start } (body ++ [last]) =
        some (cpuState u.memory cpu) := by
  obtain ⟨sf, s0, metadata, ending, hfinal, hended⟩ := h.ended
  obtain ⟨touched, inClass, hclass, hsimulates⟩ := hblock.simulates hgenerated access
  obtain ⟨lastMetadata, hsequence⟩ := hblock.guestSequence hgenerated hclass
  obtain ⟨rfl, rfl, haddress, js, hcode, hsimulated⟩ := h.simulatedWithin hsimulates hsequence hended
  have hword := hblock.last_word
  rw [← haddress] at hword
  obtain ⟨g, hbody, hpc, hholds⟩ := hsimulated (hcall.holds.withPc start)
  have hpc' : g.pc = s0.guestAddress := hpc.trans haddress.symm
  have hrun : ∃ fuel u, runToRet code fuel s = some u ∧
      last.exec access g = some (cpuState u.memory cpu) := by
    by_cases hexit : isExit last = true
    · exact h.exitRun hreachable hgenerated hexit hfinal hended hword hcode hsame access hcall hholds
        hpc'
    · have hlast := hblock.last_end
      cases last with
      | branchCond imm19 cond =>
          have hdecode := hended.decodes
          rw [decode_branchCond hgenerated hword] at hdecode
          cases hdecode
          obtain ⟨fuel, u, hrun, hexec, -⟩ := h.branchRun hreachable hfinal hended hword
            (of_decide_eq_true hlast) hcode hsame access hcall hholds hpc'
          exact ⟨fuel, u, hrun, hexec⟩
      | _ => exact absurd hlast hexit
  obtain ⟨fuel, u, hrun, hlast⟩ := hrun
  refine ⟨fuel, u, hrun, ?_⟩
  rw [A64.execAll_append, A64.execAll_eq_foldlM access _ body, hbody]
  simp only [Option.bind_some, A64.execAll, hlast]

theorem Succeeds.integerRuns (h : Succeeds input c start t entry) (hreachable : c.Reachable)
    (hgenerated : input.table.Generated) (hblock : IntegerBlock input start body last)
    {code : Nat → Byte}
    (hsame : ∀ k < t.compiler.assembler.offset, code k = t.compiler.assembler.buffer k)
    {before after : A64.State} (hpc : before.pc = start) (hruns : RunsBlock code entry before after)
    (access : A64.TagAccess) : A64.execAll access before (body ++ [last]) = some after := by
  obtain ⟨s, u, cpu, fuel, hcall, rfl, hrun, rfl⟩ := hruns
  obtain ⟨fuel', u', hrun', hexec⟩ := h.integerRun hreachable hgenerated hblock hsame access hcall
  obtain rfl := runToRet_unique hrun hrun'
  have hstate : { cpuState s.memory cpu with pc := start } = cpuState s.memory cpu := by
    rw [← hpc]
  rwa [hstate] at hexec

end Blocks

end Ballistic
