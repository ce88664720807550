import Ballistic.Proof.Decoding
import Ballistic.Proof.Settling

/-!
# Simulation of the immediate subset

Blocks of 64-bit additions and subtractions of immediates and of wide moves, ended by a return or a
branch: whatever the translation evicts, loads and flushes on the way, running the block does to the
CPU record what the A64 instructions do in sequence.
-/

namespace Ballistic

open Machine Machine.X86

section Instructions

variable {table : DecoderTable} {w : BitVec 32} {r : RegisterAllocator}

/-! ### Plans by instruction class -/

/-- The second operand of an addition or subtraction of an immediate. -/
def immediateOperand (sh : Bool) (imm12 : BitVec 12) : BitVec 64 :=
  if sh then imm12.setWidth 64 <<< 12 else imm12.setWidth 64

theorem immediateOperand_lt (sh : Bool) (imm12 : BitVec 12) :
    (immediateOperand sh imm12).toNat < 2 ^ 31 := by
  have hlt := imm12.isLt
  unfold immediateOperand
  cases sh with
  | false =>
      simp only [Bool.false_eq_true, if_false, BitVec.toNat_setWidth]
      omega
  | true =>
      simp only [if_true, BitVec.toNat_shiftLeft, BitVec.toNat_setWidth, Nat.shiftLeft_eq]
      omega

theorem plan_addSubImm (hgenerated : table.Generated) {sf op s sh : Bool} {imm12 : BitVec 12}
    {rn rd : A64.Register} (h : A64.decode w = some (.addSubImm sf op s sh imm12 rn rd)) :
    r.plan (addSubImmMetadata sf op s) w =
      r.planAddSubImm s op rd rn (immediateOperand sh imm12) := by
  obtain ⟨-, hrd, hrn, himm, hsh⟩ := decode_addSubImm hgenerated h
  have hsets : Compiler.isSettingFlags (addSubImmMetadata sf op s) = s := by
    cases op <;> cases s <;> rfl
  have hvalue : BitVec.ofNat 64 imm12.toNat <<< (if sh.toNat = 1 then 12 else 0) =
      immediateOperand sh imm12 := by
    rw [BitVec.ofNat_toNat]
    cases sh with
    | false => exact BitVec.shiftLeft_zero _
    | true => rfl
  simp only [RegisterAllocator.plan, hrd, hrn, himm, hsh, hsets, hvalue]
  cases op <;> rfl

/-- The operand size as a mask. -/
theorem sized_eq_and (sf : Bool) (v : BitVec 64) :
    A64.sized sf v =
      v &&& if registerType sf = .register32 then 0xFFFFFFFF else 0xFFFFFFFFFFFFFFFF := by
  cases sf with
  | true =>
      change v = v &&& BitVec.allOnes 64
      rw [BitVec.and_allOnes]
  | false =>
      change (v.setWidth 32).setWidth 64 = v &&& 0xFFFFFFFF#64
      apply BitVec.eq_of_toNat_eq
      have hmask : (0xFFFFFFFF#64).toNat = 2 ^ 32 - 1 := rfl
      rw [BitVec.toNat_and, hmask, Nat.and_two_pow_sub_one_eq_mod, BitVec.toNat_setWidth,
        BitVec.toNat_setWidth, Nat.mod_eq_of_lt (by omega)]

theorem moveWide_opc : ∀ opc : BitVec 2, opc ≠ 1 → opc = 0 ∨ opc = 2 ∨ opc = 3 := by decide

theorem plan_moveWide (hgenerated : table.Generated) {sf : Bool} {opc hw : BitVec 2}
    {imm16 : BitVec 16} {rd : A64.Register}
    (h : A64.decode w = some (.moveWide sf opc hw imm16 rd)) (hopc : opc ≠ 1)
    (hhw : (sf || !hw.getLsbD 1) = true) :
    ∃ skipLoad macros, r.plan (moveWideMetadata sf opc) w = r.planUpdate rd skipLoad macros ∧
      IsUpdate (A64.moveWideValue sf opc hw imm16) macros ∧
      (skipLoad = true → ∀ v v',
        A64.moveWideValue sf opc hw imm16 v = A64.moveWideValue sf opc hw imm16 v') := by
  obtain ⟨-, hrd, himm, hshift⟩ := decode_moveWide hgenerated h hopc hhw
  have hplan : r.plan (moveWideMetadata sf opc) w =
      r.planUpdate rd (Compiler.movImmediateMacros (moveWideMetadata sf opc) w).1
        (Compiler.movImmediateMacros (moveWideMetadata sf opc) w).2 := by
    simp only [RegisterAllocator.plan, hrd]
    rfl
  refine ⟨_, _, hplan, ?_⟩
  have htype : ((moveWideMetadata sf opc).operand 0).type = registerType sf := rfl
  have hposition : 16 * hw.toNat = hw.toNat * 16 := Nat.mul_comm _ _
  simp only [Compiler.movImmediateMacros, himm, hshift, BitVec.ofNat_toNat, htype]
  rcases moveWide_opc opc hopc with rfl | rfl | rfl
  · have hvalue : A64.moveWideValue sf 0 hw imm16 = fun _ =>
        ~~~(imm16.setWidth 64 <<< (hw.toNat * 16)) &&&
          if registerType sf = .register32 then 0xFFFFFFFF else 0xFFFFFFFFFFFFFFFF := by
      funext v
      simp [A64.moveWideValue, sized_eq_and, hposition]
    rw [hvalue]
    exact ⟨isUpdate_movImmediate _, fun _ _ _ => rfl⟩
  · have hvalue : A64.moveWideValue sf 2 hw imm16 = fun _ =>
        imm16.setWidth 64 <<< (hw.toNat * 16) &&&
          if registerType sf = .register32 then 0xFFFFFFFF else 0xFFFFFFFFFFFFFFFF := by
      funext v
      simp [A64.moveWideValue, sized_eq_and, hposition]
    rw [hvalue]
    exact ⟨isUpdate_movImmediate _, fun _ _ _ => rfl⟩
  · have hvalue : A64.moveWideValue sf 3 hw imm16 = fun v =>
        v &&& (~~~(0xFFFF#64 <<< (hw.toNat * 16)) &&&
          if registerType sf = .register32 then 0xFFFFFFFF else 0xFFFFFFFFFFFFFFFF) |||
        (imm16.setWidth 64 <<< (hw.toNat * 16) &&&
          if registerType sf = .register32 then 0xFFFFFFFF else 0xFFFFFFFFFFFFFFFF) := by
      funext v
      simp only [A64.moveWideValue, sized_eq_and, hposition]
      rw [if_neg (by decide), if_pos trivial]
      generalize (if registerType sf = .register32 then 0xFFFFFFFF else 0xFFFFFFFFFFFFFFFF) = mask
      rw [← BitVec.and_assoc]
      ext i hi
      simp only [BitVec.getElem_and, BitVec.getElem_or]
      rw [Bool.and_or_distrib_right]
    rw [hvalue]
    exact ⟨isUpdate_insert _ _, fun h => by cases h⟩

theorem outcome_addSubImm (sf op s : Bool) : (addSubImmMetadata sf op s).outcome = .continues := by
  cases sf <;> cases op <;> rfl

theorem isTrapped_addSubImm (flags : EngineFlags) (sf op s : Bool) :
    isTrapped flags (addSubImmMetadata sf op s) = false := by
  cases op <;> cases s <;> simp [isTrapped, addSubImmMetadata, addSubName, Metadata.nameStarts]

theorem outcome_moveWide (sf : Bool) {opc : BitVec 2} (hopc : opc ≠ 1) :
    (moveWideMetadata sf opc).outcome = .continues := by
  rcases moveWide_opc opc hopc with rfl | rfl | rfl <;> rfl

theorem isTrapped_moveWide (flags : EngineFlags) (sf : Bool) (opc : BitVec 2) :
    isTrapped flags (moveWideMetadata sf opc) = false := by
  simp [isTrapped, moveWideMetadata, Metadata.nameStarts]

theorem isTrapped_branch (flags : EngineFlags) : isTrapped flags branchMetadata = false := by
  simp [isTrapped, branchMetadata, Metadata.nameStarts]

theorem isTrapped_branchCond (flags : EngineFlags) : isTrapped flags branchCondMetadata = false := by
  simp [isTrapped, branchCondMetadata, Metadata.nameStarts]

theorem isTrapped_ret (flags : EngineFlags) : isTrapped flags retMetadata = false := by
  simp [isTrapped, retMetadata, Metadata.nameStarts]

/-! ### One instruction -/

/-- The decoder finds an entry for every instruction of a class at which a block goes on, and the plan
for it does to the guest what `step` does. -/
def Simulates (table : DecoderTable) (inClass : A64.Instr → Bool)
    (step : A64.State → A64.Instr → Option A64.State) : Prop :=
  ∀ {w : BitVec 32} {r : RegisterAllocator} {i : A64.Instr}, inClass i = true →
    A64.decode w = some i →
    ∃ metadata, balDecodeArm64 table w = some metadata ∧ metadata.outcome = .continues ∧
      (∀ flags, isTrapped flags metadata = false) ∧
      ∀ {p : Plan}, r.plan metadata w = some p →
        ∀ {base : Address} {s : State} {g : A64.State}, r.Wf → Holds base r s g ∅ →
          ∃ g', step g i = some g' ∧ g'.pc = g.pc + 4 ∧
            Holds base p.allocator (execAll s (instrsOf p.macros)) g' ∅

/-- The decoder finds an entry for every instruction of a class, at which a block goes on. -/
def GoesOn (table : DecoderTable) (inClass : A64.Instr → Bool) : Prop :=
  ∀ {w : BitVec 32} {i : A64.Instr}, inClass i = true → A64.decode w = some i →
    ∃ metadata, balDecodeArm64 table w = some metadata ∧ metadata.outcome = .continues ∧
      ∀ flags, isTrapped flags metadata = false

theorem Simulates.goesOn {inClass : A64.Instr → Bool}
    {step : A64.State → A64.Instr → Option A64.State} (h : Simulates table inClass step) :
    GoesOn table inClass := by
  intro w i hclass hdecode
  obtain ⟨metadata, hmetadata, houtcome, huntrapped, -⟩ := h (r := .reset) hclass hdecode
  exact ⟨metadata, hmetadata, houtcome, huntrapped⟩

/-- Additions and subtractions of immediates and wide moves, whatever their registers. -/
def isSlotImmediate : A64.Instr → Bool
  | .addSubImm sf _ _ _ _ _ _ => sf
  | .moveWide sf opc hw _ _ => opc != 1 && (sf || !hw.getLsbD 1)
  | _ => false

/-- The instructions as the compiler translates them: it has one place for register 31, so a wide move
changes the stack pointer. -/
def slotExec (access : A64.TagAccess) (s : A64.State) : A64.Instr → Option A64.State
  | .moveWide sf opc hw imm16 rd =>
      if opc = 1 ∨ (!sf && hw.getLsbD 1) then none
      else some (s.setX rd (A64.moveWideValue sf opc hw imm16 (s.x rd))).advance
  | i => i.exec access s

theorem isSlotImmediate_simulates (hgenerated : table.Generated) (access : A64.TagAccess) :
    Simulates table isSlotImmediate (slotExec access) := by
  intro w r i h hdecode
  cases i with
  | addSubImm sf op s sh imm12 rn rd =>
      obtain rfl : sf = true := h
      refine ⟨_, (decode_addSubImm hgenerated hdecode).1, outcome_addSubImm true op s,
        fun flags => isTrapped_addSubImm flags true op s, ?_⟩
      · intro p hplan base host g hwf hholds
        rw [plan_addSubImm hgenerated hdecode] at hplan
        obtain ⟨-, hnext⟩ := hholds.planAddSubImm hwf (immediateOperand_lt sh imm12) hplan
        refine ⟨_, rfl, ?_, hnext.withPc _⟩
        exact congrArg (· + 4) (A64.State.writeSum_pc _ _ _ _)
  | moveWide sf opc hw imm16 rd =>
      simp only [isSlotImmediate, Bool.and_eq_true, bne_iff_ne] at h
      obtain ⟨hopc, hhw⟩ := h
      obtain ⟨skipLoad, macros, hupdate, hisUpdate, hskip⟩ :=
        plan_moveWide (r := r) hgenerated hdecode hopc hhw
      refine ⟨_, (decode_moveWide hgenerated hdecode hopc hhw).1, outcome_moveWide sf hopc,
        fun flags => isTrapped_moveWide flags sf opc, ?_⟩
      · intro p hplan base host g hwf hholds
        rw [hupdate] at hplan
        obtain ⟨-, hnext⟩ := hholds.planUpdate hwf hisUpdate hskip hplan
        have hdefined : ¬(opc = 1 ∨ (!sf && hw.getLsbD 1) = true) := by
          rw [not_or]
          refine ⟨hopc, ?_⟩
          cases sf <;> simp_all
        exact ⟨_, if_neg hdefined, rfl, hnext.withPc _⟩
  | _ => exact absurd h (by simp [isSlotImmediate])

/-- The instructions of the immediate subset. -/
def isImmediate : A64.Instr → Bool
  | .addSubImm sf _ _ _ _ _ _ => sf
  | .moveWide sf opc hw _ rd => opc != 1 && (sf || !hw.getLsbD 1) && rd != 31
  | _ => false

theorem isSlotImmediate_of_isImmediate {i : A64.Instr} (h : isImmediate i = true) :
    isSlotImmediate i = true := by
  cases i with
  | addSubImm => exact h
  | moveWide =>
      simp only [isImmediate, Bool.and_eq_true] at h
      simpa only [isSlotImmediate, Bool.and_eq_true] using h.1
  | _ => exact absurd h (by simp [isImmediate])

theorem slotExec_eq (access : A64.TagAccess) (g : A64.State) {i : A64.Instr}
    (h : isImmediate i = true) : slotExec access g i = i.exec access g := by
  cases i with
  | moveWide sf opc hw imm16 rd =>
      simp only [isImmediate, Bool.and_eq_true, bne_iff_ne] at h
      simp only [slotExec, A64.Instr.exec, A64.State.general, A64.State.setGeneral, if_neg h.2]
  | _ => rfl

/-- Where register 31 is no destination of a wide move, the translation of the subset is right. -/
theorem isImmediate_simulates (hgenerated : table.Generated) (access : A64.TagAccess) :
    Simulates table isImmediate fun g i => i.exec access g := by
  intro w r i h hdecode
  obtain ⟨metadata, hmetadata, houtcome, huntrapped, hstep⟩ :=
    isSlotImmediate_simulates (r := r) hgenerated access (isSlotImmediate_of_isImmediate h) hdecode
  refine ⟨metadata, hmetadata, houtcome, huntrapped, fun hplan base host g hwf hholds => ?_⟩
  obtain ⟨g', hexec, hnext⟩ := hstep hplan hwf hholds
  exact ⟨g', (slotExec_eq access g h).symm.trans hexec, hnext⟩

/-! ### The last instruction -/

/-- The instructions that end a block of the subset. -/
def isExit : A64.Instr → Bool
  | .ret rn => rn != 31
  | .branch _ => true
  | _ => false

theorem Holds.planReturn {base : Address} {s : State} {g : A64.State} (hwf : r.Wf)
    (h : Holds base r s g ∅) {rn : Fin 32} {p : Plan} (hplan : r.planReturn rn = some p) :
    Holds base p.allocator (execAll s (instrsOf p.macros)) g ∅ ∧
      (execAll s (instrsOf p.macros)).memory.read64 (above base offsetPc) = g.x rn := by
  obtain ⟨n, hn, rfl⟩ := Option.map_eq_some_iff.mp hplan
  obtain ⟨-, _, hmap⟩ := RegisterAllocator.allocate_spec hwf hn
  obtain ⟨hholds, -, -⟩ := h.allocate hwf hn
  simp only [Bool.false_eq_true, if_false] at hholds
  have hvalue := hholds.mapped rn (by simp) _ hmap
  simp only [instrsOf_append, execAll_append]
  generalize execAll s (instrsOf n.macros) = s' at hholds hvalue
  have haddress : s'.frameAddress ((BitVec.ofNat 64 offsetPc).setWidth 32) = above base offsetPc := by
    rw [frameAddress_offset s' (by decide), hholds.rbp]
  simp only [instrsOf_cons, instrsOf_nil, instrs_storeMacro, List.append_nil, execAll_cons,
    execAll_nil, Instr.exec, haddress]
  refine ⟨hholds.write64 (by decide) (.inl (by decide)) (by decide) _ s'.flags, ?_⟩
  rw [Memory.read64_write64_self, hvalue]

/-- What the last instruction of a block of the subset does. -/
theorem isExit_plan (hgenerated : table.Generated) {i : A64.Instr} (h : isExit i = true)
    (hdecode : A64.decode w = some i) :
    ∃ metadata outcome, balDecodeArm64 table w = some metadata ∧ metadata.outcome = outcome ∧
      (∀ flags, isTrapped flags metadata = false) ∧ outcome ≠ .continues ∧ outcome ≠ .branches ∧
      ∀ {p : Plan}, r.endPlan metadata w (.opcode outcome) = some p →
        ∀ {base : Address} {s : State} {g : A64.State} (access : A64.TagAccess) (count : Nat)
          (flags : EngineFlags), r.Wf → Holds base r s g ∅ →
          i.exec access g = some (Ballistic.cpuState (execAll (execAll s (instrsOf p.macros))
            (Compiler.tailCode p.allocator (endAddress metadata w g.pc (.opcode outcome))
              (decide (Ending.opcode outcome = .opcode .returns)) count flags)).memory base) := by
  cases i with
  | ret rn =>
      simp only [isExit, bne_iff_ne] at h
      obtain ⟨hmetadata, hrn⟩ := decode_ret hgenerated hdecode
      refine ⟨_, _, hmetadata, rfl, isTrapped_ret, by decide, by decide, ?_⟩
      intro p hplan base s g access count flags hwf hholds
      have hreturn : r.planReturn rn = some p := by rw [← hrn]; exact hplan
      obtain ⟨hnext, hpc⟩ := hholds.planReturn hwf hreturn
      rw [hnext.tail (RegisterAllocator.planReturn_safe hwf hreturn).wf]
      simp only [hpc, A64.Instr.exec, A64.State.general, if_neg h]
      rfl
  | branch imm26 =>
      have hmetadata := decode_branch hgenerated hdecode
      refine ⟨_, _, hmetadata, rfl, isTrapped_branch, by decide, by decide, ?_⟩
      intro p hplan base s g access count flags hwf hholds
      cases hplan
      rw [instrsOf_nil, execAll_nil, hholds.tail hwf]
      have htarget : endAddress branchMetadata w g.pc (.opcode branchMetadata.outcome) =
          g.pc + (imm26 ++ 0#2).signExtend 64 := by
        rw [← branchOffset_branch hdecode]
        rfl
      rw [htarget]
      rfl
  | _ => exact absurd h (by simp [isExit])

end Instructions

/-! ### Blocks -/

/-- The guest memory holds the instructions `body` and then `last` from `start` on, and the limit
leaves room for them. -/
structure GuestBlock (input : TranslateInput) (start : Address) (body : List A64.Instr)
    (last : A64.Instr) : Prop where
  words : ∀ {k i}, (body ++ [last])[k]? = some i →
    A64.decode (input.memory.word (start + BitVec.ofNat 64 (4 * k))) = some i
  length_le : body.length + 1 ≤ input.maxInstructions
  body_immediate : ∀ i ∈ body, isImmediate i = true
  last_exit : isExit last = true

section Blocks

variable {input : TranslateInput} {c : Compiler} {start : Address} {t : Translation} {entry : Nat}
  {body : List A64.Instr} {last : A64.Instr}

theorem add_instruction (a : Address) (n : Nat) :
    a + BitVec.ofNat 64 (4 * n) + 4 = a + BitVec.ofNat 64 (4 * (n + 1)) := by
  rw [BitVec.add_assoc, Nat.mul_add, BitVec.ofNat_add]
  rfl

/-- The guest memory holds the instructions `body` of a class from `start` on, and behind them an
instruction with the entry `last`, which ends the block. -/
structure GuestSequence (input : TranslateInput) (start : Address) (inClass : A64.Instr → Bool)
    (body : List A64.Instr) (last : Metadata) : Prop where
  words : ∀ {k i}, body[k]? = some i →
    A64.decode (input.memory.word (start + BitVec.ofNat 64 (4 * k))) = some i
  inClass : ∀ i ∈ body, inClass i = true
  length_le : body.length + 1 ≤ input.maxInstructions
  decodes : balDecodeArm64 input.table
    (input.memory.word (start + BitVec.ofNat 64 (4 * body.length))) = some last
  untrapped : isTrapped input.engineFlags last = false
  ends : last.outcome ≠ .continues

/-- The block up to a point: the instructions before it were translated to code that does what `step`
does. -/
structure SimulatedUpTo (step : A64.State → A64.Instr → Option A64.State) (c : Compiler)
    (start : Address) (body : List A64.Instr) (s : LoopState) (js : List Instr) : Prop where
  code : CodeUpTo c start s js
  simulates : ∀ {base : Address} {host : State} {g : A64.State}, Holds base .reset host g ∅ →
    ∃ g', (body.take s.armInstructionCount).foldlM step g = some g' ∧
      g'.pc = g.pc + BitVec.ofNat 64 (4 * s.armInstructionCount) ∧
      Holds base s.compiler.allocator (execAll host js) g' ∅

section Sequences

variable {inClass : A64.Instr → Bool} {step : A64.State → A64.Instr → Option A64.State}
  {lastMetadata : Metadata}

theorem GuestSequence.word (hblock : GuestSequence input start inClass body lastMetadata) {n : Nat}
    (hn : n < body.length) :
    A64.decode (input.memory.word (start + BitVec.ofNat 64 (4 * n))) = some body[n] :=
  hblock.words (List.getElem?_eq_getElem hn)

/-- **Induction along a sequence.** A property of the local variables that holds at the start and that
every instruction of the sequence keeps. -/
theorem Succeeds.sequenceInduction (h : Succeeds input c start t entry)
    (hblock : GuestSequence input start inClass body lastMetadata) {P : LoopState → Prop}
    (hstart : P (startState c start))
    (hnext : ∀ {s s' metadata plan} (hn : s.armInstructionCount < body.length), P s →
      s.guestAddress = start + BitVec.ofNat 64 (4 * s.armInstructionCount) →
      A64.decode (input.memory.word s.guestAddress) = some body[s.armInstructionCount] →
      balDecodeArm64 input.table (input.memory.word s.guestAddress) = some metadata →
      s.compiler.allocator.plan metadata (input.memory.word s.guestAddress) = some plan →
      (s.compiler.apply plan).Ok → s'.compiler = s.compiler.apply plan →
      s'.armInstructionCount = s.armInstructionCount + 1 → P s')
    {p : LoopPoint} {s : LoopState} (hreach : Reaches input c start p s)
    (hrunning : Running input start p s) :
    P s ∧ s.guestAddress = start + BitVec.ofNat 64 (4 * s.armInstructionCount) ∧
      s.armInstructionCount ≤ body.length := by
  refine h.induction (P := fun s => P s ∧
    s.guestAddress = start + BitVec.ofNat 64 (4 * s.armInstructionCount) ∧
      s.armInstructionCount ≤ body.length) ⟨hstart, ?_, Nat.zero_le _⟩ ?_ hreach hrunning
  · change start = start + 0
    simp
  · intro i limit s s' metadata plan _ _ hup _ hdecode hmore hplan hok hcounts
    obtain ⟨hs, haddress, hle⟩ := hup
    have hcompiler : s'.compiler = s.compiler.apply plan := hcounts.eq.1
    have hcount : s'.armInstructionCount = s.armInstructionCount + 1 := hcounts.count_eq
    -- The block goes on here, so this is not the last instruction yet.
    have hbody : s.armInstructionCount < body.length := by
      by_contra hlast
      rw [haddress, Nat.le_antisymm hle (Nat.le_of_not_lt hlast), hblock.decodes] at hdecode
      cases hdecode
      exact hblock.ends (endingOf_none hmore).2.1
    have hword := hblock.word hbody
    rw [← haddress] at hword
    refine ⟨hnext hbody hs haddress hword hdecode hplan hok hcompiler hcount, ?_, ?_⟩
    · change s.guestAddress + 4 = start + BitVec.ofNat 64 (4 * s'.armInstructionCount)
      rw [haddress, hcount]
      exact add_instruction start s.armInstructionCount
    · change s'.armInstructionCount ≤ body.length
      rw [hcount]
      exact hbody

/-- The end of a sequence: the block stops at the instruction behind it. -/
theorem Succeeds.endsSequence (h : Succeeds input c start t entry) (hgoesOn : GoesOn input.table inClass)
    (hblock : GuestSequence input start inClass body lastMetadata) {s s0 : LoopState}
    {metadata : Metadata} {ending : Ending} (hended : Ended input c start s s0 metadata ending) :
    metadata = lastMetadata ∧ ending = .opcode lastMetadata.outcome ∧
      s0.guestAddress = start + BitVec.ofNat 64 (4 * body.length) ∧
      s0.armInstructionCount = body.length := by
  obtain ⟨i, limit, hreach, hrunning, hin, hending⟩ := hended.before
  obtain ⟨-, haddress, hle⟩ :=
    h.sequenceInduction hblock (P := fun _ => True) trivial (by simp) hreach hrunning
  have hplace := hreach.place_le rfl
  have hcount : s0.armInstructionCount = body.length := by
    refine Nat.le_antisymm hle (Nat.le_of_not_lt fun hbody => ?_)
    have hword := hblock.word hbody
    rw [← haddress] at hword
    obtain ⟨metadata', hmetadata, houtcome, huntrapped⟩ :=
      hgoesOn (hblock.inClass _ (List.getElem_mem hbody)) hword
    rw [hended.decodes] at hmetadata
    cases hmetadata
    have hlength := hblock.length_le
    rw [endingOf, huntrapped, if_neg (by simp), if_neg (by rw [houtcome]; simp),
      if_neg (by omega)] at hending
    cases hending
  rw [hcount] at haddress
  have hmetadata := hended.decodes
  rw [haddress, hblock.decodes] at hmetadata
  cases hmetadata
  rw [endingOf, hblock.untrapped, if_neg (by simp), if_pos hblock.ends] at hending
  exact ⟨rfl, (Option.some.inj hending).symm, haddress, hcount⟩

theorem Succeeds.simulatedUpTo (h : Succeeds input c start t entry)
    (hsimulates : Simulates input.table inClass step)
    (hblock : GuestSequence input start inClass body lastMetadata) {p : LoopPoint} {s : LoopState}
    (hreach : Reaches input c start p s) (hrunning : Running input start p s) :
    ∃ js, SimulatedUpTo step c start body s js := by
  refine (h.sequenceInduction hblock (P := fun s => ∃ js, SimulatedUpTo step c start body s js) ?_ ?_
    hreach hrunning).1
  · refine ⟨[], ⟨RegisterAllocator.reset_wf, .refl _, by simp⟩, fun hholds => ⟨_, rfl, ?_, hholds⟩⟩
    exact (BitVec.add_zero _).symm
  · intro s s' metadata plan hbody hup _ hword hdecode hplan hok hcompiler hcount
    obtain ⟨js, hup⟩ := hup
    obtain ⟨metadata', hmetadata, -, -, hstep⟩ := hsimulates (r := s.compiler.allocator)
      (hblock.inClass _ (List.getElem_mem hbody)) hword
    rw [hdecode] at hmetadata
    cases hmetadata
    refine ⟨js ++ instrsOf plan.macros, hup.code.apply
      (RegisterAllocator.plan_safe hup.code.wf hplan) hok hcompiler, ?_⟩
    intro base host g hholds
    obtain ⟨g', hexec, hpc, hnext⟩ := hup.simulates hholds
    obtain ⟨g'', hexec', hpc', hnext'⟩ := hstep hplan hup.code.wf hnext
    rw [hcount, hcompiler]
    refine ⟨g'', ?_, ?_, ?_⟩
    · rw [List.take_add_one, List.getElem?_eq_getElem hbody, List.foldlM_append, hexec]
      simp [hexec']
    · rw [hpc', hpc]
      exact add_instruction g.pc s.armInstructionCount
    · rw [execAll_append]
      exact hnext'

/-- The end of a sequence: the block comes to its last instruction, with code for all before it. -/
theorem Succeeds.simulatedAll (h : Succeeds input c start t entry)
    (hsimulates : Simulates input.table inClass step)
    (hblock : GuestSequence input start inClass body lastMetadata) {s s0 : LoopState}
    {metadata : Metadata} {ending : Ending} (hended : Ended input c start s s0 metadata ending) :
    metadata = lastMetadata ∧ ending = .opcode lastMetadata.outcome ∧
      s0.guestAddress = start + BitVec.ofNat 64 (4 * body.length) ∧
      ∃ js, CodeUpTo c start s0 js ∧
        ∀ {base : Address} {host : State} {g : A64.State}, Holds base .reset host g ∅ →
          ∃ g', body.foldlM step g = some g' ∧
            g'.pc = g.pc + BitVec.ofNat 64 (4 * body.length) ∧
            Holds base s0.compiler.allocator (execAll host js) g' ∅ := by
  obtain ⟨hmetadata, hending, haddress, hcount⟩ := h.endsSequence hsimulates.goesOn hblock hended
  obtain ⟨i, limit, hreach, hrunning, -⟩ := hended.before
  obtain ⟨js, hup⟩ := h.simulatedUpTo hsimulates hblock hreach hrunning
  have hsimulated := @hup.simulates
  rw [hcount, List.take_length] at hsimulated
  exact ⟨hmetadata, hending, haddress, js, hup.code, hsimulated⟩

end Sequences

section Exits

variable {inClass : A64.Instr → Bool}

/-- A sequence that a return or a branch ends. -/
theorem guestSequence_exit (hgenerated : input.table.Generated)
    (hwords : ∀ {k i}, (body ++ [last])[k]? = some i →
      A64.decode (input.memory.word (start + BitVec.ofNat 64 (4 * k))) = some i)
    (hlength : body.length + 1 ≤ input.maxInstructions) (hclass : ∀ i ∈ body, inClass i = true)
    (hlast : isExit last = true) :
    ∃ lastMetadata, GuestSequence input start inClass body lastMetadata := by
  have hword := hwords (k := body.length) (i := last) (by simp)
  obtain ⟨lastMetadata, outcome, hmetadata, houtcome, huntrapped, hstops, -⟩ :=
    isExit_plan (r := .reset) hgenerated hlast hword
  exact ⟨lastMetadata,
    { words := fun hget => hwords (by
        rw [List.getElem?_append_left (List.getElem?_eq_some_iff.mp hget).1]
        exact hget)
      inClass := hclass
      length_le := hlength
      decodes := hmetadata
      untrapped := huntrapped _
      ends := by rwa [houtcome] }⟩

/-- What a run leaves of the guest that the host holds before a return or a branch. -/
theorem Succeeds.exitRun (h : Succeeds input c start t entry) (hreachable : c.Reachable)
    (hgenerated : input.table.Generated) (hlast : isExit last = true) {s s0 : LoopState}
    {metadata : Metadata} (hfinal : Final input c start t s)
    (hended : Ended input c start s s0 metadata (.opcode metadata.outcome))
    (hword : A64.decode (input.memory.word s0.guestAddress) = some last) {js : List Instr}
    (hcode : CodeUpTo c start s0 js) {code : Nat → Byte}
    (hsame : ∀ k < t.compiler.assembler.offset, code k = t.compiler.assembler.buffer k)
    (access : A64.TagAccess) {m : State} {cpu : Address} (hcall : Call m cpu entry) {g : A64.State}
    (hholds : Holds cpu s0.compiler.allocator (execAll (execAll m prologueCode) js) g ∅)
    (hpc : g.pc = s0.guestAddress) :
    ∃ fuel u, runToRet code fuel m = some u ∧ last.exec access g = some (cpuState u.memory cpu) := by
  obtain ⟨lastMetadata, outcome, hmetadata, houtcome, -, -, hstatic, hexit⟩ :=
    isExit_plan (r := s0.compiler.allocator) hgenerated hlast hword
  rw [hended.decodes] at hmetadata
  cases hmetadata
  rw [houtcome] at hended
  obtain ⟨p, is, hplan, hstraight, hexec⟩ :=
    h.straight hreachable.window hfinal hended (by simpa using hstatic) hcode
  obtain ⟨fuel, u, hrun, -, hmemory⟩ := (hstraight code hsame).run hcall
  refine ⟨fuel, u, hrun, ?_⟩
  have hlast := hexit hplan access s.armInstructionCount input.engineFlags hcode.wf hholds
  rw [hpc] at hlast
  rw [hmemory, hexec, execAll_append, execAll_append, hlast]

end Exits

/-- A block of the immediate subset at `entry` of any buffer that begins like the compiler's. -/
theorem Succeeds.simulates (h : Succeeds input c start t entry) (hreachable : c.Reachable)
    (hgenerated : input.table.Generated) (hblock : GuestBlock input start body last)
    {code : Nat → Byte}
    (hsame : ∀ k < t.compiler.assembler.offset, code k = t.compiler.assembler.buffer k)
    (access : A64.TagAccess) {s : State} {cpu : Address} (hcall : Call s cpu entry) :
    ∃ fuel u, runToRet code fuel s = some u ∧
      A64.execAll access { cpuState s.memory cpu with pc := start } (body ++ [last]) =
        some (cpuState u.memory cpu) := by
  obtain ⟨sf, s0, metadata, ending, hfinal, hended⟩ := h.ended
  obtain ⟨lastMetadata, hsequence⟩ := guestSequence_exit hgenerated hblock.words hblock.length_le
    hblock.body_immediate hblock.last_exit
  obtain ⟨rfl, rfl, haddress, js, hcode, hsimulated⟩ :=
    h.simulatedAll (isImmediate_simulates hgenerated access) hsequence hended
  have hword := hblock.words (k := body.length) (i := last) (by simp)
  rw [← haddress] at hword
  obtain ⟨g, hbody, hpc, hholds⟩ := hsimulated (hcall.holds.withPc start)
  obtain ⟨fuel, u, hrun, hlast⟩ := h.exitRun hreachable hgenerated hblock.last_exit hfinal hended
    hword hcode hsame access hcall hholds (hpc.trans haddress.symm)
  refine ⟨fuel, u, hrun, ?_⟩
  rw [A64.execAll_append, A64.execAll_eq_foldlM access _ body, hbody]
  simp only [Option.bind_some, A64.execAll, hlast]

/-- **Block simulation.** A block of the immediate subset, run on any CPU record, leaves in it what
the A64 instructions leave in sequence. -/
theorem blockSimulation (hreachable : c.Reachable) (hgenerated : input.table.Generated)
    (_hflags : input.engineFlags = 0) (hblock : GuestBlock input start body last)
    (h : Succeeds input c start t entry) (access : A64.TagAccess) {s : State} {cpu : Address}
    (hcall : Call s cpu entry) :
    ∃ fuel u, runToRet t.compiler.assembler.buffer fuel s = some u ∧
      A64.execAll access { cpuState s.memory cpu with pc := start } (body ++ [last]) =
        some (cpuState u.memory cpu) :=
  h.simulates hreachable hgenerated hblock (fun _ _ => rfl) access hcall

end Blocks

/-- The words of a block on fixed words are looked at one by one. -/
theorem decodes_of_forall {input : TranslateInput} {start : Address} {is : List A64.Instr}
    (h : ∀ k : Fin is.length,
      A64.decode (input.memory.word (start + BitVec.ofNat 64 (4 * k))) = some (is.get k))
    {k : Nat} {i : A64.Instr} (hk : is[k]? = some i) :
    A64.decode (input.memory.word (start + BitVec.ofNat 64 (4 * k))) = some i := by
  obtain ⟨hlt, rfl⟩ := List.getElem?_eq_some_iff.mp hk
  exact h ⟨k, hlt⟩

theorem guestBlock_add : GuestBlock (.ofWords 0x1000 [0x91000400, 0xD65F03C0] 8) 0x1000
    [.addSubImm true false false false 1 0 0] (.ret 30) where
  words := decodes_of_forall (by decide)
  length_le := by decide
  body_immediate := by decide
  last_exit := by decide

theorem blockSimulation_add : ∃ t fuel u,
    Succeeds (.ofWords 0x1000 [0x91000400, 0xD65F03C0] 8) (.fresh 256) 0x1000 t 0 ∧
      runToRet t.compiler.assembler.buffer fuel (someCall 0) = some u ∧
      A64.execAll ⟨false, 0⟩ { cpuState (someCall 0).memory 0 with pc := 0x1000 }
        ([.addSubImm true false false false 1 0 0] ++ [.ret 30]) = some (cpuState u.memory 0) := by
  obtain ⟨t, -, h⟩ := succeeds_of_eval (.ofWords 0x1000 [0x91000400, 0xD65F03C0] 8) (.fresh 256) 0x1000
    6 (show _ = some 0 by decide)
  obtain ⟨fuel, u, hrun, hstate⟩ := blockSimulation (Compiler.fresh_reachable (by decide))
    generatedTable_generated rfl guestBlock_add h ⟨false, 0⟩ (someCall_call 0)
  exact ⟨t, fuel, u, h, hrun, hstate⟩

end Ballistic
