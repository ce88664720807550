import Ballistic.Proof.Decoding
import Ballistic.Proof.OperandReads
import Ballistic.Proof.Residency
import Ballistic.Proof.Settling
import Mathlib.Data.Set.Card

/-!
# Instructions on two registers

A block without evictions (`RegisterAllocator.allocate_keeps`) finds both operands of an instruction
in their host registers. An addition or subtraction then copies the first operand into the
destination; where that is the host register of the second operand, the second operand is lost, and
the code adds or subtracts the first operand twice (`Holds.planAddSubReg`). A conjunction takes the
operand that is not the destination and is right whichever registers are the same (`Holds.planAnd`).
-/

namespace Ballistic

open Machine Machine.X86

section Plans

variable {base : Address} {r : RegisterAllocator} {s : State} {g : A64.State}
  {touched : Finset (Fin 32)}

theorem RegisterAllocator.planDestination_keeps (hwf : r.Wf) (hcard : touched.card ≤ 9)
    (hmapped : r.mapped ⊆ touched) {rd : Fin 32} {x86Rn : Reg} {discarded : Bool}
    (hrd : discarded = false → rd ∈ touched) {d : Allocated}
    (hplan : r.planDestination rd x86Rn discarded = some d) : r.Keeps d.allocator := by
  unfold RegisterAllocator.planDestination at hplan
  cases discarded with
  | true =>
      cases hplan
      exact .refl r
  | false =>
      obtain ⟨p, hp, rfl⟩ := Option.map_eq_some_iff.mp hplan
      exact (RegisterAllocator.allocate_keeps hwf hcard hmapped (hrd rfl) hp).1

/-- Both operands of an instruction keep the registers they are given. -/
theorem RegisterAllocator.allocate_both (hwf : r.Wf) (hcard : touched.card ≤ 9)
    (hmapped : r.mapped ⊆ touched) {rn rm : Fin 32} (hrn : rn ∈ touched) (hrm : rm ∈ touched)
    {n m : Allocated} (hn : r.allocate rn false = some n)
    (hm : n.allocator.allocate rm false = some m) :
    m.allocator.Wf ∧ m.allocator.mapped ⊆ touched ∧
      m.allocator.armToX86 rn = some n.register ∧ m.allocator.armToX86 rm = some m.register := by
  obtain ⟨hwfn, _, hnmap⟩ := allocate_spec hwf hn
  obtain ⟨hwfm, _, hmmap⟩ := allocate_spec hwfn hm
  obtain ⟨-, hnmapped⟩ := allocate_keeps hwf hcard hmapped hrn hn
  obtain ⟨hkeeps, hmmapped⟩ := allocate_keeps hwfn hcard hnmapped hrm hm
  exact ⟨hwfm, hmmapped, hkeeps _ _ hnmap, hmmap⟩

/-- **An addition or subtraction of registers.** The second operand is lost where it is also the
destination. -/
theorem Holds.planAddSubReg (hwf : r.Wf) (h : Holds base r s g ∅) (hcard : touched.card ≤ 9)
    (hmapped : r.mapped ⊆ touched) {rd rn rm : Fin 32} {setsFlags isSub : Bool} (hrn : rn ∈ touched)
    (hrm : rm ∈ touched) (hrd : (setsFlags && (rd : Nat) == 31) = false → rd ∈ touched)
    (hrm31 : rm ≠ 31) {p : Plan} (hplan : r.planAddSubReg setsFlags isSub rd rn rm = some p) :
    p.allocator.Wf ∧ Holds base p.allocator (execAll s (instrsOf p.macros))
      (g.writeSum setsFlags rd
        (A64.addSub isSub (g.x rn) (if rd = rm then g.x rn else g.x rm))) ∅ := by
  obtain ⟨n, m, d, hn, hm, hd, hwfp, hleft⟩ := h.planAddSubReg_sources hwf hplan
  obtain ⟨hwfm, hmmapped, hnmap, hmmap⟩ :=
    RegisterAllocator.allocate_both hwf hcard hmapped hrn hrm hn hm
  have hkeeps := RegisterAllocator.planDestination_keeps hwfm hcard hmmapped hrd hd
  have hfirst := firstSource_of_mapped hwfm hnmap hmmap
  have hsecond : secondSource rn rm n m d = if rd = rm then rn else rm := by
    rw [secondSource_of_mapped hwfm hd (hkeeps _ _ hmmap) hfirst]
    refine if_congr ⟨And.right, fun hsame => ⟨?_, hsame⟩⟩ rfl rfl
    have hne : (rm : Nat) ≠ 31 := fun heq => hrm31 (Fin.ext heq)
    rw [hsame]
    simp [hne]
  rw [hfirst, hsecond, apply_ite g.x] at hleft
  exact ⟨hwfp, hleft⟩

/-- **A conjunction of registers.** -/
theorem Holds.planAnd (hwf : r.Wf) (h : Holds base r s g ∅) (hcard : touched.card ≤ 9)
    (hmapped : r.mapped ⊆ touched) {rd rn rm : Fin 32} (hrn : rn ∈ touched) (hrm : rm ∈ touched)
    (hrd31 : rd ≠ 31) {p : Plan} (hplan : r.planAnd rd rn rm = some p) :
    p.allocator.Wf ∧ Holds base p.allocator (execAll s (instrsOf p.macros))
      (g.setX rd (g.x rn &&& g.x rm)) ∅ := by
  obtain ⟨n, m, d, hn, hm, hd, hwfp, hleft⟩ := h.planAnd_sources hwf hplan
  obtain ⟨hwfm, -, hnmap, hmmap⟩ :=
    RegisterAllocator.allocate_both hwf hcard hmapped hrn hrm hn hm
  rw [firstSource_of_mapped hwfm hnmap hmmap, if_neg hrd31] at hleft
  exact ⟨hwfp, hleft⟩

end Plans

/-! ### Instructions of a block -/

/-- The macros of a plan do to the guest in the host what the instruction does. -/
def Plan.Performs (p : Plan) (base : Address) (s : State) (access : A64.TagAccess) (i : A64.Instr)
    (g : A64.State) : Prop :=
  ∃ g', i.exec access g = some g' ∧ Holds base p.allocator (execAll s (instrsOf p.macros)) g' ∅

/-- What the macros leave decides whether they perform an instruction. -/
theorem Plan.performs_iff {p : Plan} {base : Address} {s : State} {access : A64.TagAccess}
    {i : A64.Instr} {g left result : A64.State} (hwf : p.allocator.Wf)
    (hleft : Holds base p.allocator (execAll s (instrsOf p.macros)) left ∅)
    (hexec : i.exec access g = some result) :
    p.Performs base s access i g ↔ left.SameRegisters result := by
  constructor
  · rintro ⟨g', hg', hholds⟩
    rw [hexec] at hg'
    cases hg'
    exact hleft.unique hwf hholds
  · intro hsame
    exact ⟨result, hexec, hleft.congr hsame⟩

section Entries

variable {table : DecoderTable} {w : BitVec 32} {r : RegisterAllocator}

theorem outcome_addSubShifted (sf op setsFlags : Bool) :
    (addSubShiftedMetadata sf op setsFlags).outcome = .continues := by
  cases sf <;> cases op <;> rfl

theorem isTrapped_addSubShifted (flags : EngineFlags) (sf op setsFlags : Bool) :
    isTrapped flags (addSubShiftedMetadata sf op setsFlags) = false := by
  cases op <;> cases setsFlags <;>
    simp [isTrapped, addSubShiftedMetadata, addSubName, Metadata.nameStarts]

theorem plan_addSubShifted (hgenerated : table.Generated) {sf op setsFlags : Bool}
    {shift : BitVec 2} {imm6 : BitVec 6} {rm rn rd : A64.Register}
    (h : A64.decode w = some (.addSubShifted sf op setsFlags shift rm imm6 rn rd)) :
    r.plan (addSubShiftedMetadata sf op setsFlags) w = r.planAddSubReg setsFlags op rd rn rm := by
  obtain ⟨-, hrd, hrn, -, hrm⟩ := decode_addSubShifted hgenerated h
  have hsets : Compiler.isSettingFlags (addSubShiftedMetadata sf op setsFlags) = setsFlags := by
    cases op <;> cases setsFlags <;> rfl
  have hregister : isRegister ((addSubShiftedMetadata sf op setsFlags).operand 3) = true := by
    cases sf <;> rfl
  simp only [RegisterAllocator.plan, hrd, hrn, hrm, hregister, hsets]
  cases op <;> rfl

theorem isTrapped_andShifted (flags : EngineFlags) (sf : Bool) :
    isTrapped flags (andShiftedMetadata sf) = false := by
  simp [isTrapped, andShiftedMetadata, Metadata.nameStarts]

theorem plan_andShifted (hgenerated : table.Generated) {sf : Bool} {shift : BitVec 2}
    {imm6 : BitVec 6} {rm rn rd : A64.Register}
    (h : A64.decode w = some (.logicalShifted sf 0 shift false rm imm6 rn rd)) :
    r.plan (andShiftedMetadata sf) w = r.planAnd rd rn rm := by
  obtain ⟨-, hrd, hrn, -, hrm⟩ := decode_andShifted hgenerated h
  rw [← hrd, ← hrn, ← hrm]
  rfl

end Entries

section Blocks

variable {input : TranslateInput} {c : Compiler} {start : Address} {t : Translation} {entry : Nat}
  {s : LoopState} {i : A64.Instr}

/-- The loops of a translation come to the instruction `i`, with the local variables `s`. -/
structure AtInstruction (input : TranslateInput) (c : Compiler) (start : Address) (s : LoopState)
    (i : A64.Instr) : Prop where
  reaches : ∃ k limit, Reaches input c start (.forTest k limit) s ∧ k < limit
  decodes : A64.decode (input.memory.word s.guestAddress) = some i

/-- **An instruction of a block that touches at most nine registers**: its plan, and a set of nine
registers that holds the mapped ones and the ones that the plan asks for. -/
theorem Succeeds.resident (h : Succeeds input c start t entry)
    (hnine : {a | Touches input c start a}.ncard ≤ 9) {k limit : Nat} {metadata : Metadata}
    (hreach : Reaches input c start (.forTest k limit) s) (hin : k < limit)
    (hdecode : balDecodeArm64 input.table (input.memory.word s.guestAddress) = some metadata)
    (huntrapped : isTrapped input.engineFlags metadata = false)
    (houtcome : metadata.outcome = .continues) :
    ∃ p, ∃ touched : Finset (Fin 32),
      s.compiler.allocator.plan metadata (input.memory.word s.guestAddress) = some p ∧
      s.translateOpcode metadata (input.memory.word s.guestAddress) =
        s.withCompiler (s.compiler.apply p) ∧
      s.compiler.allocator.Wf ∧ touched.card ≤ 9 ∧ s.compiler.allocator.mapped ⊆ touched ∧
      ∀ a : Fin 32, (a : Nat) ∈ RegisterAllocator.askedRegisters metadata
        (input.memory.word s.guestAddress) → a ∈ touched := by
  obtain ⟨p, hplan, hswitch⟩ := h.planned hreach hin hdecode huntrapped houtcome
  obtain ⟨hwf, htouched⟩ := h.mapped_touched hreach (h.runs hreach)
  have hfinite := Set.toFinite {a | Touches input c start a}
  refine ⟨p, hfinite.toFinset, hplan, hswitch, hwf, ?_, ?_, ?_⟩
  · rwa [← Set.ncard_eq_toFinset_card]
  · exact fun a ha => hfinite.mem_toFinset.mpr (htouched a ha)
  · exact fun a ha => hfinite.mem_toFinset.mpr ⟨k, limit, s, _, hreach, hin, hdecode, houtcome, ha⟩

theorem shiftRegSized_zero (sf : Bool) (shift : BitVec 2) (x : BitVec 64) :
    A64.shiftRegSized sf shift 0 x = A64.sized sf x := by
  have hshift : ∀ {n : Nat} (y : BitVec n), A64.shiftReg shift 0 y = y := by
    intro n y
    unfold A64.shiftReg
    split
    · exact BitVec.shiftLeft_zero y
    · split
      · exact BitVec.ushiftRight_zero y
      · split
        · exact BitVec.sshiftRight_zero
        · simp [BitVec.rotateRight, BitVec.rotateRightAux]
  unfold A64.shiftRegSized A64.sized
  split
  · exact hshift x
  · rw [hshift]

theorem LoopState.translateOpcode_addSubShifted (s : LoopState) (sf op setsFlags : Bool)
    (w : BitVec 32) :
    s.translateOpcode (addSubShiftedMetadata sf op setsFlags) w =
      s.withCompiler
        (s.compiler.translateAddSubReg (addSubShiftedMetadata sf op setsFlags) w op) := by
  have hregister : isRegister ((addSubShiftedMetadata sf op setsFlags).operand 3) = true := by
    cases sf <;> rfl
  cases op <;>
  · simp only [translateOpcode, translateAddSub, hregister, if_true]
    rfl

/-- What the code of an addition or subtraction of registers leaves in the host. -/
theorem Succeeds.addSubReg (h : Succeeds input c start t entry) (hgenerated : input.table.Generated)
    (hnine : {a | Touches input c start a}.ncard ≤ 9) {sf op setsFlags : Bool} {shift : BitVec 2}
    {rm rn rd : A64.Register}
    (hat : AtInstruction input c start s (.addSubShifted sf op setsFlags shift rm 0 rn rd))
    (hrm : rm ≠ 31) :
    ∃ p, s.translateOpcode (addSubShiftedMetadata sf op setsFlags)
        (input.memory.word s.guestAddress) = s.withCompiler (s.compiler.apply p) ∧
      ∀ {base : Address} {host : State} {g : A64.State},
        Holds base s.compiler.allocator host g ∅ →
        p.allocator.Wf ∧ Holds base p.allocator (execAll host (instrsOf p.macros))
          (g.writeSum setsFlags rd
            (A64.addSub op (g.x rn) (if rd = rm then g.x rn else g.x rm))) ∅ := by
  obtain ⟨⟨k, limit, hreach, hin⟩, hword⟩ := hat
  obtain ⟨hdecode, hrdOperand, hrnOperand, -, hrmOperand⟩ := decode_addSubShifted hgenerated hword
  have hsets : Compiler.isSettingFlags (addSubShiftedMetadata sf op setsFlags) = setsFlags := by
    cases op <;> cases setsFlags <;> rfl
  have hregister : isRegister ((addSubShiftedMetadata sf op setsFlags).operand 3) = true := by
    cases sf <;> rfl
  obtain ⟨p, touched, hplan, hswitch, hwf, hcard, hmapped, hasked⟩ :=
    h.resident hnine hreach hin hdecode (isTrapped_addSubShifted _ sf op setsFlags)
      (outcome_addSubShifted sf op setsFlags)
  have hasks : RegisterAllocator.askedRegisters (addSubShiftedMetadata sf op setsFlags)
      (input.memory.word s.guestAddress) =
      (rn : Nat) :: [(rm : Nat)] ++ if setsFlags && (rd : Nat) == 31 then [] else [(rd : Nat)] := by
    simp only [RegisterAllocator.askedRegisters, hrdOperand, hrnOperand, hrmOperand, hregister, hsets]
    cases op <;> rfl
  rw [hasks] at hasked
  rw [plan_addSubShifted hgenerated hword] at hplan
  exact ⟨p, hswitch, fun hholds => hholds.planAddSubReg hwf hcard hmapped (hasked rn (by simp))
    (hasked rm (by simp)) (fun hkept => hasked rd (by rw [hkept]; simp)) hrm hplan⟩

/-- The effect of an addition or subtraction of two general registers without a shift. -/
theorem exec_addSubShifted {sf op setsFlags : Bool} {shift : BitVec 2} {rm rn rd : A64.Register}
    (hshift : shift ≠ 3) (hrn : rn ≠ 31) (hrm : rm ≠ 31) (hrd : rd = 31 → setsFlags = true)
    (access : A64.TagAccess) (g : A64.State) :
    (A64.Instr.addSubShifted sf op setsFlags shift rm 0 rn rd).exec access g =
      some (g.writeSum setsFlags rd
        (A64.addSubSized sf op (g.x rn) (A64.sized sf (g.x rm)))).advance := by
  have hdefined : ¬(shift = 3 ∨ (!sf && BitVec.getLsbD (0 : BitVec 6) 5) = true) := by
    rw [not_or]
    exact ⟨hshift, by cases sf <;> decide⟩
  have hwrite : ∀ result, g.writeSumGeneral setsFlags rd result = g.writeSum setsFlags rd result := by
    intro result
    cases setsFlags with
    | true => rfl
    | false =>
        have hne : rd ≠ 31 := fun heq => by cases hrd heq
        simp [A64.State.writeSumGeneral, A64.State.writeSum, A64.State.setGeneral, hne]
  simp only [A64.Instr.exec]
  rw [if_neg hdefined, hwrite]
  simp only [A64.State.general, hrn, hrm, if_false]
  exact congrArg (fun y => some (g.writeSum setsFlags rd (A64.addSubSized sf op (g.x rn) y)).advance)
    (shiftRegSized_zero sf shift (g.x rm))

theorem hostResult_inj {isSub : Bool} {x y z : BitVec 64} :
    hostResult isSub x y = hostResult isSub x z ↔ y = z := by
  cases isSub with
  | false => exact BitVec.add_right_inj x
  | true =>
      change x - y = x - z ↔ y = z
      constructor
      · intro h
        bv_omega
      · intro h
        rw [h]

/-- **Additions and subtractions of registers.** In a block that touches at most nine registers, the
macros of the 64-bit form perform the instruction exactly if the destination is not the second
operand, or the two operands have the same value. -/
theorem Succeeds.addSubReg_performs_iff (h : Succeeds input c start t entry)
    (hgenerated : input.table.Generated) (hnine : {a | Touches input c start a}.ncard ≤ 9)
    {op setsFlags : Bool} {shift : BitVec 2} {rm rn rd : A64.Register}
    (hat : AtInstruction input c start s (.addSubShifted true op setsFlags shift rm 0 rn rd))
    (hshift : shift ≠ 3) (hrn : rn ≠ 31) (hrm : rm ≠ 31) (hrd : rd = 31 → setsFlags = true) :
    ∃ metadata p js, balDecodeArm64 input.table (input.memory.word s.guestAddress) = some metadata ∧
      s.compiler.translateAddSubReg metadata (input.memory.word s.guestAddress) op =
        s.compiler.apply p ∧
      CodeUpTo c start s js ∧
      (∀ {base : Address} {host : State} {g : A64.State}, Holds base .reset host g ∅ →
        ∃ g', Holds base s.compiler.allocator (execAll host js) g' ∅) ∧
      ∀ {base : Address} {host : State} {g : A64.State} (access : A64.TagAccess),
        Holds base s.compiler.allocator host g ∅ →
        (p.Performs base host access (.addSubShifted true op setsFlags shift rm 0 rn rd) g ↔
          (rd = rm → g.x rn = g.x rm)) := by
  obtain ⟨p, hswitch, hleaves⟩ := h.addSubReg hgenerated hnine hat hrm
  rw [LoopState.translateOpcode_addSubShifted] at hswitch
  obtain ⟨⟨k, limit, hreach, hin⟩, hword⟩ := hat
  obtain ⟨js, hcode, hguest⟩ := h.guestUpTo hreach (h.runs hreach)
  refine ⟨_, p, js, (decode_addSubShifted hgenerated hword).1,
    congrArg LoopState.compiler hswitch, hcode, hguest, ?_⟩
  intro base host g access hholds
  obtain ⟨hwf, hleft⟩ := hleaves hholds
  rw [p.performs_iff hwf hleft (exec_addSubShifted hshift hrn hrm hrd access g),
    A64.State.sameRegisters_advance]
  change (g.writeSum setsFlags rd _).SameRegisters
    (g.writeSum setsFlags rd (A64.addSub op (g.x rn) (g.x rm))) ↔ _
  by_cases hsame : rd = rm
  · rw [if_pos hsame, A64.State.sameRegisters_writeSum g (hsame ▸ hrm), addSub_eq_host, addSub_eq_host]
    constructor
    · intro hresult _
      exact hostResult_inj.mp hresult.1
    · intro hequal
      rw [hequal hsame]
      exact ⟨rfl, fun _ => rfl⟩
  · rw [if_neg hsame]
    exact ⟨fun _ heq => absurd heq hsame, fun _ => .refl _⟩

/-- What the code of a conjunction of registers leaves in the host. -/
theorem Succeeds.andReg (h : Succeeds input c start t entry) (hgenerated : input.table.Generated)
    (hnine : {a | Touches input c start a}.ncard ≤ 9) {sf : Bool} {shift : BitVec 2}
    {rm rn rd : A64.Register}
    (hat : AtInstruction input c start s (.logicalShifted sf 0 shift false rm 0 rn rd))
    (hrd : rd ≠ 31) :
    ∃ p, s.translateOpcode (andShiftedMetadata sf) (input.memory.word s.guestAddress) =
        s.withCompiler (s.compiler.apply p) ∧
      ∀ {base : Address} {host : State} {g : A64.State},
        Holds base s.compiler.allocator host g ∅ →
        p.allocator.Wf ∧ Holds base p.allocator (execAll host (instrsOf p.macros))
          (g.setX rd (g.x rn &&& g.x rm)) ∅ := by
  obtain ⟨⟨k, limit, hreach, hin⟩, hword⟩ := hat
  obtain ⟨hdecode, hrdOperand, hrnOperand, -, hrmOperand⟩ := decode_andShifted hgenerated hword
  obtain ⟨p, touched, hplan, hswitch, hwf, hcard, hmapped, hasked⟩ :=
    h.resident hnine hreach hin hdecode (isTrapped_andShifted _ sf) rfl
  have hasks : RegisterAllocator.askedRegisters (andShiftedMetadata sf)
      (input.memory.word s.guestAddress) = [(rn : Nat), (rm : Nat), (rd : Nat)] := by
    rw [← hrnOperand, ← hrmOperand, ← hrdOperand]
    rfl
  rw [hasks] at hasked
  rw [plan_andShifted hgenerated hword] at hplan
  exact ⟨p, hswitch, fun hholds => hholds.planAnd hwf hcard hmapped (hasked rn (by simp))
    (hasked rm (by simp)) hrd hplan⟩

/-- The effect of a conjunction of two general registers without a shift. -/
theorem exec_andShifted (sf : Bool) {shift : BitVec 2} {rm rn rd : A64.Register} (hrn : rn ≠ 31)
    (hrm : rm ≠ 31) (hrd : rd ≠ 31) (access : A64.TagAccess) (g : A64.State) :
    (A64.Instr.logicalShifted sf 0 shift false rm 0 rn rd).exec access g =
      some (g.setX rd (A64.sized sf (g.x rn &&& A64.sized sf (g.x rm)))).advance := by
  have hshifted : A64.shiftRegSized sf shift (BitVec.toNat (0 : BitVec 6)) (g.x rm) =
      A64.sized sf (g.x rm) := shiftRegSized_zero sf shift (g.x rm)
  have hdefined : (!sf && BitVec.getLsbD (0 : BitVec 6) 5) = false := by
    cases sf <;> decide
  simp only [A64.Instr.exec, A64.State.general, A64.State.setGeneral, hrn, hrm, hrd, if_false,
    hshifted, hdefined]
  rfl

/-- **Conjunctions of registers.** In a block that touches at most nine registers, the macros of the
64-bit form leave the conjunction of the operands in the destination, whichever of the three registers
are the same. -/
theorem Succeeds.andReg_performs (h : Succeeds input c start t entry)
    (hgenerated : input.table.Generated) (hnine : {a | Touches input c start a}.ncard ≤ 9)
    {shift : BitVec 2} {rm rn rd : A64.Register}
    (hat : AtInstruction input c start s (.logicalShifted true 0 shift false rm 0 rn rd))
    (hrn : rn ≠ 31) (hrm : rm ≠ 31) (hrd : rd ≠ 31) :
    ∃ metadata p js, balDecodeArm64 input.table (input.memory.word s.guestAddress) = some metadata ∧
      s.compiler.translateAnd metadata (input.memory.word s.guestAddress) = s.compiler.apply p ∧
      CodeUpTo c start s js ∧
      (∀ {base : Address} {host : State} {g : A64.State}, Holds base .reset host g ∅ →
        ∃ g', Holds base s.compiler.allocator (execAll host js) g' ∅) ∧
      ∀ {base : Address} {host : State} {g : A64.State} (access : A64.TagAccess),
        Holds base s.compiler.allocator host g ∅ →
        Holds base p.allocator (execAll host (instrsOf p.macros))
            (g.setX rd (g.x rn &&& g.x rm)) ∅ ∧
          p.Performs base host access (.logicalShifted true 0 shift false rm 0 rn rd) g := by
  obtain ⟨p, hswitch, hleaves⟩ := h.andReg hgenerated hnine hat hrd
  obtain ⟨⟨k, limit, hreach, hin⟩, hword⟩ := hat
  obtain ⟨js, hcode, hguest⟩ := h.guestUpTo hreach (h.runs hreach)
  refine ⟨_, p, js, (decode_andShifted hgenerated hword).1,
    congrArg LoopState.compiler hswitch, hcode, hguest, ?_⟩
  intro base host g access hholds
  obtain ⟨hwf, hleft⟩ := hleaves hholds
  refine ⟨hleft, ?_⟩
  rw [p.performs_iff hwf hleft (exec_andShifted true hrn hrm hrd access g),
    A64.State.sameRegisters_advance]
  exact .refl _

end Blocks

/-! ### Small blocks -/

/-- The registers that the words of a block ask for. -/
def registersOf (words : List (BitVec 32)) : List Nat :=
  words.flatMap fun w =>
    match balDecodeArm64 generatedTable w with
    | none => []
    | some metadata => RegisterAllocator.askedRegisters metadata w

theorem ncard_touches_ofWords (start : Address) (words : List (BitVec 32)) (maxInstructions : Nat)
    (c : Compiler) (hzero : balDecodeArm64 generatedTable 0 = none) :
    {a | Touches (.ofWords start words maxInstructions) c start a}.ncard ≤
      (registersOf words).toFinset.card := by
  rw [← Set.ncard_coe_finset]
  refine Set.ncard_le_ncard_of_injOn Fin.val ?_ (fun a _ b _ hab => Fin.ext hab)
    (Finset.finite_toSet _)
  rintro a ⟨i, limit, s, metadata, -, -, hdecode, -, hasked⟩
  simp only [Finset.mem_coe, List.mem_toFinset, registersOf, List.mem_flatMap]
  change balDecodeArm64 generatedTable _ = _ at hdecode
  refine ⟨(TranslateInput.ofWords start words maxInstructions).memory.word s.guestAddress, ?_, ?_⟩
  · simp only [TranslateInput.ofWords, MemoryInterface.ofWords] at hdecode ⊢
    rw [List.getD_eq_getElem?_getD] at hdecode ⊢
    cases hget : words[(s.guestAddress - start).toNat / 4]? with
    | none =>
        rw [hget, Option.getD_none, hzero] at hdecode
        cases hdecode
    | some w => exact List.mem_of_getElem? hget
  · rw [hdecode]
    exact hasked

/-- The loops come to the first instruction of a block with the variables they start with. -/
theorem atInstruction_start {input : TranslateInput} (c : Compiler) {start : Address} {i : A64.Instr}
    (hmax : input.maxInstructions ≠ 0) {bytes : Nat} (hreadable : Readable input start bytes)
    (hdecode : A64.decode (input.memory.word start) = some i) :
    AtInstruction input c start (startState c start) i := by
  have hbytes := hreadable.2.1
  exact ⟨⟨0, _, .readable hreadable, by omega⟩, hdecode⟩

/-- The block of `ADD X0, X1, X2`: its macros perform it. -/
theorem addSubReg_performs_iff_distinct : ∃ t, ∃ p : Plan,
    Succeeds (.ofWords 0x1000 [0x8B020020] 1) (.fresh 256) 0x1000 t 0 ∧
      ∀ {base : Address} {host : State} {g : A64.State} (access : A64.TagAccess),
        Holds base .reset host g ∅ →
        (p.Performs base host access (.addSubShifted true false false 0 2 0 1 0) g ↔
          ((0 : A64.Register) = 2 → g.x 1 = g.x 2)) := by
  obtain ⟨t, -, h⟩ := succeeds_of_eval (.ofWords 0x1000 [0x8B020020] 1) (.fresh 256) 0x1000 6
    (show _ = some 0 by decide)
  have hnine := ncard_touches_ofWords 0x1000 [0x8B020020] 1 (.fresh 256) (by decide)
  have hcard : (registersOf [0x8B020020]).toFinset.card = 3 := by decide
  have hreadable : Readable (.ofWords 0x1000 [0x8B020020] 1) 0x1000 4 :=
    ⟨by decide, by decide, by decide⟩
  have hat : AtInstruction (.ofWords 0x1000 [0x8B020020] 1) (.fresh 256) 0x1000
      (startState (.fresh 256) 0x1000) (.addSubShifted true false false 0 2 0 1 0) :=
    atInstruction_start (.fresh 256) (by decide) hreadable (by decide)
  obtain ⟨-, p, -, -, -, -, -, hperforms⟩ := h.addSubReg_performs_iff generatedTable_generated
    (by omega) hat (by decide) (by decide) (by decide) (by decide)
  exact ⟨t, p, h, hperforms⟩

/-- The block of `AND X2, X1, X2`: its macros perform it. -/
theorem andReg_performs_second : ∃ t, ∃ p : Plan,
    Succeeds (.ofWords 0x1000 [0x8A020022] 1) (.fresh 256) 0x1000 t 0 ∧
      ∀ {base : Address} {host : State} {g : A64.State} (access : A64.TagAccess),
        Holds base .reset host g ∅ →
        p.Performs base host access (.logicalShifted true 0 0 false 2 0 1 2) g := by
  obtain ⟨t, -, h⟩ := succeeds_of_eval (.ofWords 0x1000 [0x8A020022] 1) (.fresh 256) 0x1000 6
    (show _ = some 0 by decide)
  have hnine := ncard_touches_ofWords 0x1000 [0x8A020022] 1 (.fresh 256) (by decide)
  have hcard : (registersOf [0x8A020022]).toFinset.card = 2 := by decide
  have hreadable : Readable (.ofWords 0x1000 [0x8A020022] 1) 0x1000 4 :=
    ⟨by decide, by decide, by decide⟩
  have hat : AtInstruction (.ofWords 0x1000 [0x8A020022] 1) (.fresh 256) 0x1000
      (startState (.fresh 256) 0x1000) (.logicalShifted true 0 0 false 2 0 1 2) :=
    atInstruction_start (.fresh 256) (by decide) hreadable (by decide)
  obtain ⟨-, p, -, -, -, -, -, hperforms⟩ := h.andReg_performs generatedTable_generated (by omega)
    hat (by decide) (by decide) (by decide)
  exact ⟨t, p, h, fun access hholds => (hperforms access hholds).2⟩

/-- The CPU record at zero with `X0 = 1` and `X1 = 2`. -/
def smallRecord : State :=
  { someCall 0 with memory := fun a => if a = 0 then 1 else if a = 8 then 2 else 0 }

theorem smallRecord_call : Call smallRecord 0 0 := ⟨rfl, rfl, (someCall_call 0).disjoint⟩

/-- `ADD X0, X1, X0`, then `RET`: the second operand is lost, and `X0` becomes four. -/
theorem clobbered_add : ∃ t u g,
    Succeeds (.ofWords 0x1000 [0x8B000020, 0xD65F03C0] 8) (.fresh 256) 0x1000 t 0 ∧
      {a | Touches (.ofWords 0x1000 [0x8B000020, 0xD65F03C0] 8) (.fresh 256) 0x1000 a}.ncard ≤ 9 ∧
      A64.decode 0x8B000020 = some (.addSubShifted true false false 0 0 0 1 0) ∧
      Call smallRecord 0 0 ∧ runToRet t.compiler.assembler.buffer 40 smallRecord = some u ∧
      (A64.Instr.addSubShifted true false false 0 0 0 1 0).exec ⟨false, 0⟩
        (cpuState smallRecord.memory 0) = some g ∧
      g.x 0 = 3 ∧ (cpuState u.memory 0).x 0 = 4 := by
  obtain ⟨t, htranslate, h⟩ := succeeds_of_eval
    (.ofWords 0x1000 [0x8B000020, 0xD65F03C0] 8) (.fresh 256) 0x1000 6
    (show _ = some 0 by decide)
  have hnine := ncard_touches_ofWords 0x1000 [0x8B000020, 0xD65F03C0] 8 (.fresh 256) (by decide)
  have hcard : (registersOf [0x8B000020, 0xD65F03C0]).toFinset.card ≤ 9 := by decide
  have hrun : ((balTier1CompilerTranslate (.ofWords 0x1000 [0x8B000020, 0xD65F03C0] 8) (.fresh 256)
      0x1000 6).bind fun t => (runToRet t.compiler.assembler.buffer 40 smallRecord).map
        fun u => (cpuState u.memory 0).x 0) = some 4 := by
    decide
  rw [htranslate, Option.bind_some, Option.map_eq_some_iff] at hrun
  obtain ⟨u, hrun, hx⟩ := hrun
  exact ⟨t, u, _, h, hnine.trans hcard, by decide, smallRecord_call, hrun, rfl, by decide, hx⟩

end Ballistic
