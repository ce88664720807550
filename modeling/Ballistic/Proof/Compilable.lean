import Ballistic.Proof.IntegerBlocks
import Ballistic.Proof.Recovery
import Ballistic.Proof.Room
import Ballistic.Proof.Termination

/-!
# Blocks that compile

The other half of `Succeeds.integerRun`: a block of the integer subset that names at most eight guest
registers is compiled, wherever in the buffer there is enough room for it (`SmallBlock.succeeds`).
The ninth scratch register is left out, since the allocator takes a guest register that it finds in
`R15` for corrupted.
-/

namespace Ballistic

open Machine Machine.X86

/-! ### Plans for eight registers -/

namespace RegisterAllocator

variable {r : RegisterAllocator} {touched : Finset (Fin 32)}

theorem planAddSubImm_takes {setsFlags isSub : Bool} {rd rn : Nat} {value : BitVec 64} {p : Plan}
    (hplan : r.planAddSubImm setsFlags isSub rd rn value = some p) : p.Takes 12 := by
  simp only [planAddSubImm, Option.bind_eq_bind, Option.bind_eq_some_iff, Option.some.injEq] at hplan
  obtain ⟨n, hn, d, hd, rfl⟩ := hplan
  have harithmetic : (immediateMacro
      (if isSub then .subRegisterImmediate else .addRegisterImmediate)
      (some d.register) value).isEmittable = true := by
    cases isSub <;> rfl
  exact ((allocate_takes hn).append
    (finishPlan_takes (planDestination_takes hd) setsFlags rd isSub harithmetic) _).mono (by omega)

theorem planAddSubReg_takes {setsFlags isSub : Bool} {rd rn rm : Nat} {p : Plan}
    (hplan : r.planAddSubReg setsFlags isSub rd rn rm = some p) : p.Takes 12 := by
  simp only [planAddSubReg, Option.bind_eq_bind, Option.bind_eq_some_iff, Option.some.injEq] at hplan
  obtain ⟨n, hn, m, hm, d, hd, rfl⟩ := hplan
  have harithmetic : (registerMacro (if isSub then .subRegisterRegister else .addRegisterRegister)
      (some d.register) (some m.register)).isEmittable = true := by
    cases isSub <;> rfl
  exact ((allocate_takes hn).append (allocate_takes hm) r).append
    (finishPlan_takes (planDestination_takes hd) setsFlags rd isSub harithmetic) _

theorem andMacros_takes (r : RegisterAllocator) (rd : Nat) (d n m : Reg) :
    (Plan.mk r (andMacros rd d n m)).Takes 2 := by
  have hfirst : (Plan.mk r (if rd = 31 then [immediateMacro .movRegisterImmediate (some d) 0]
      else if d = m then []
      else if d ≠ n then [registerMacro .movRegisterRegister (some d) (some n)]
      else [])).Takes 1 := by
    split
    · exact .cons rfl .nil
    · split
      · exact Plan.Takes.nil.mono (by omega)
      · split
        · exact .cons rfl .nil
        · exact Plan.Takes.nil.mono (by omega)
  exact hfirst.append (q := ⟨r, _⟩) (.cons rfl .nil) r

theorem planAnd_takes {rd rn rm : Nat} {p : Plan} (hplan : r.planAnd rd rn rm = some p) :
    p.Takes 12 := by
  simp only [planAnd, Option.bind_eq_bind, Option.bind_eq_some_iff, Option.some.injEq] at hplan
  obtain ⟨n, hn, m, hm, d, hd, rfl⟩ := hplan
  exact ((((allocate_takes hn).append (allocate_takes hm) r).append (allocate_takes hd) r).append
    (andMacros_takes r rd d.register n.register m.register) _).mono (by omega)

theorem planUpdate_takes {metadata : Metadata} {w : BitVec 32} {rd : Nat} {p : Plan}
    (hplan : r.planUpdate rd (Compiler.movImmediateMacros metadata w).1
      (Compiler.movImmediateMacros metadata w).2 = some p) : p.Takes 12 := by
  obtain ⟨d, hd, rfl⟩ := Option.map_eq_some_iff.mp hplan
  have hmacros : ∀ x : Reg,
      (Plan.mk r ((Compiler.movImmediateMacros metadata w).2 (some x))).Takes 2 := by
    intro x
    simp only [Compiler.movImmediateMacros]
    split
    · exact Plan.Takes.mono (.cons rfl .nil) (by omega)
    · split
      · exact Plan.Takes.mono (.cons rfl .nil) (by omega)
      · exact .cons rfl (.cons rfl .nil)
  exact ((allocate_takes hd).append (hmacros d.register) _).mono (by omega)

theorem plan_takes {metadata : Metadata} {w : BitVec 32} {p : Plan}
    (hplan : r.plan metadata w = some p) : p.Takes 12 := by
  simp only [plan] at hplan
  split at hplan
  · exact planUpdate_takes hplan
  · exact planAnd_takes hplan
  · split at hplan
    · exact planAddSubReg_takes hplan
    · exact planAddSubImm_takes hplan

theorem Low.planAddSubImm (h : r.Low touched) (hcard : touched.card ≤ 8) {setsFlags : Bool}
    {rd rn : Fin 32} (hrn : rn ∈ touched)
    (hrd : (setsFlags && (rd : Nat) == 31) = false → rd ∈ touched) (isSub : Bool)
    (value : BitVec 64) :
    ∃ p, r.planAddSubImm setsFlags isSub rd rn value = some p ∧ p.allocator.Low touched := by
  obtain ⟨n, hn, hlow, -⟩ := h.allocate hcard hrn false
  obtain ⟨d, hd, hlow, hregister⟩ := hlow.planDestination hcard hrd n.register
  simp only [RegisterAllocator.planAddSubImm, hn, hd, Option.bind_eq_bind, Option.bind_some,
    Option.some.injEq, exists_eq_left']
  exact hlow.finishPlan hregister isSub _

theorem Low.planAddSubReg (h : r.Low touched) (hcard : touched.card ≤ 8) {setsFlags : Bool}
    {rd rn rm : Fin 32} (hrn : rn ∈ touched) (hrm : rm ∈ touched)
    (hrd : (setsFlags && (rd : Nat) == 31) = false → rd ∈ touched) (isSub : Bool) :
    ∃ p, r.planAddSubReg setsFlags isSub rd rn rm = some p ∧ p.allocator.Low touched := by
  obtain ⟨n, hn, hlow, -⟩ := h.allocate hcard hrn false
  obtain ⟨m, hm, hlow, -⟩ := hlow.allocate hcard hrm false
  obtain ⟨d, hd, hlow, hregister⟩ := hlow.planDestination hcard hrd n.register
  simp only [RegisterAllocator.planAddSubReg, hn, hm, hd, Option.bind_eq_bind, Option.bind_some,
    Option.some.injEq, exists_eq_left']
  exact hlow.finishPlan hregister isSub _

theorem Low.planAnd (h : r.Low touched) (hcard : touched.card ≤ 8) {rd rn rm : Fin 32}
    (hrn : rn ∈ touched) (hrm : rm ∈ touched) (hrd : rd ∈ touched) :
    ∃ p, r.planAnd rd rn rm = some p ∧ p.allocator.Low touched := by
  obtain ⟨n, hn, hlow, -⟩ := h.allocate hcard hrn false
  obtain ⟨m, hm, hlow, -⟩ := hlow.allocate hcard hrm false
  obtain ⟨d, hd, hlow, hregister⟩ := hlow.allocate hcard hrd true
  simp only [RegisterAllocator.planAnd, hn, hm, hd, Option.bind_eq_bind, Option.bind_some,
    Option.some.injEq, exists_eq_left']
  exact hlow.setDirty hregister

theorem Low.planUpdate (h : r.Low touched) (hcard : touched.card ≤ 8) {rd : Fin 32}
    (hrd : rd ∈ touched) (skipLoad : Bool) (macros : X86Register → List Macro) :
    ∃ p, r.planUpdate rd skipLoad macros = some p ∧ p.allocator.Low touched := by
  obtain ⟨d, hd, hlow, hregister⟩ := h.allocate hcard hrd skipLoad
  simp only [RegisterAllocator.planUpdate, hd, Option.map_some, Option.some.injEq, exists_eq_left']
  exact hlow.setDirty hregister

end RegisterAllocator

/-! ### The translators with enough room -/

namespace Compiler

variable {c : Compiler} {limit n : Nat} {metadata : Metadata} {w : BitVec 32} {isSub : Bool} {p : Plan}

theorem Room.allocateX86Register (h : c.Room limit (n + 2)) {arm : Nat} {skipLoad : Bool} {p : Allocated}
    (hplan : c.allocator.allocate arm skipLoad = some p) :
    c.allocateX86Register arm skipLoad = (some p.register, c.apply p.toPlan) ∧
      (c.apply p.toPlan).Room limit n :=
  ⟨allocateX86Register_of_plan h.ok hplan, h.apply (RegisterAllocator.allocate_takes hplan)⟩

theorem Room.prepareDestination (h : c.Room limit (n + 2)) {rd : Nat} {x86Rn : Reg} {discarded : Bool}
    {p : Allocated} (hplan : c.allocator.planDestination rd x86Rn discarded = some p) :
    c.prepareDestination rd (some x86Rn) discarded = (some p.register, c.apply p.toPlan) := by
  unfold RegisterAllocator.planDestination at hplan
  unfold Compiler.prepareDestination
  cases discarded with
  | true =>
      cases hplan
      rfl
  | false =>
      simp only [Bool.false_eq_true, if_false] at hplan ⊢
      obtain ⟨d, hd, rfl⟩ := Option.map_eq_some_iff.mp hplan
      simp only [(h.allocateX86Register hd).1]
      by_cases hsame : d.register = x86Rn
      · simp [hsame]
      · simp only [ne_eq, Option.some.injEq, hsame, not_false_eq_true, if_true]
        rw [apply_push]

theorem Room.translateAddSubImm (h : c.Room limit (n + 4))
    (hplan : c.allocator.planAddSubImm (isSettingFlags metadata) isSub
      (registerOperand metadata w 0) (registerOperand metadata w 1)
      (BitVec.ofNat 64 (extractOperandValue w (metadata.operand 2)) <<<
        (if extractOperandValue w (metadata.operand 3) = 1 then 12 else 0)) = some p) :
    c.translateAddSubImm metadata w isSub = c.apply p := by
  simp only [RegisterAllocator.planAddSubImm, Option.bind_eq_bind, Option.bind_eq_some_iff,
    Option.some.injEq] at hplan
  obtain ⟨x, hx, d, hd, rfl⟩ := hplan
  obtain ⟨hxeq, hroom⟩ := (h.mono (by omega) : c.Room limit (2 + 2)).allocateX86Register hx
  have hdeq := (hroom.mono (by omega) : (c.apply x.toPlan).Room limit (0 + 2)).prepareDestination
    (by rw [apply_allocator]; exact hd)
  simp only [Compiler.translateAddSubImm, hxeq, hdeq]
  rw [finishAddSub_eq, apply_apply]

theorem Room.translateAddSubReg (h : c.Room limit (n + 6))
    (hshift : extractOperandValue w (metadata.operand 2) = 0)
    (hplan : c.allocator.planAddSubReg (isSettingFlags metadata) isSub
      (registerOperand metadata w 0) (registerOperand metadata w 1)
      (registerOperand metadata w 3) = some p) :
    c.translateAddSubReg metadata w isSub = c.apply p := by
  simp only [RegisterAllocator.planAddSubReg, Option.bind_eq_bind, Option.bind_eq_some_iff,
    Option.some.injEq] at hplan
  obtain ⟨x, hx, m, hm, d, hd, rfl⟩ := hplan
  obtain ⟨hxeq, hroom⟩ := (h.mono (by omega) : c.Room limit (4 + 2)).allocateX86Register hx
  obtain ⟨hmeq, hroom⟩ := (hroom.mono (by omega) : (c.apply x.toPlan).Room limit (2 + 2)).allocateX86Register
    (by rw [apply_allocator]; exact hm)
  have hdeq := (hroom.mono (by omega) :
    ((c.apply x.toPlan).apply m.toPlan).Room limit (0 + 2)).prepareDestination
    (by rw [apply_allocator]; exact hd)
  simp only [Compiler.translateAddSubReg, hshift, ne_eq, not_true_eq_false, if_false, hxeq, hmeq, hdeq]
  rw [finishAddSub_eq, apply_apply, apply_apply, List.append_assoc]

theorem Room.translateAnd (h : c.Room limit (n + 6)) (hname : metadata.nameAt 3 ≠ 'S')
    (hshift : extractOperandValue w (metadata.operand 2) = 0)
    (hplan : c.allocator.planAnd (registerOperand metadata w 0) (registerOperand metadata w 1)
      (registerOperand metadata w 3) = some p) :
    c.translateAnd metadata w = c.apply p := by
  simp only [RegisterAllocator.planAnd, Option.bind_eq_bind, Option.bind_eq_some_iff,
    Option.some.injEq] at hplan
  obtain ⟨x, hx, m, hm, d, hd, rfl⟩ := hplan
  obtain ⟨hxeq, hroom⟩ := (h.mono (by omega) : c.Room limit (4 + 2)).allocateX86Register hx
  obtain ⟨hmeq, hroom⟩ := (hroom.mono (by omega) : (c.apply x.toPlan).Room limit (2 + 2)).allocateX86Register
    (by rw [apply_allocator]; exact hm)
  obtain ⟨hdeq, -⟩ := (hroom.mono (by omega) :
    ((c.apply x.toPlan).apply m.toPlan).Room limit (0 + 2)).allocateX86Register
    (by rw [apply_allocator]; exact hd)
  simp only [Compiler.translateAnd, hname, hshift, ne_eq, not_true_eq_false, if_false, hxeq, hmeq, hdeq,
    reduceCtorEq, or_self, Option.some.injEq]
  rw [pushAnd_eq, apply_apply, apply_apply, apply_pushAll, apply_setDirty]
  simp only [List.append_assoc]

theorem Room.translateMovImmediate (h : c.Room limit (n + 2))
    (hplan : c.allocator.planUpdate (registerOperand metadata w 0)
      (movImmediateMacros metadata w).1 (movImmediateMacros metadata w).2 = some p) :
    c.translateMovImmediate metadata w = c.apply p := by
  obtain ⟨d, hd, rfl⟩ := Option.map_eq_some_iff.mp hplan
  rw [translateMovImmediate_eq, (h.allocateX86Register hd).1, apply_pushAll, apply_setDirty]

end Compiler

/-- The translators do not refuse the form: no shifted register, and no `ANDS`. -/
def Metadata.accepts (metadata : Metadata) (w : BitVec 32) : Prop :=
  match metadata.irOpcode with
  | .and => metadata.nameAt 3 ≠ 'S' ∧ extractOperandValue w (metadata.operand 2) = 0
  | .add | .sub | .cmp =>
      isRegister (metadata.operand 3) = true → extractOperandValue w (metadata.operand 2) = 0
  | _ => True

/-- **The opcode switch with enough room** carries out the plan of an instruction. -/
theorem LoopState.translateOpcode_of_room {s : LoopState} {metadata : Metadata} {w : BitVec 32}
    {p : Plan} {limit n : Nat} (h : s.compiler.Room limit (n + 12)) (houtcome : metadata.outcome = .continues)
    (haccepts : metadata.accepts w) (hplan : s.compiler.allocator.plan metadata w = some p) :
    s.translateOpcode metadata w = s.withCompiler (s.compiler.apply p) ∧
      (s.compiler.apply p).Room limit n := by
  refine ⟨?_, h.apply (RegisterAllocator.plan_takes hplan)⟩
  unfold Metadata.outcome at houtcome
  unfold translateOpcode
  simp only [RegisterAllocator.plan] at hplan
  simp only [Metadata.accepts] at haccepts
  cases hopcode : metadata.irOpcode with
  | mov =>
      simp only [hopcode] at houtcome hplan ⊢
      simp only [translateMov]
      split at houtcome
      · next hvariant =>
          rw [if_pos hvariant]
          rw [(h.mono (by omega) : s.compiler.Room limit (0 + 2)).translateMovImmediate hplan]
      · split at houtcome <;> cases houtcome
  | add | sub | cmp =>
      simp only [hopcode] at houtcome hplan haccepts ⊢
      simp only [translateAddSub, hopcode]
      split at hplan
      · next hregister =>
          rw [if_pos hregister]
          rw [(h.mono (by omega) : s.compiler.Room limit (0 + 6)).translateAddSubReg (haccepts hregister)
            hplan]
      · next hregister =>
          rw [if_neg hregister] at houtcome ⊢
          split at houtcome
          · next himmediate =>
              rw [if_pos himmediate]
              rw [(h.mono (by omega) : s.compiler.Room limit (0 + 4)).translateAddSubImm hplan]
          · cases houtcome
  | and =>
      simp only [hopcode] at hplan haccepts ⊢
      rw [(h.mono (by omega) : s.compiler.Room limit (0 + 6)).translateAnd haccepts.1 haccepts.2 hplan]
  | _ =>
      simp only [hopcode] at houtcome
      cases houtcome

/-! ### The instructions of the subset -/

section Instructions

variable {table : DecoderTable} {touched : Finset (Fin 32)} {w : BitVec 32} {i : A64.Instr}

theorem discarded_eq (s : Bool) (rd : A64.Register) :
    (s && (rd : Nat) == 31) = (s && rd == 31) := by
  congr 1
  rw [Bool.eq_iff_iff, beq_iff_eq, beq_iff_eq]
  exact ⟨fun h => Fin.ext h, fun h => congrArg Fin.val h⟩

/-- The decoder finds an entry at which the block goes on, and the allocator serves its plan. -/
structure Compilable (table : DecoderTable) (touched : Finset (Fin 32)) (w : BitVec 32)
    (metadata : Metadata) : Prop where
  decodes : balDecodeArm64 table w = some metadata
  continues : metadata.outcome = .continues
  untrapped : ∀ flags, isTrapped flags metadata = false
  accepts : metadata.accepts w
  plans : ∀ {r : RegisterAllocator}, r.Low touched →
    ∃ p, r.plan metadata w = some p ∧ p.allocator.Low touched

theorem compilable_addSubImm (hgenerated : table.Generated) (hcard : touched.card ≤ 8)
    {sf op s sh : Bool} {imm12 : BitVec 12} {rn rd : A64.Register}
    (hdecode : A64.decode w = some (.addSubImm sf op s sh imm12 rn rd))
    (hnamed : namedRegisters (.addSubImm sf op s sh imm12 rn rd) ⊆ touched) :
    Compilable table touched w (addSubImmMetadata sf op s) where
  decodes := (decode_addSubImm hgenerated hdecode).1
  continues := outcome_addSubImm sf op s
  untrapped flags := isTrapped_addSubImm flags sf op s
  accepts := by cases op <;> cases s <;> exact nofun
  plans := by
    intro r hlow
    rw [plan_addSubImm hgenerated hdecode]
    refine hlow.planAddSubImm hcard (hnamed ?_) (fun hkept => hnamed ?_) op _
    · rw [namedRegisters]
      split <;> simp
    · rw [discarded_eq] at hkept
      simp [namedRegisters, hkept]

theorem compilable_addSubShifted (hgenerated : table.Generated) (hcard : touched.card ≤ 8)
    {sf op s : Bool} {shift : BitVec 2} {rm rn rd : A64.Register}
    (hdecode : A64.decode w = some (.addSubShifted sf op s shift rm 0 rn rd))
    (hnamed : namedRegisters (.addSubShifted sf op s shift rm 0 rn rd) ⊆ touched) :
    Compilable table touched w (addSubShiftedMetadata sf op s) where
  decodes := (decode_addSubShifted hgenerated hdecode).1
  continues := outcome_addSubShifted sf op s
  untrapped flags := isTrapped_addSubShifted flags sf op s
  accepts := by
    obtain ⟨-, -, -, hshift, -⟩ := decode_addSubShifted hgenerated hdecode
    cases op <;> cases s <;> exact fun _ => hshift
  plans := by
    intro r hlow
    rw [plan_addSubShifted hgenerated hdecode]
    refine hlow.planAddSubReg hcard (hnamed ?_) (hnamed ?_) (fun hkept => hnamed ?_) op
    · rw [namedRegisters]
      split <;> simp
    · rw [namedRegisters]
      split <;> simp
    · rw [discarded_eq] at hkept
      simp [namedRegisters, hkept]

theorem compilable_andShifted (hgenerated : table.Generated) (hcard : touched.card ≤ 8)
    {sf : Bool} {shift : BitVec 2} {rm rn rd : A64.Register}
    (hdecode : A64.decode w = some (.logicalShifted sf 0 shift false rm 0 rn rd))
    (hnamed : namedRegisters (.logicalShifted sf 0 shift false rm 0 rn rd) ⊆ touched) :
    Compilable table touched w (andShiftedMetadata sf) where
  decodes := (decode_andShifted hgenerated hdecode).1
  continues := rfl
  untrapped flags := isTrapped_andShifted flags sf
  accepts := by
    obtain ⟨-, -, -, hshift, -⟩ := decode_andShifted hgenerated hdecode
    exact ⟨by cases sf <;> decide, hshift⟩
  plans := by
    intro r hlow
    rw [plan_andShifted hgenerated hdecode]
    refine hlow.planAnd hcard (hnamed ?_) (hnamed ?_) (hnamed ?_) <;> simp [namedRegisters]

theorem compilable_moveWide (hgenerated : table.Generated) (hcard : touched.card ≤ 8) {sf : Bool}
    {opc hw : BitVec 2} {imm16 : BitVec 16} {rd : A64.Register}
    (hdecode : A64.decode w = some (.moveWide sf opc hw imm16 rd)) (hopc : opc ≠ 1)
    (hhw : (sf || !hw.getLsbD 1) = true)
    (hnamed : namedRegisters (.moveWide sf opc hw imm16 rd) ⊆ touched) :
    Compilable table touched w (moveWideMetadata sf opc) where
  decodes := (decode_moveWide hgenerated hdecode hopc hhw).1
  continues := outcome_moveWide sf hopc
  untrapped flags := isTrapped_moveWide flags sf opc
  accepts := trivial
  plans := by
    intro r hlow
    obtain ⟨skipLoad, macros, hplan, -⟩ := plan_moveWide (r := r) hgenerated hdecode hopc hhw
    rw [hplan]
    exact hlow.planUpdate hcard (hnamed (by simp [namedRegisters])) skipLoad macros

theorem isInteger_compilable (hgenerated : table.Generated) (hcard : touched.card ≤ 8)
    (hinteger : isInteger i = true) (hnamed : namedRegisters i ⊆ touched)
    (hdecode : A64.decode w = some i) : ∃ metadata, Compilable table touched w metadata := by
  simp only [isInteger, Bool.or_eq_true] at hinteger
  cases i with
  | addSubImm sf op s sh imm12 rn rd =>
      exact ⟨_, compilable_addSubImm hgenerated hcard hdecode hnamed⟩
  | moveWide sf opc hw imm16 rd =>
      rcases hinteger with himmediate | hregister
      · simp only [isImmediate, Bool.and_eq_true, bne_iff_ne] at himmediate
        exact ⟨_, compilable_moveWide hgenerated hcard hdecode himmediate.1.1 himmediate.1.2 hnamed⟩
      · exact absurd hregister (by simp [isRegisterForm])
  | addSubShifted sf op s shift rm imm6 rn rd =>
      rcases hinteger with himmediate | hregister
      · exact absurd himmediate (by simp [isImmediate])
      · simp only [isRegisterForm, Bool.and_eq_true, beq_iff_eq, and_assoc] at hregister
        obtain ⟨-, -, rfl, -⟩ := hregister
        exact ⟨_, compilable_addSubShifted hgenerated hcard hdecode hnamed⟩
  | logicalShifted sf opc shift n rm imm6 rn rd =>
      rcases hinteger with himmediate | hregister
      · exact absurd himmediate (by simp [isImmediate])
      · simp only [isRegisterForm, Bool.and_eq_true, beq_iff_eq, Bool.not_eq_true',
          and_assoc] at hregister
        obtain ⟨-, rfl, rfl, rfl, -⟩ := hregister
        exact ⟨_, compilable_andShifted hgenerated hcard hdecode hnamed⟩
  | _ => exact absurd hinteger (by simp [isImmediate, isRegisterForm])

/-- What the opcode switch makes of the last instruction of a block. -/
structure EndsWithRoom (s : LoopState) (limit : Nat) : Prop where
  terminated : s.isBlockTerminated = true
  settled : s.compiler.allocator.Settled
  room : s.compiler.Room limit 17

theorem isEnd_room (hgenerated : table.Generated) (hcard : touched.card ≤ 8) {s : LoopState}
    {limit : Nat} (hend : isEnd i = true)
    (hdecode : A64.decode w = some i) (hlow : s.compiler.allocator.Low touched)
    (hroom : s.compiler.Room limit 47) :
    ∃ metadata, balDecodeArm64 table w = some metadata ∧
      (∀ flags, isTrapped flags metadata = false) ∧
      EndsWithRoom (s.translateOpcode metadata w) limit := by
  cases i with
  | ret rn =>
      obtain ⟨hmetadata, hrn⟩ := decode_ret hgenerated hdecode
      refine ⟨_, hmetadata, isTrapped_ret, ?_⟩
      obtain ⟨p, hplan, hsettled⟩ := hlow.allocate_once hcard rn false
      obtain ⟨heq, hroom'⟩ := (hroom.mono (by omega) :
        s.compiler.Room limit (18 + 2)).allocateX86Register hplan
      have hswitch : s.translateOpcode retMetadata w =
          { s with
            compiler := (s.compiler.apply p.toPlan).push (storeMacro (some p.register) offsetPc)
            isPcDynamic := true
            isBlockTerminated := true } := by
        change s.translateReturn retMetadata w = _
        simp only [LoopState.translateReturn, hrn, heq]
      rw [hswitch]
      exact ⟨rfl, hsettled, hroom'.push rfl⟩
  | branch imm26 =>
      refine ⟨_, decode_branch hgenerated hdecode, isTrapped_branch, ?_⟩
      exact ⟨rfl, hlow.settled hcard, hroom.mono (by omega)⟩
  | branchCond imm19 cond =>
      refine ⟨_, decode_branchCond hgenerated hdecode, isTrapped_branchCond, ?_⟩
      have hsingle : cond.toNat < 8 := of_decide_eq_true hend
      have hcond := condField_eq hdecode
      obtain ⟨flagOffset, testForZero, hflag, -, -⟩ := conditionFlag_holds hsingle
      have hnotAlways : cond.setWidth 32 ≠ (0xE : BitVec 32) := by
        intro halways
        have hvalue := congrArg BitVec.toNat halways
        rw [BitVec.toNat_setWidth, Nat.mod_eq_of_lt (by omega)] at hvalue
        rw [hvalue] at hsingle
        exact absurd hsingle (by decide)
      have hswitch : s.translateOpcode branchCondMetadata w =
          (s.withCompiler (s.compiler.translateBCond w s.guestAddress)).terminate := rfl
      rw [hswitch]
      have hcompared : (s.compiler.flushAll.onAssembler
          (·.emitCmpMem8RbpOffsetImm (BitVec.ofNat 32 flagOffset) 0)).Room limit (17 + 29) :=
        hroom.flushAll.onAssembler (n := 17 + 29) (k := 1) rfl
          fun ha => ha.call (.cmpMem8RbpOffsetImm _ 0) rfl
      have htranslated : s.compiler.translateBCond w s.guestAddress =
          (s.compiler.flushAll.onAssembler
            (·.emitCmpMem8RbpOffsetImm (BitVec.ofNat 32 flagOffset) 0)).terminateBlockConditional
            (if testForZero then .e else .ne) (s.guestAddress + 4)
            (Compiler.bCondTarget w s.guestAddress) := by
        simp only [Compiler.translateBCond, hcond, if_neg hnotAlways, hflag]
        rfl
      refine ⟨rfl, ?_, ?_⟩
      · change (s.compiler.translateBCond w s.guestAddress).allocator.Settled
        rw [htranslated, Compiler.terminateBlockConditional_allocator]
        exact hlow.settled hcard
      · change (s.compiler.translateBCond w s.guestAddress).Room limit 17
        rw [htranslated]
        exact Compiler.Room.terminateBlockConditional (c := s.compiler.flushAll.onAssembler _)
          (hlow.settled hcard) hcompared _ _ _
  | _ => exact absurd hend (by simp [isEnd, isExit])

end Instructions

/-! ### Blocks -/

/-- A block of the subset in readable memory whose body names at most eight registers. The last
instruction can name one more. -/
structure SmallBlock (input : TranslateInput) (start : Address) (body : List A64.Instr)
    (last : A64.Instr) : Prop where
  words : ∀ {k i}, (body ++ [last])[k]? = some i →
    A64.decode (input.memory.word (start + BitVec.ofNat 64 (4 * k))) = some i
  length_le : body.length + 1 ≤ input.maxInstructions
  few : ∃ touched : Finset A64.Register, touched.card ≤ 8 ∧
    ∀ i ∈ body, isInteger i = true ∧ namedRegisters i ⊆ touched
  last_end : isEnd last = true
  readable : ∀ k ≤ body.length, ∃ bytes, Readable input (start + BitVec.ofNat 64 (4 * k)) bytes

theorem SmallBlock.integerBlock {input : TranslateInput} {start : Address} {body : List A64.Instr}
    {last : A64.Instr} (h : SmallBlock input start body last) :
    IntegerBlock input start body last where
  words := h.words
  length_le := h.length_le
  body_integer := by
    obtain ⟨touched, hcard, hbody⟩ := h.few
    exact .inr ⟨touched, hcard.trans (by omega), hbody⟩
  last_end := h.last_end

/-- The block from its second instruction on. -/
theorem SmallBlock.tail {input : TranslateInput} {start : Address} {i : A64.Instr}
    {body : List A64.Instr} {last : A64.Instr} (h : SmallBlock input start (i :: body) last) :
    SmallBlock input (start + 4) body last where
  words := by
    intro k j hj
    rw [BitVec.add_assoc, BitVec.add_comm 4, ← BitVec.add_assoc, add_instruction]
    exact h.words (k := k + 1) hj
  length_le := (Nat.le_succ _).trans h.length_le
  few := by
    obtain ⟨touched, hcard, hbody⟩ := h.few
    exact ⟨touched, hcard, fun j hj => hbody j (List.mem_cons_of_mem _ hj)⟩
  last_end := h.last_end
  readable := by
    intro k hk
    rw [BitVec.add_assoc, BitVec.add_comm 4, ← BitVec.add_assoc, add_instruction]
    exact h.readable (k + 1) (Nat.succ_le_succ hk)

/-- Room for a block of `length` instructions before its last one: twelve macros each, six emits
before the first, and at most 47 macros and emits at the end. -/
def blockRoom (length : Nat) : Nat := 16 * (12 * length + 53)

section Blocks

variable {input : TranslateInput} {c : Compiler} {start : Address} {body : List A64.Instr}
  {last : A64.Instr} {touched : Finset (Fin 32)} {limit : Nat}

/-- The block up to a point: every instruction before it has been compiled, and there is room for
those that are left. -/
structure Underway (start : Address) (body : List A64.Instr) (touched : Finset (Fin 32))
    (limit : Nat) (s : LoopState) : Prop where
  notTerminated : s.isBlockTerminated = false
  count_le : s.armInstructionCount ≤ body.length
  address : s.guestAddress = start + BitVec.ofNat 64 (4 * s.armInstructionCount)
  low : s.compiler.allocator.Low touched
  room : s.compiler.Room limit (12 * (body.length - s.armInstructionCount) + 47)

theorem LoopState.not_failed {s : LoopState} (h : s.compiler.Ok) : s.failed = false := by
  rw [LoopState.failed, h.status, h.assembler]
  rfl

/-- One instruction of the body. -/
theorem Underway.next (hgenerated : input.table.Generated) (hcard : touched.card ≤ 8) {s : LoopState}
    (h : Underway start body touched limit s) (hbefore : s.armInstructionCount < body.length)
    (hinteger : isInteger body[s.armInstructionCount] = true)
    (hnamed : namedRegisters body[s.armInstructionCount] ⊆ touched)
    (hdecode : A64.decode (input.memory.word s.guestAddress) = some body[s.armInstructionCount])
    {i : Nat} (hlimit : i + 1 ≠ input.maxInstructions) (base : Address) (blockOffset : Nat) :
    ∃ s', translateInstruction input base blockOffset i s = (s', false) ∧
      Underway start body touched limit s' := by
  obtain ⟨metadata, hcompilable⟩ := isInteger_compilable hgenerated hcard hinteger hnamed hdecode
  obtain ⟨p, hplan, hlow⟩ := hcompilable.plans h.low
  obtain ⟨hopcode, hroom⟩ := LoopState.translateOpcode_of_room (h.room.mono (by omega) :
    s.compiler.Room limit (12 * (body.length - (s.armInstructionCount + 1)) + 47 + 12))
    hcompilable.continues hcompilable.accepts hplan
  have hnot : (s.withCompiler (s.compiler.apply p)).failed = false :=
    LoopState.not_failed hroom.ok
  obtain ⟨s'', hcounts, heq⟩ := @translateInstruction_counted input base blockOffset i s metadata
    hcompilable.decodes (hcompilable.untrapped input.engineFlags) _ hopcode hnot
  have hopen : (s.withCompiler (s.compiler.apply p)).isBlockTerminated = false := h.notTerminated
  rw [if_neg hlimit, hopen] at heq
  simp only [Bool.false_eq_true, if_false] at heq
  obtain ⟨hcompiler, -, hterminated, -⟩ := hcounts.eq
  have hcount : s''.armInstructionCount = s.armInstructionCount + 1 := hcounts.count_eq
  refine ⟨_, heq, hterminated.trans hopen, ?_, ?_, ?_, ?_⟩
  · exact hcount.trans_le hbefore
  · change s.guestAddress + 4 = start + BitVec.ofNat 64 (4 * s''.armInstructionCount)
    rw [hcount, h.address, add_instruction]
  · change s''.compiler.allocator.Low touched
    rw [hcompiler]
    exact hlow
  · change s''.compiler.Room limit (12 * (body.length - s''.armInstructionCount) + 47)
    rw [hcompiler, hcount]
    exact hroom

/-- The last instruction. -/
theorem Underway.ends (hgenerated : input.table.Generated) (hcard : touched.card ≤ 8) {s : LoopState}
    (h : Underway start body touched limit s) (hend : isEnd last = true)
    (hdecode : A64.decode (input.memory.word s.guestAddress) = some last) (i : Nat) (base : Address)
    (blockOffset : Nat) :
    ∃ s', translateInstruction input base blockOffset i s = (s', true) ∧
      EndsWithRoom s' limit := by
  obtain ⟨metadata, hmetadata, huntrapped, hends⟩ :=
    isEnd_room hgenerated hcard hend hdecode h.low (h.room.mono (by omega))
  obtain ⟨s'', hcounts, heq⟩ := @translateInstruction_counted input base blockOffset i s metadata
    hmetadata (huntrapped input.engineFlags) _ rfl (LoopState.not_failed hends.room.ok)
  obtain ⟨hcompiler, -, hterminated, -⟩ := hcounts.eq
  rw [hends.terminated] at heq hterminated
  have hleft : EndsWithRoom s'' limit :=
    ⟨hterminated, hcompiler ▸ hends.settled, hcompiler ▸ hends.room⟩
  split at heq
  · exact ⟨_, heq, rfl, hleft.settled, hleft.room⟩
  · exact ⟨_, heq, hleft⟩

theorem Underway.decodes (hgenerated : input.table.Generated) (hcard : touched.card ≤ 8)
    (hblock : SmallBlock input start body last)
    (hbody : ∀ i ∈ body, isInteger i = true ∧ namedRegisters i ⊆ touched) {s : LoopState}
    (h : Underway start body touched limit s) :
    ∃ metadata, balDecodeArm64 input.table (input.memory.word s.guestAddress) = some metadata := by
  have hle := h.count_le
  rw [h.address]
  by_cases hbefore : s.armInstructionCount < body.length
  · have hword := hblock.words (k := s.armInstructionCount) (i := body[s.armInstructionCount]) (by
      rw [List.getElem?_append_left hbefore, List.getElem?_eq_getElem hbefore])
    obtain ⟨hinteger, hnamed⟩ := hbody _ (List.getElem_mem hbefore)
    obtain ⟨metadata, hcompilable⟩ := isInteger_compilable hgenerated hcard hinteger hnamed hword
    exact ⟨metadata, hcompilable.decodes⟩
  · have hcount : s.armInstructionCount = body.length := by omega
    have hword := hblock.words (k := body.length) (i := last) (by simp)
    rw [← hcount] at hword
    obtain ⟨metadata, hmetadata, -⟩ := isEnd_metadata hgenerated hblock.last_end hword
    exact ⟨metadata, hmetadata⟩

/-- The states in which the loops come to stand, with enough room at the start. -/
theorem Reaches.compiles (hgenerated : input.table.Generated) (hcard : touched.card ≤ 8)
    (hblock : SmallBlock input start body last)
    (hbody : ∀ i ∈ body, isInteger i = true ∧ namedRegisters i ⊆ touched)
    (hstart : (startState c start).compiler.Room limit (12 * body.length + 47)) {p : LoopPoint}
    {s : LoopState} (hreach : Reaches input c start p s) :
    Underway start body touched limit s ∨ p = .whileTest ∧ EndsWithRoom s limit := by
  induction hreach with
  | start =>
      refine .inl ⟨rfl, Nat.zero_le _, (BitVec.add_zero _).symm, ?_, hstart⟩
      exact RegisterAllocator.reset_low touched
  | @step p p' s s' hreach hnext ih =>
      obtain ⟨bytes, rfl, hopen, -, -, rfl⟩ | ⟨i, count, rfl, -, -, rfl⟩ |
        ⟨i, count, rfl, -, rfl, rfl⟩ := loopStep_next hnext
      · refine ih.imp_right fun hends => ?_
        rw [hends.2.terminated] at hopen
        cases hopen
      · rcases ih with hunderway | ⟨habsurd, -⟩
        · exact .inl hunderway
        · cases habsurd
      · rcases ih with hunderway | ⟨habsurd, -⟩
        swap
        · cases habsurd
        have hplace := hreach.place_le rfl
        have hle := hunderway.count_le
        have hlength := hblock.length_le
        have haddress := hunderway.address
        by_cases hbefore : s.armInstructionCount < body.length
        · have hword := hblock.words (k := s.armInstructionCount)
            (i := body[s.armInstructionCount]) (by
              rw [List.getElem?_append_left hbefore, List.getElem?_eq_getElem hbefore])
          obtain ⟨hinteger, hnamed⟩ := hbody _ (List.getElem_mem hbefore)
          obtain ⟨s', heq, hunderway'⟩ := hunderway.next hgenerated hcard hbefore hinteger hnamed
            (haddress ▸ hword) (i := i) (by omega) start c.assembler.offset
          rw [heq]
          exact .inl hunderway'
        · have hcount : s.armInstructionCount = body.length := by omega
          have hword := hblock.words (k := body.length) (i := last) (by simp)
          rw [← hcount, ← haddress] at hword
          obtain ⟨s', heq, hends⟩ := hunderway.ends hgenerated hcard hblock.last_end hword i start
            c.assembler.offset
          rw [heq]
          exact .inr ⟨rfl, hends⟩

/-- **Small blocks compile.** With enough room in the buffer a block of the subset that names at most
eight registers is compiled, and its code stays within that room. -/
theorem SmallBlock.succeeds (hgenerated : input.table.Generated)
    (hblock : SmallBlock input start body last) (hstatus : c.status = .success)
    (hwindow : c.window = .empty)
    (hroom : c.assembler.Room limit (blockRoom body.length)) :
    ∃ t, Succeeds input c start t c.assembler.offset ∧ t.compiler.assembler.offset ≤ limit := by
  obtain ⟨touched, hcard, hbody⟩ := hblock.few
  have hstart : (startState c start).compiler.Room limit (12 * body.length + 47) := by
    refine ⟨hstatus, ?_, ?_⟩
    · have hempty : (startState c start).compiler.window.macros = [] := congrArg _ hwindow
      rw [startState_assembler, hempty]
      exact Assembler.Room.emitPrologue (hroom.mono (by
        simp only [blockRoom, List.length_nil]
        omega))
    · have hempty : (startState c start).compiler.window.macros = [] := congrArg _ hwindow
      rw [hempty]
      simp
  have hreaches : ∀ {p s}, Reaches input c start p s →
      Underway start body touched limit s ∨ p = .whileTest ∧ EndsWithRoom s limit :=
    fun hreach => hreach.compiles hgenerated hcard hblock hbody hstart
  have hmax : input.maxInstructions ≠ 0 := by
    have hlength := hblock.length_le
    omega
  have hdecodable : ¬MeetsUndecodable input c start := by
    rintro ⟨p, s, hreach, i, count, rfl, -, hdecode⟩
    rcases hreaches hreach with hunderway | ⟨habsurd, -⟩
    · obtain ⟨metadata, hmetadata⟩ := hunderway.decodes hgenerated hcard hblock hbody
      rw [hdecode] at hmetadata
      cases hmetadata
    · cases habsurd
  obtain ⟨t, fuel, htranslates⟩ := translates_of_decodable hmax hdecodable
  have htranslate := htranslates
  rw [balTier1CompilerTranslate, if_neg hmax, Option.map_eq_some_iff] at htranslate
  obtain ⟨s', hrun, rfl⟩ := htranslate
  obtain ⟨p, s, hreach, hexit⟩ := runLoops_reaches .start hrun
  have hends : EndsWithRoom s' limit := by
    obtain ⟨rfl, ⟨hterminated, rfl⟩ | ⟨hopen, hunmapped, -⟩ | ⟨bytes, hopen, hmapped, hunfit, -⟩⟩ :=
      loopStep_exit_cases hexit
    · rcases hreaches hreach with hunderway | ⟨-, hends⟩
      · rw [hunderway.notTerminated] at hterminated
        cases hterminated
      · exact hends
    all_goals
      rcases hreaches hreach with hunderway | ⟨-, hends⟩
      swap
      · rw [hends.terminated] at hopen
        cases hopen
      obtain ⟨bytes', hmapped', hbytes, haligned⟩ := hblock.readable _ hunderway.count_le
      rw [← hunderway.address] at hmapped' haligned
    · rw [hunmapped] at hmapped'
      cases hmapped'
    · rw [hmapped] at hmapped'
      cases hmapped'
      exact absurd hunfit (not_or.mpr ⟨hbytes, haligned⟩)
  have hfinal := Compiler.Room.terminateBlock hends.settled hends.room s'.guestAddress
    s'.isPcDynamic s'.armInstructionCount input.engineFlags (n := 0)
  refine ⟨_, ⟨⟨fuel, htranslates⟩, ?_⟩, ?_⟩
  · simp only [finishTranslation, hfinal.status, hfinal.assembler.status, ne_eq, not_true_eq_false,
      or_self, if_false]
  · rw [finishTranslation_compiler]
    have hfits := hfinal.assembler.fits
    omega

end Blocks

/-! ### Programs as lists of words -/

section Words

variable {start : Address} {words : List (BitVec 32)} {is : List A64.Instr}

theorem ofWords_position (start : Address) {k : Nat} (hk : 4 * k < 2 ^ 64) :
    (start + BitVec.ofNat 64 (4 * k) - start).toNat = 4 * k := by
  rw [BitVec.add_comm, BitVec.add_sub_cancel, BitVec.toNat_ofNat, Nat.mod_eq_of_lt hk]

theorem ofWords_readable (hlength : 4 * words.length ≤ 2 ^ 64) {k : Nat} (hk : k < words.length)
    (maxInstructions : Nat) :
    ∃ bytes, Readable (.ofWords start words maxInstructions) (start + BitVec.ofNat 64 (4 * k))
      bytes := by
  have hposition := ofWords_position start (k := k) (by omega)
  refine ⟨4 * words.length - 4 * k, ?_, by omega, ?_⟩
  · change (if (start + BitVec.ofNat 64 (4 * k) - start).toNat < 4 * words.length then
      some (4 * words.length - (start + BitVec.ofNat 64 (4 * k) - start).toNat) else none) = _
    rw [hposition, if_pos (by omega)]
  · rintro ⟨hstrict, -⟩
    exact absurd hstrict (by change ¬EngineFlags.has 0 EngineFlags.strictAlignment = true; decide)

end Words

/-! ### Compiled and run -/

/-- The test program of the fuzzer's coordinator, without the `RET` behind it. -/
def coordinatorBody : List A64.Instr :=
  [.moveWide true 2 0 100 1, .moveWide true 2 0 200 2, .addSubShifted true false false 0 2 0 1 3,
    .moveWide true 2 0 50 4, .addSubShifted true true false 0 4 0 3 5, .moveWide true 2 0 0xFF 6,
    .logicalShifted true 0 0 false 6 0 5 7, .addSubImm true false false false 5 7 0,
    .addSubImm true true true false 0xFF 0 31]

end Ballistic
