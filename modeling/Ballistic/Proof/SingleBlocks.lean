import Ballistic.Proof.Compilable
import Ballistic.Proof.OperandSlots

/-!
# Blocks of one instruction and the room for them

A block of one instruction is translated with an error if the check after the instruction finds one,
and without a word if only the code behind that check runs out of room. So for the instructions whose
operand slots are misread, a translation keeps what is promised of it exactly if it stops before the
check, or has room for all its calls and slots that agree (`dispatchSound_iff`).
-/

namespace Ballistic

open Machine Machine.X86

/-! ### Scripts that have a plan -/

namespace Script

variable {r : RegisterAllocator} {p : Plan} {metadata : Metadata} {w : BitVec 32} {isSub : Bool}

theorem refusal_pushMacros (macros : List Macro) (rest : Script) (r : RegisterAllocator) :
    (pushMacros macros rest).refusal r = rest.refusal r := by
  induction macros with
  | nil => rfl
  | cons m macros ih => exact ih

theorem refusal_finish (metadata : Metadata) (rd : Nat) (isSub : Bool) (arithmetic : Macro)
    (r : RegisterAllocator) : (finish metadata rd isSub arithmetic).refusal r = none := by
  simp only [finish, refusal, refusal_pushMacros]
  split <;> rfl

theorem refusal_prepare {rd : Nat} {x86Rn : Reg} {discarded : Bool} {rest : X86Register → Script}
    {d : Allocated} (hd : r.planDestination rd x86Rn discarded = some d)
    (hrest : ∀ x r, (rest x).refusal r = none) :
    (prepare rd (some x86Rn) discarded rest).refusal r = none := by
  unfold prepare
  unfold RegisterAllocator.planDestination at hd
  split
  · exact hrest _ _
  · next hkept =>
      rw [if_neg hkept] at hd
      obtain ⟨n, hn, -⟩ := Option.map_eq_some_iff.mp hd
      simp only [refusal, hn]
      split <;> exact hrest _ _

theorem refusal_addSubImm
    (h : r.planAddSubImm (Compiler.isSettingFlags metadata) isSub (Compiler.registerOperand metadata w 0)
      (Compiler.registerOperand metadata w 1)
      (BitVec.ofNat 64 (extractOperandValue w (metadata.operand 2)) <<<
        (if extractOperandValue w (metadata.operand 3) = 1 then 12 else 0)) = some p) :
    (addSubImm metadata w isSub).refusal r = none := by
  simp only [RegisterAllocator.planAddSubImm, Option.bind_eq_bind, Option.bind_eq_some_iff] at h
  obtain ⟨n, hn, d, hd, -⟩ := h
  simp only [addSubImm, refusal, hn]
  exact refusal_prepare hd fun x r => refusal_finish _ _ _ _ r

theorem refusal_and
    (h : r.planAnd (Compiler.registerOperand metadata w 0) (Compiler.registerOperand metadata w 1)
      (Compiler.registerOperand metadata w 3) = some p) : (and metadata w).refusal r = none := by
  simp only [RegisterAllocator.planAnd, Option.bind_eq_bind, Option.bind_eq_some_iff] at h
  obtain ⟨n, hn, m, hm, d, hd, -⟩ := h
  simp only [and, refusal, hn, hm, hd]
  repeat' split
  all_goals rfl

theorem refusal_movRegister
    (h : r.planMovRegister (Compiler.registerOperand metadata w 0)
      (Compiler.registerOperand metadata w 1) = some p) : (movRegister metadata w).refusal r = none := by
  simp only [RegisterAllocator.planMovRegister, Option.bind_eq_bind, Option.bind_eq_some_iff] at h
  obtain ⟨m, hm, d, hd, -⟩ := h
  simp only [movRegister, refusal, hm, hd]

end Script

theorem RegisterAllocator.Low.planMovRegister {r : RegisterAllocator} {touched : Finset (Fin 32)}
    (h : r.Low touched) (hcard : touched.card ≤ 8) {rd rm : Fin 32} (hrm : rm ∈ touched)
    (hrd : rd ∈ touched) : ∃ p, r.planMovRegister rd rm = some p := by
  obtain ⟨m, hm, hlow, -⟩ := h.allocate hcard hrm false
  obtain ⟨d, hd, -, -⟩ := hlow.allocate hcard hrd true
  simp only [RegisterAllocator.planMovRegister, hm, hd, Option.bind_eq_bind, Option.bind_some,
    Option.some.injEq, exists_eq']

theorem instructionScript_and {metadata : Metadata} (hand : metadata.irOpcode = .and) (w : BitVec 32)
    (r : RegisterAllocator) : instructionScript metadata w r = Script.and metadata w := by
  simp only [instructionScript, hand]

/-! ### The calls of a block of one instruction -/

section Calls

variable (flags : EngineFlags) (start : Address) (metadata : Metadata) (w : BitVec 32)

/-- The macros of the instruction, in a block of its own. -/
def singleMacros : List Macro :=
  (instructionScript metadata w .reset).pushes .reset

/-- The calls before the check after the instruction. -/
def checkedCalls : List EmitCall :=
  prologueCalls ++ (drain [] (singleMacros metadata w)).1.flatMap Macro.calls

/-- The macros that `terminate_block` pushes. -/
def endMacros (r : RegisterAllocator) : List Macro :=
  (if flags.has EngineFlags.instructionCounting then
      [immediateMacro .addCpuIcount (some .rbp) (BitVec.ofNat 64 1)]
    else []) ++ Compiler.dirtyStores r

/-- All calls of the block. -/
def singleCalls : List EmitCall :=
  prologueCalls ++
    ((lowered [] (singleMacros metadata w ++
        endMacros flags ((instructionScript metadata w .reset).allocator .reset))).flatMap Macro.calls ++
      (storePcCalls start ++ restoreCalls)) ++ [.ret]

end Calls

section Rooms

variable (input : TranslateInput) (c : Compiler) (start : Address)

/-- There is room for what is emitted before the check. -/
def ChecksWithRoom : Prop :=
  ∃ metadata, balDecodeArm64 input.table (input.memory.word start) = some metadata ∧
    EmitCall.AllFit c.assembler.capacity c.assembler.offset
      (checkedCalls metadata (input.memory.word start))

/-- There is room for the whole block. -/
def FitsWhole : Prop :=
  ∃ metadata, balDecodeArm64 input.table (input.memory.word start) = some metadata ∧
    EmitCall.AllFit c.assembler.capacity c.assembler.offset
      (singleCalls input.engineFlags start metadata (input.memory.word start))

end Rooms

/-- A conjunction whose rotation is read as a register that there is not, or whose size is read as a
shift. -/
def IsRefused : A64.Instr → Prop
  | .logicalImm _ opc _ immr imms _ _ => opc = 0 ∧ (imms ≠ 0 ∨ 32 ≤ immr.toNat)
  | _ => False

/-- The translation returns `NULL` with an error, or a block that does what the instruction does. -/
structure DispatchSound (t : Translation) (start : Address) (access : A64.TagAccess) (i : A64.Instr) :
    Prop where
  null : t.entry = none → t.compiler.status ≠ .success
  block : ∀ entry, t.entry = some entry → SoundBlock t entry start access i

/-! ### The instruction -/

/-- What the dispatch of a shared instruction comes to, in a block of its own. -/
structure SingleCase (input : TranslateInput) (start : Address) (metadata : Metadata) (i : A64.Instr) :
    Prop where
  untrapped : isTrapped input.engineFlags metadata = false
  branches : metadata.branches = false
  outcome : metadata.outcome = .continues ∨ metadata.outcome = .movesRegister
  refused : IsRefused i → Unsupported metadata (input.memory.word start) ∨
    metadata.irOpcode = .and ∧
      (instructionScript metadata (input.memory.word start) .reset).refusal .reset ≠ none
  served : ¬IsRefused i → ¬Unsupported metadata (input.memory.word start) ∧
    (instructionScript metadata (input.memory.word start) .reset).refusal .reset = none

section Cases

variable {input : TranslateInput} {start : Address} {i : A64.Instr} {metadata : Metadata}

theorem card_pair (a b : Fin 32) : ({a, b} : Finset (Fin 32)).card ≤ 8 :=
  Finset.card_le_two.trans (by decide)

theorem refusal_instructionScript_addSubImm (isSub : Bool) {rd rn : A64.Register} {w : BitVec 32}
    (hopcode : metadata.irOpcode = if isSub then .sub else .add)
    (hregister : isRegister (metadata.operand 3) = false)
    (himmediate : (metadata.operand 2).type = .immediate)
    (hrd : Compiler.registerOperand metadata w 0 = rd) (hrn : Compiler.registerOperand metadata w 1 = rn) :
    (instructionScript metadata w .reset).refusal .reset = none := by
  have hrn' : rn ∈ ({rd, rn} : Finset A64.Register) := by simp
  have hrd' : (Compiler.isSettingFlags metadata && (rd : Nat) == 31) = false →
      rd ∈ ({rd, rn} : Finset A64.Register) := fun _ => by simp
  obtain ⟨p, hp, -⟩ := (RegisterAllocator.reset_low {rd, rn}).planAddSubImm (card_pair rd rn) hrn' hrd'
    isSub (BitVec.ofNat 64 (extractOperandValue w (metadata.operand 2)) <<<
        (if extractOperandValue w (metadata.operand 3) = 1 then 12 else 0))
  rw [← hrd, ← hrn] at hp
  have hscript := Script.refusal_addSubImm hp
  cases isSub <;>
    simp only [instructionScript, hopcode, hregister, himmediate, if_true, Bool.false_eq_true, if_false] <;>
    exact hscript

theorem refusal_instructionScript_movRegister {rd rm : A64.Register} {w : BitVec 32}
    (hopcode : metadata.irOpcode = .mov)
    (hvariant : ¬(metadata.nameAt 3 = 'N' ∨ metadata.nameAt 3 = 'K' ∨ metadata.nameAt 3 = 'Z'))
    (hregister : isRegister (metadata.operand 1) = true)
    (hrd : Compiler.registerOperand metadata w 0 = rd) (hrm : Compiler.registerOperand metadata w 1 = rm) :
    (instructionScript metadata w .reset).refusal .reset = none := by
  have hrm' : rm ∈ ({rd, rm} : Finset A64.Register) := by simp
  have hrd' : rd ∈ ({rd, rm} : Finset A64.Register) := by simp
  obtain ⟨p, hp⟩ := (RegisterAllocator.reset_low {rd, rm}).planMovRegister (card_pair rd rm) hrm' hrd'
  rw [← hrd, ← hrm] at hp
  simp only [instructionScript, hopcode, if_neg hvariant, hregister, if_true]
  exact Script.refusal_movRegister hp

theorem reset_planAnd (rd rn rm : Fin 32) : ∃ p, RegisterAllocator.reset.planAnd rd rn rm = some p := by
  have hrn : rn ∈ ({rd, rn, rm} : Finset (Fin 32)) := by simp
  have hrm : rm ∈ ({rd, rn, rm} : Finset (Fin 32)) := by simp
  have hrd : rd ∈ ({rd, rn, rm} : Finset (Fin 32)) := by simp
  have hcard : ({rd, rn, rm} : Finset (Fin 32)).card ≤ 8 := Finset.card_le_three.trans (by decide)
  obtain ⟨p, hp, -⟩ := (RegisterAllocator.reset_low _).planAnd hcard hrn hrm hrd
  exact ⟨p, hp⟩

/-- **The dispatch of the shared instructions.** -/
theorem singleCase (hgenerated : input.table.Generated)
    (hdecode : A64.decode (input.memory.word start) = some i) (hshared : isShared i = true)
    (hmetadata : balDecodeArm64 input.table (input.memory.word start) = some metadata) :
    SingleCase input start metadata i := by
  cases i with
  | addSubExtended sf op setsFlags rm option imm3 rn rd =>
      simp only [isShared, Bool.and_eq_true] at hshared
      obtain ⟨⟨⟨rfl, -⟩, -⟩, -⟩ := hshared
      obtain ⟨hmetadata', hrd, hrn, -⟩ := decode_addSubExtended hgenerated hdecode
      obtain rfl := Option.some.inj (hmetadata.symm.trans hmetadata')
      have hopcode : (addSubExtendedMetadata op setsFlags).irOpcode = if op then .sub else .add := by
        cases op <;> rfl
      have hserved := refusal_instructionScript_addSubImm op hopcode rfl rfl hrd hrn
      refine ⟨?_, ?_, ?_, False.elim, fun _ => ⟨?_, hserved⟩⟩
      · cases op <;> cases setsFlags <;>
          simp [isTrapped, addSubExtendedMetadata, addSubName, Metadata.nameStarts]
      · cases op <;> rfl
      · cases op <;> exact .inl rfl
      · cases op <;> simp [Unsupported, addSubExtendedMetadata, addSubOpcode, Metadata.operand, isRegister]
  | addSubTags op uimm6 uimm4 rn rd =>
      obtain ⟨rfl, hrd, hrn, -⟩ := decode_addSubTags hgenerated hdecode hmetadata
      have hopcode : (addSubTagsMetadata op).irOpcode = if op then .sub else .add := by
        cases op <;> rfl
      have hserved := refusal_instructionScript_addSubImm op hopcode rfl rfl hrd hrn
      refine ⟨?_, ?_, ?_, False.elim, fun _ => ⟨?_, hserved⟩⟩
      · cases op <;> simp [isTrapped, addSubTagsMetadata, Metadata.nameStarts]
      · cases op <;> rfl
      · cases op <;> exact .inl rfl
      · cases op <;> simp [Unsupported, addSubTagsMetadata, addSubOpcode, Metadata.operand, isRegister]
  | logicalShifted sf opc shift n rm imm6 rn rd =>
      simp only [isShared, Bool.and_eq_true, beq_iff_eq, bne_iff_ne, ne_eq, Bool.not_eq_true'] at hshared
      obtain ⟨⟨⟨⟨⟨rfl, rfl⟩, rfl⟩, -⟩, -⟩, -⟩ := hshared
      obtain ⟨hmetadata', hrd, hrn⟩ := decode_orrShifted hgenerated hdecode
      obtain rfl := Option.some.inj (hmetadata.symm.trans hmetadata')
      exact ⟨by simp [isTrapped, orrShiftedMetadata, Metadata.nameStarts], rfl, .inr rfl, False.elim,
        fun _ => ⟨id, refusal_instructionScript_movRegister rfl (by decide) rfl hrd hrn⟩⟩
  | logicalImm sf opc n immr imms rn rd =>
      simp only [isShared, Bool.and_eq_true, Bool.or_eq_true, beq_iff_eq, bne_iff_ne, ne_eq] at hshared
      obtain ⟨⟨⟨rfl, rfl | rfl⟩, -⟩, -⟩ := hshared
      · obtain ⟨hmetadata', hrd, hrn, himms, hrm⟩ := decode_andImm hgenerated hdecode
        obtain rfl := Option.some.inj (hmetadata.symm.trans hmetadata')
        have hunsupported : Unsupported andImmMetadata (input.memory.word start) ↔ imms ≠ 0 := by
          have hname : andImmMetadata.nameAt 3 ≠ 'S' := by decide
          change andImmMetadata.nameAt 3 = 'S' ∨ extractOperandValue _ _ ≠ 0 ↔ _
          rw [or_iff_right hname, himms, not_iff_not]
          exact ⟨fun h => BitVec.eq_of_toNat_eq h, fun h => by rw [h]; rfl⟩
        refine ⟨by simp [isTrapped, andImmMetadata, Metadata.nameStarts], rfl, .inl rfl, ?_, ?_⟩
        · rintro ⟨-, hsize | hrotation⟩
          · exact .inl (hunsupported.mpr hsize)
          · refine .inr ⟨rfl, ?_⟩
            obtain ⟨n, hn, -⟩ := (RegisterAllocator.reset_low {rn}).allocate
              (by simp) (a := rn) (by simp) false
            have hnone : n.allocator.allocate immr.toNat false = none := by
              rw [RegisterAllocator.allocate, dif_neg (by omega)]
            have hrefusal : (Script.and andImmMetadata (input.memory.word start)).refusal .reset =
                some (refusalError immr.toNat) := by
              simp only [Script.and, Script.refusal, hrn, hn, hrm, hnone]
            change (Script.and andImmMetadata (input.memory.word start)).refusal .reset ≠ none
            rw [hrefusal]
            exact Option.some_ne_none _
        · intro hserved
          rw [IsRefused, not_and, not_or] at hserved
          obtain ⟨hsize, hrotation⟩ := hserved rfl
          refine ⟨fun h => hsize (hunsupported.mp h), ?_⟩
          have hlt : immr.toNat < 32 := by omega
          obtain ⟨p, hp⟩ := reset_planAnd rd rn ⟨immr.toNat, hlt⟩
          have hp' : RegisterAllocator.reset.planAnd
              (Compiler.registerOperand andImmMetadata (input.memory.word start) 0)
              (Compiler.registerOperand andImmMetadata (input.memory.word start) 1)
              (Compiler.registerOperand andImmMetadata (input.memory.word start) 3) = some p := by
            rw [hrd, hrn, hrm]
            exact hp
          exact Script.refusal_and hp'
      · obtain ⟨hmetadata', hrd, hrn⟩ := decode_orrImm hgenerated hdecode
        obtain rfl := Option.some.inj (hmetadata.symm.trans hmetadata')
        have hnot : ¬IsRefused (.logicalImm true 1 n immr imms rn rd) := by simp [IsRefused]
        exact ⟨by simp [isTrapped, orrImmMetadata, Metadata.nameStarts], rfl, .inr rfl,
          fun h => absurd h hnot,
          fun _ => ⟨id, refusal_instructionScript_movRegister rfl (by decide) rfl hrd hrn⟩⟩
  | _ => cases hshared

end Cases

/-! ### The check -/

/-- What fits into the window does not leave it. -/
theorem drain_short {window macros : List Macro}
    (h : window.length + macros.length ≤ slidingWindowCapacity) : (drain window macros).1 = [] := by
  induction macros generalizing window with
  | nil => rfl
  | cons m macros ih =>
      rw [List.length_cons] at h
      have hlength := runPeepholeOptimizer_length window m
      rw [drain, if_neg (by omega)]
      exact ih (by omega)

theorem andOperands_leaving (metadata : Metadata) (w : BitVec 32) {c : Compiler}
    (hwindow : c.window.macros = []) : (Script.andOperands metadata w).leaving c = [] := by
  rw [Script.leaving, hwindow]
  refine drain_short ?_
  simp only [Script.andOperands, Script.pushes]
  split
  · exact Nat.zero_le _
  · next n hn =>
      have hfirst := (RegisterAllocator.allocate_takes hn).length_le
      split
      · simp only [List.append_nil, List.length_nil, slidingWindowCapacity]
        omega
      · next m hm =>
          have hsecond := (RegisterAllocator.allocate_takes hm).length_le
          simp only [List.append_nil, List.length_append, List.length_nil, slidingWindowCapacity]
          omega

section Check

variable {input : TranslateInput} {c : Compiler} {start : Address} {t : Translation} {i : A64.Instr}
  {metadata : Metadata}

/-- The compiler with which the first instruction is translated. -/
theorem Compiler.Enters.entered (h : c.Enters) (hsize : c.assembler.capacity ≤ sizeMax)
    (start : Address) :
    (startState c start).compiler.Ok ∧
      (startState c start).compiler.assembler.offset =
        c.assembler.offset + EmitCall.writtenAll prologueCalls ∧
      (startState c start).compiler.assembler.capacity = c.assembler.capacity := by
  refine ⟨(Compiler.enters_iff hsize).mp h, ?_⟩
  rw [startState_assembler, emitPrologue_calls]
  exact (EmitCall.applyAll_fits _ h.ok.assembler hsize h.fits).2

theorem startState_lowered (start : Address) (hwindow : c.window.macros = []) :
    ∀ m ∈ (startState c start).compiler.window.macros, m.isLowered = true := by
  rw [startState_window, hwindow]
  exact List.forall_mem_nil _

theorem startState_capacity (start : Address) (hsize : c.assembler.capacity ≤ sizeMax) :
    (startState c start).compiler.assembler.capacity ≤ sizeMax := by
  rw [startState_assembler]
  exact ((closed_capacity _).emitPrologue rfl).trans_le hsize

/-- There is room for the code of the instruction if there is room for the calls up to the check. -/
theorem SingleCase.codeFits_iff (h : SingleCase input start metadata i) (henters : c.Enters)
    (hwindow : c.window.macros = []) (hsize : c.assembler.capacity ≤ sizeMax) :
    CodeFits (startState c start).compiler metadata (input.memory.word start) start ↔
      EmitCall.AllFit c.assembler.capacity c.assembler.offset
        (checkedCalls metadata (input.memory.word start)) := by
  obtain ⟨-, hoffset, hcapacity⟩ := henters.entered hsize start
  rw [CodeFits, h.branches, if_neg Bool.false_ne_true, MacrosFit, hoffset, hcapacity, checkedCalls,
    EmitCall.allFit_append, leavingMacros, Script.leaving, startState_window, hwindow]
  exact (and_iff_right henters.fits).symm

/-- A refused instruction stops the block. -/
theorem SingleCase.fails_of_refused (h : SingleCase input start metadata i) (hrefuses : IsRefused i) :
    ∃ error, error ≠ .success ∧ InstructionFails (startState c start).compiler metadata
      (input.memory.word start) start error := by
  by_cases hunsupported : Unsupported metadata (input.memory.word start)
  · exact ⟨_, by decide, .unsupported hunsupported⟩
  · obtain ⟨hand, hrefusal⟩ := (h.refused hrefuses).resolve_left hunsupported
    rw [instructionScript_and hand] at hrefusal
    exact ⟨_, by decide, .operands hunsupported ⟨hand, .inl hrefusal⟩⟩

/-- Any other instruction has its operands. -/
theorem SingleCase.not_lacksOperands (h : SingleCase input start metadata i) (hserves : ¬IsRefused i)
    (hwindow : c.window.macros = []) :
    ¬LacksOperands (startState c start).compiler metadata (input.memory.word start) := by
  obtain ⟨-, hserved⟩ := h.served hserves
  rintro ⟨hand, hrefusal | hshort⟩
  · rw [instructionScript_and hand] at hserved
    exact hrefusal hserved
  · refine hshort ?_
    rw [andOperands_leaving _ _ (by rw [startState_window, hwindow])]
    trivial

theorem SingleCase.not_refused (h : SingleCase input start metadata i) (hserves : ¬IsRefused i)
    (error : BalError) :
    ¬Refused (startState c start).compiler metadata (input.memory.word start) error := by
  rintro ⟨-, hrefusal⟩
  exact Option.some_ne_none _ (hrefusal.symm.trans (h.served hserves).2)

/-- **The check passes** exactly if nothing was wrong before, the instruction is not refused, and
there is room for what is emitted up to there. -/
theorem SingleCase.failure_iff (h : SingleCase input start metadata i) (hwindow : c.window.macros = [])
    (hsize : c.assembler.capacity ≤ sizeMax) :
    ((startState c start).translateOpcode metadata (input.memory.word start)).compiler.failure = .success ↔
      c.Ok ∧ ¬IsRefused i ∧ EmitCall.AllFit c.assembler.capacity c.assembler.offset
        (checkedCalls metadata (input.memory.word start)) := by
  have hlowered := startState_lowered start hwindow
  have hcapacity := startState_capacity start hsize
  constructor
  · intro hpassed
    have hdone : ((startState c start).translateOpcode metadata (input.memory.word start)).compiler.Ok :=
      LoopState.ok_of_not_failed (by
        rw [Bool.eq_false_iff, ne_eq, LoopState.failed_iff, not_not]
        exact hpassed)
    have hok := (LoopState.translateOpcode_ok hdone).1
    have henters : c.Enters := (Compiler.enters_iff hsize).mpr hok
    have hnone : ∀ {error}, error ≠ .success → ¬InstructionFails (startState c start).compiler metadata
        (input.memory.word start) start error := by
      intro error herror hfails
      have hstatus := (Ballistic.failure_iff (s := startState c start) hok hlowered hcapacity herror).mpr hfails
      exact herror (hstatus.symm.trans hpassed)
    have hserves : ¬IsRefused i := by
      intro hrefuses
      obtain ⟨error, herror, hfails⟩ := h.fails_of_refused (c := c) hrefuses
      exact hnone herror hfails
    have hsupported := (h.served hserves).1
    have hlacks := h.not_lacksOperands hserves hwindow
    have hunrefused := h.not_refused (c := c) hserves
    refine ⟨henters.ok, hserves, (h.codeFits_iff henters hwindow hsize).mp ?_⟩
    by_contra hshort
    by_cases hquiet : CodeEndsQuietly (startState c start).compiler metadata (input.memory.word start) start
    · exact hnone (by decide) (.overflow hsupported hlacks hunrefused hquiet)
    · exact hnone (by decide) (.overwritten hsupported hlacks hunrefused hshort hquiet)
  · rintro ⟨hc, hserves, hroom⟩
    have henters : c.Enters := ⟨hc, (EmitCall.allFit_append.mp hroom).1⟩
    have hcode := (h.codeFits_iff henters hwindow hsize).mpr hroom
    by_contra hfailed
    have hok := (henters.entered hsize start).1
    have hfails := (Ballistic.failure_iff (s := startState c start) hok hlowered hcapacity hfailed).mp rfl
    generalize ((startState c start).translateOpcode metadata
      (input.memory.word start)).compiler.failure = error at hfails
    cases hfails with
    | unsupported hyes => exact (h.served hserves).1 hyes
    | operands _ hlacks => exact h.not_lacksOperands hserves hwindow hlacks
    | refused _ _ hrefused => exact h.not_refused hserves _ hrefused
    | overflow _ _ _ hquiet =>
        rw [CodeFits, h.branches, if_neg Bool.false_ne_true] at hcode
        rw [CodeEndsQuietly, h.branches, if_neg Bool.false_ne_true] at hquiet
        exact hquiet.not_fit hcode
    | overwritten _ _ _ hshort => exact hshort hcode

end Check

/-! ### The block -/

section Block

variable {input : TranslateInput} {c : Compiler} {start : Address} {t : Translation} {i : A64.Instr}
  {metadata : Metadata}

/-- Behind the check, the instruction has carried out its script. -/
theorem SingleCase.applies (h : SingleCase input start metadata i) (hwindow : c.window.macros = [])
    (hsize : c.assembler.capacity ≤ sizeMax)
    (hpassed : ((startState c start).translateOpcode metadata
      (input.memory.word start)).compiler.failure = .success) :
    let plan := (instructionScript metadata (input.memory.word start) .reset).plan .reset
    ((startState c start).translateOpcode metadata (input.memory.word start)).compiler =
        (startState c start).compiler.apply plan ∧ ((startState c start).compiler.apply plan).Ok := by
  intro plan
  obtain ⟨-, hserves, -⟩ := (h.failure_iff hwindow hsize).mp hpassed
  obtain ⟨hsupported, hserved⟩ := h.served hserves
  have hdone : ((startState c start).translateOpcode metadata (input.memory.word start)).compiler.Ok :=
    LoopState.ok_of_not_failed (by
      rw [Bool.eq_false_iff, ne_eq, LoopState.failed_iff, not_not]
      exact hpassed)
  have hok := (LoopState.translateOpcode_ok hdone).1
  have hrun : ((startState c start).translateOpcode metadata (input.memory.word start)).compiler =
      (instructionScript metadata (input.memory.word start) .reset).run (startState c start).compiler :=
    translateOpcode_run hok (startState_lowered start hwindow) (startState_capacity start hsize)
      hsupported (h.not_lacksOperands hserves hwindow) h.branches
  obtain ⟨hfailed, hcarried⟩ :=
    (instructionScript metadata (input.memory.word start) .reset).run_spec hok
  have hgood : ((startState c start).compiler.apply plan).Ok := by
    by_contra hbad
    obtain ⟨-, hassembler⟩ := hfailed hbad
    rw [← hrun] at hassembler
    exact Compiler.apply_failed hok hbad
      ((congrArg Assembler.status hassembler).symm.trans hdone.assembler)
  have hresult := hcarried hgood
  have hrefusal : (instructionScript metadata (input.memory.word start) .reset).refusal
      (startState c start).compiler.allocator = none := hserved
  rw [hrefusal] at hresult
  exact ⟨hrun.trans hresult, hgood⟩

/-- The dispatch does not move on. -/
theorem SingleCase.keeps (h : SingleCase input start metadata i)
    (hdone : ((startState c start).translateOpcode metadata (input.memory.word start)).compiler.Ok) :
    ((startState c start).translateOpcode metadata (input.memory.word start)).guestAddress = start ∧
      ((startState c start).translateOpcode metadata (input.memory.word start)).isPcDynamic = false := by
  have hswitch := (LoopState.translateOpcode_ok hdone).2
  rcases h.outcome with houtcome | houtcome <;>
  · simp only [houtcome] at hswitch
    obtain ⟨p, -, hsame⟩ := hswitch
    rw [hsame]
    exact ⟨rfl, rfl⟩

/-- Behind the check the block is at its end. -/
theorem SingleCase.ends (h : SingleCase input start metadata i) (hwindow : c.window.macros = [])
    (hsize : c.assembler.capacity ≤ sizeMax) (hmax : input.maxInstructions = 1) {bytes : Nat}
    (hreadable : Readable input start bytes)
    (hmetadata : balDecodeArm64 input.table (input.memory.word start) = some metadata)
    (hpassed : ((startState c start).translateOpcode metadata
      (input.memory.word start)).compiler.failure = .success) :
    ComesToRet input c start
      (((startState c start).compiler.apply ((instructionScript metadata (input.memory.word start)
        .reset).plan .reset)).restoreBlock start false 1 input.engineFlags) := by
  have hnot : ((startState c start).translateOpcode metadata (input.memory.word start)).failed = false := by
    rw [Bool.eq_false_iff, ne_eq, LoopState.failed_iff, not_not]
    exact hpassed
  have happlies := (h.applies hwindow hsize hpassed).1
  obtain ⟨hkept, hstatic⟩ := h.keeps (LoopState.ok_of_not_failed hnot)
  -- The loops: the readable range, the instruction, the limit.
  obtain ⟨s, hcounts, hlast⟩ := @translateInstruction_counted input start c.assembler.offset 0
    (startState c start) metadata hmetadata h.untrapped
    ((startState c start).translateOpcode metadata (input.memory.word start)) rfl hnot
  rw [if_pos (by omega)] at hlast
  have hend : loopStep input start c.assembler.offset (.forTest 0 (min (bytes / 4) input.maxInstructions))
      (startState c start) = .next .whileTest s.terminate := by
    have hbytes := hreadable.2.1
    rw [loopStep, if_pos (by omega), hlast]
    rfl
  have hreach : Reaches input c start .whileTest s.terminate := (Reaches.readable hreadable).step hend
  obtain ⟨fuel, hloops⟩ := hreach.runLoops_of_exit (loopStep_terminated rfl)
  obtain ⟨hcompiler, haddress, -, hdynamic⟩ := hcounts.eq
  refine ⟨fuel, s.terminate, hloops, ?_⟩
  change _ = s.compiler.restoreBlock s.guestAddress s.isPcDynamic s.armInstructionCount _
  rw [hcompiler, haddress, hdynamic, hcounts.count_eq, hkept, hstatic, happlies,
    LoopState.translateOpcode_count]
  rfl

/-- The calls behind the check, up to the last `ret`. -/
theorem restoreBlock_assembler (c : Compiler) (p : Plan) (flags : EngineFlags) :
    ((c.apply p).restoreBlock start false 1 flags).assembler =
      (storePcCalls start ++ restoreCalls).foldl EmitCall.apply
        (flushMacros c.assembler (lowered c.window.macros (p.macros ++ endMacros flags p.allocator))) := by
  have hpushes : (if flags.has EngineFlags.instructionCounting then
      (c.apply p).push (immediateMacro .addCpuIcount (some .rbp) (BitVec.ofNat 64 1))
      else c.apply p).flushDirtyRegisters =
        c.apply { p with macros := p.macros ++ endMacros flags p.allocator } := by
    unfold Compiler.flushDirtyRegisters endMacros
    split
    · rw [Compiler.apply_push, Compiler.apply_pushAll, List.append_assoc]
      rfl
    · rw [Compiler.apply_pushAll, List.nil_append]
      rfl
  have hflushed : ∀ p' : Plan, (c.apply p').flushAll.assembler =
      flushMacros c.assembler (lowered c.window.macros p'.macros) := fun _ => Compiler.flushAll_lowered
  rw [Compiler.restoreBlock]
  simp only [hpushes, Bool.false_eq_true, if_false, Compiler.onAssembler_assembler, hflushed,
    emitStorePc_calls, List.foldl_append]

/-- **All calls of the block.** -/
theorem SingleCase.status (hwindow : c.window.macros = []) (hok : c.assembler.status = .success)
    (hsize : c.assembler.capacity ≤ sizeMax) {w : BitVec 32} (flags : EngineFlags) :
    ((((startState c start).compiler.apply ((instructionScript metadata w .reset).plan .reset)).restoreBlock
      start false 1 flags).onAssembler Assembler.emitRet).assembler.status = .success ↔
      EmitCall.AllFit c.assembler.capacity c.assembler.offset (singleCalls flags start metadata w) := by
  set script := instructionScript metadata w .reset with hscript
  have hpushes := Script.isLowered_pushes (isLowered_instructionScript metadata w .reset) .reset
  have hend : ∀ m ∈ endMacros flags (script.allocator .reset), m.isLowered = true := by
    refine List.forall_mem_append.mpr ⟨?_, fun m hm => ?_⟩
    · split
      · simp [immediateMacro, Macro.isLowered]
      · exact List.forall_mem_nil _
    · rw [Macro.isLowered, Compiler.dirtyStores_store _ m hm]
  have hlowered : ∀ m ∈ lowered [] (singleMacros metadata w ++ endMacros flags (script.allocator .reset)),
      m.isLowered = true := by
    have hnone : ∀ m ∈ ([] : List Macro), m.isLowered = true := List.forall_mem_nil _
    obtain ⟨hout, hleft⟩ := isLowered_drain hnone (List.forall_mem_append.mpr ⟨hpushes, hend⟩)
    exact List.forall_mem_append.mpr ⟨hout, hleft⟩
  have hmakes := (Makes.emits prologueCalls).trans
    ((Makes.flushMacros hlowered).trans (Makes.emits (storePcCalls start ++ restoreCalls)))
  rw [Compiler.onAssembler_assembler, restoreBlock_assembler, startState_window, hwindow,
    startState_assembler, emitPrologue_calls]
  have hstatus := hmakes.ret_status hok hsize
  rw [singleCalls, ← hscript]
  refine (Eq.congr hstatus rfl).trans ?_
  constructor
  · intro hsuccess
    by_contra hshort
    rw [if_neg hshort] at hsuccess
    split at hsuccess <;> cases hsuccess
  · intro hfits
    rw [if_pos hfits]

/-- Where the word cannot be read, the translation says so. -/
theorem Translates.status_of_unreadable (ht : Translates input c start t)
    (hmax : input.maxInstructions ≠ 0) (hunreadable : ∀ bytes, ¬Readable input start bytes) :
    t.compiler.status ≠ .success := by
  cases hmapped : input.memory.translate start with
  | none =>
      rw [(StopsWith.unmapped ⟨_, .start, rfl, hmapped⟩).status hmax ht]
      decide
  | some bytes =>
      have hunaligned : bytes / 4 = 0 ∨
          (input.engineFlags.has EngineFlags.strictAlignment ∧ start.toNat % 4 ≠ 0) := by
        by_contra hgood
        rw [not_or] at hgood
        exact hunreadable bytes ⟨hmapped, hgood.1, hgood.2⟩
      rw [(StopsWith.unaligned ⟨_, bytes, .start, rfl, hmapped, hunaligned⟩).status hmax ht]
      decide

/-- Where the check fails, the translation says so. -/
theorem SingleCase.status_of_failure (h : SingleCase input start metadata i)
    (ht : Translates input c start t) (hmax : input.maxInstructions ≠ 0) {bytes : Nat}
    (hreadable : Readable input start bytes)
    (hmetadata : balDecodeArm64 input.table (input.memory.word start) = some metadata)
    (hfailed : ((startState c start).translateOpcode metadata
      (input.memory.word start)).compiler.failure ≠ .success) : t.compiler.status ≠ .success := by
  have hbytes := hreadable.2.1
  have hmeets : MeetsInstruction input c start (startState c start) metadata :=
    ⟨0, _, .readable hreadable, by omega, hmetadata, h.untrapped⟩
  rw [(StopsWith.refused hmeets ((LoopState.failed_iff _).mpr hfailed)).status hmax ht]
  exact hfailed

theorem checksWithRoom_iff
    (hmetadata : balDecodeArm64 input.table (input.memory.word start) = some metadata) :
    ChecksWithRoom input c start ↔ EmitCall.AllFit c.assembler.capacity c.assembler.offset
      (checkedCalls metadata (input.memory.word start)) := by
  simp only [ChecksWithRoom, hmetadata, Option.some.injEq, exists_eq_left']

theorem fitsWhole_iff
    (hmetadata : balDecodeArm64 input.table (input.memory.word start) = some metadata) :
    FitsWhole input c start ↔ EmitCall.AllFit c.assembler.capacity c.assembler.offset
      (singleCalls input.engineFlags start metadata (input.memory.word start)) := by
  simp only [FitsWhole, hmetadata, Option.some.injEq, exists_eq_left']

/-- **Opcodes that share a translator.** The translation of a block of one such instruction keeps what
is promised exactly if something was wrong before, the word cannot be read, the instruction is refused,
there is no room for what is emitted before the check, or there is room for everything and the slots
agree. -/
theorem dispatchSound_iff (hreachable : c.Reachable) (hsize : c.assembler.capacity ≤ sizeMax)
    (hgenerated : input.table.Generated) (hmax : input.maxInstructions = 1)
    (hdecode : A64.decode (input.memory.word start) = some i) (hshared : isShared i = true)
    (access : A64.TagAccess) (ht : Translates input c start t) :
    DispatchSound t start access i ↔
      ¬c.Ok ∨ (∀ bytes, ¬Readable input start bytes) ∨ IsRefused i ∨ ¬ChecksWithRoom input c start ∨
        FitsWhole input c start ∧ SlotsAgree access i := by
  have hwindow := hreachable.window
  have hmax' : input.maxInstructions ≠ 0 := by omega
  have hfailed : t.compiler.status ≠ .success → DispatchSound t start access i := by
    intro hstatus
    refine ⟨fun _ => hstatus, fun entry hentry => ?_⟩
    rw [ht.entry_none hstatus] at hentry
    cases hentry
  by_cases hunreadable : ∀ bytes, ¬Readable input start bytes
  · exact iff_of_true (hfailed (ht.status_of_unreadable hmax' hunreadable)) (.inr (.inl hunreadable))
  obtain ⟨bytes, hreadable⟩ := not_forall_not.mp hunreadable
  obtain ⟨metadata, hmetadata⟩ := ht.decodes hmax' hreadable
  have hcase := singleCase hgenerated hdecode hshared hmetadata
  rw [checksWithRoom_iff hmetadata, fitsWhole_iff hmetadata]
  by_cases hpassed : ((startState c start).translateOpcode metadata
      (input.memory.word start)).compiler.failure = .success
  swap
  · refine iff_of_true (hfailed (hcase.status_of_failure ht hmax' hreadable hmetadata hpassed)) ?_
    by_contra hnone
    simp only [not_or, not_not] at hnone
    obtain ⟨hok, -, hserves, hroom, -⟩ := hnone
    exact hpassed ((hcase.failure_iff hwindow hsize).mpr ⟨hok, hserves, hroom⟩)
  obtain ⟨hok, hserves, hroom⟩ := (hcase.failure_iff hwindow hsize).mp hpassed
  rw [or_iff_right (not_not.mpr hok), or_iff_right hunreadable, or_iff_right hserves,
    or_iff_right (not_not.mpr hroom)]
  have hcomes := hcase.ends hwindow hsize hmax hreadable hmetadata hpassed
  have hgood := (hcase.applies hwindow hsize hpassed).2
  obtain ⟨x, hx, htx, hentry⟩ := ht.comesToRet hmax'
  rw [hx.unique hcomes] at htx hentry
  have hsuccess : t.compiler.status = .success := by
    rw [htx, ← Compiler.terminateBlock_eq, Compiler.terminateBlock_status, hgood.status]
  have hfits : _ ↔ EmitCall.AllFit c.assembler.capacity c.assembler.offset
      (singleCalls input.engineFlags start metadata (input.memory.word start)) :=
    SingleCase.status hwindow hok.assembler hsize input.engineFlags
  constructor
  · rintro ⟨hnull, hblock⟩
    cases hresult : t.entry with
    | none => exact absurd hsuccess (hnull hresult)
    | some entry =>
        have hdone := not_not.mp (mt hentry.mpr (by rw [hresult]; exact Option.some_ne_none entry))
        exact ⟨hfits.mp hdone.assembler, (Succeeds.slots_sound_iff ⟨ht, hresult⟩ hreachable hgenerated
          hmax hdecode hshared access).mp (hblock entry hresult)⟩
  · rintro ⟨hall, hagree⟩
    refine ⟨fun hnull => ?_, fun entry hresult => ?_⟩
    · refine absurd ?_ (hentry.mp hnull)
      exact ⟨(congrArg Compiler.status htx).symm.trans hsuccess, hfits.mpr hall⟩
    · exact (Succeeds.slots_sound_iff ⟨ht, hresult⟩ hreachable hgenerated hmax hdecode hshared
        access).mpr hagree

end Block

/-- The block of `ORR X0, X1, X1` copies `X1`, in a buffer that has room for it. -/
theorem dispatchSound_iff_orr : ∃ t,
    Translates (.ofWords 0x1000 [0xAA010020] 1) (.fresh 256) 0x1000 t ∧
      DispatchSound t 0x1000 ⟨false, 0⟩ (.logicalShifted true 1 0 false 1 0 1 0) := by
  obtain ⟨t, -, h⟩ := succeeds_of_eval (.ofWords 0x1000 [0xAA010020] 1) (.fresh 256) 0x1000 6
    (show _ = some 0 by decide)
  refine ⟨t, h.translates, (dispatchSound_iff (Compiler.fresh_reachable (by decide)) (by decide)
    generatedTable_generated rfl (by decide) (by decide) ⟨false, 0⟩ h.translates).mpr ?_⟩
  exact .inr (.inr (.inr (.inr ⟨⟨orrShiftedMetadata, by decide, by decide⟩, rfl, rfl⟩)))

/-- In a buffer of forty bytes there is room up to the check and not for the whole block: `NULL`, with
the status success. -/
theorem silent_orr : ∃ t,
    Translates (.ofWords 0x1000 [0xAA010020] 1) (.fresh 40) 0x1000 t ∧ t.entry = none ∧
      t.compiler.status = .success ∧
      ¬DispatchSound t 0x1000 ⟨false, 0⟩ (.logicalShifted true 1 0 false 1 0 1 0) := by
  have hrun : (balTier1CompilerTranslate (.ofWords 0x1000 [0xAA010020] 1) (.fresh 40) 0x1000 6).map
      (fun t => (t.entry, t.compiler.status)) = some (none, .success) := by decide
  obtain ⟨t, ht, hresult⟩ := Option.map_eq_some_iff.mp hrun
  simp only [Prod.mk.injEq] at hresult
  exact ⟨t, ⟨6, ht⟩, hresult.1, hresult.2, fun h => h.null hresult.1 hresult.2⟩

end Ballistic
