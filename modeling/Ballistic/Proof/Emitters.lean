import Ballistic.Proof.Lowering

/-!
# Sequences of emitter calls

`EmitCall` has one constructor for every `bal_x86_emit_*` function. A call is the common frame of
the emitters applied to an encoding, so a fact about all emitters is a fact about `Assembler.emit`
together with one look at the encodings: what instruction they are, and whether they are as long as
the room that was asked for.
-/

namespace Ballistic

open Machine Machine.X86

/-- A call of a `bal_x86_emit_*` function with its arguments. -/
inductive EmitCall where
  | addMem64RbpOffsetImm (offset immediate : BitVec 32)
  | andR64R64 (destination source : X86Register)
  | jmpR64 (reg : X86Register)
  | jmpRel32 (offset : BitVec 32)
  | loadR64RbpOffset (destination : X86Register) (offset : BitVec 32)
  | loadR64FromR64 (destination base : X86Register)
  | storeR64RbpOffset (source : X86Register) (offset : BitVec 32)
  | movR64R64 (destination source : X86Register)
  | movR64Imm64 (destination : X86Register) (immediate : BitVec 64)
  | ret
  | orR64R64 (destination source : X86Register)
  | rorR64Imm8 (destination : X86Register) (immediate : Byte)
  | sarR64Imm8 (destination : X86Register) (immediate : Byte)
  | shlR64Imm8 (destination : X86Register) (immediate : Byte)
  | shrR64Imm8 (destination : X86Register) (immediate : Byte)
  | pushR64 (reg : X86Register)
  | popR64 (reg : X86Register)
  | setccMem8RbpOffset (condition : Condition) (offset : BitVec 32)
  | jccRel32 (condition : Condition) (offset : BitVec 32)
  | addR64R64 (destination source : X86Register)
  | subR64R64 (destination source : X86Register)
  | addR64Imm32 (destination : X86Register) (immediate : BitVec 32)
  | testR64R64 (destination source : X86Register)
  | xorR64R64 (destination source : X86Register)
  | subR64Imm32 (destination : X86Register) (immediate : BitVec 32)
  | cmpMem8RbpOffsetImm (offset : BitVec 32) (immediate : Byte)
  | ud2

namespace EmitCall

def apply (a : Assembler) : EmitCall → Assembler
  | addMem64RbpOffsetImm offset immediate => a.emitAddMem64RbpOffsetImm offset immediate
  | andR64R64 destination source => a.emitAndR64R64 destination source
  | jmpR64 reg => a.emitJmpR64 reg
  | jmpRel32 offset => a.emitJmpRel32 offset
  | loadR64RbpOffset destination offset => a.emitLoadR64RbpOffset destination offset
  | loadR64FromR64 destination base => a.emitLoadR64FromR64 destination base
  | storeR64RbpOffset source offset => a.emitStoreR64RbpOffset source offset
  | movR64R64 destination source => a.emitMovR64R64 destination source
  | movR64Imm64 destination immediate => a.emitMovR64Imm64 destination immediate
  | ret => a.emitRet
  | orR64R64 destination source => a.emitOrR64R64 destination source
  | rorR64Imm8 destination immediate => a.emitRorR64Imm8 destination immediate
  | sarR64Imm8 destination immediate => a.emitSarR64Imm8 destination immediate
  | shlR64Imm8 destination immediate => a.emitShlR64Imm8 destination immediate
  | shrR64Imm8 destination immediate => a.emitShrR64Imm8 destination immediate
  | pushR64 reg => a.emitPushR64 reg
  | popR64 reg => a.emitPopR64 reg
  | setccMem8RbpOffset condition offset => a.emitSetccMem8RbpOffset condition offset
  | jccRel32 condition offset => a.emitJccRel32 condition offset
  | addR64R64 destination source => a.emitAddR64R64 destination source
  | subR64R64 destination source => a.emitSubR64R64 destination source
  | addR64Imm32 destination immediate => a.emitAddR64Imm32 destination immediate
  | testR64R64 destination source => a.emitTestR64R64 destination source
  | xorR64R64 destination source => a.emitXorR64R64 destination source
  | subR64Imm32 destination immediate => a.emitSubR64Imm32 destination immediate
  | cmpMem8RbpOffsetImm offset immediate => a.emitCmpMem8RbpOffsetImm offset immediate
  | ud2 => a.emitUd2

/-- The instruction a call stands for; none when it has an argument the function refuses: an invalid
register or a shift of more than 63. -/
def instr : EmitCall → Option Instr
  | addMem64RbpOffsetImm offset immediate => some (.addMemImm offset immediate)
  | andR64R64 destination source => destination.bind fun d => source.map (.alu .and d)
  | jmpR64 reg => reg.map .jmp
  | jmpRel32 offset => some (.jmpRel offset)
  | loadR64RbpOffset destination offset => destination.map (.load · offset)
  | loadR64FromR64 destination base => destination.bind fun d => base.map (.loadFrom d)
  | storeR64RbpOffset source offset => source.map (.store · offset)
  | movR64R64 destination source => destination.bind fun d => source.map (.mov d)
  | movR64Imm64 destination immediate => destination.map (.movImm · immediate)
  | ret => some .ret
  | orR64R64 destination source => destination.bind fun d => source.map (.alu .or d)
  | rorR64Imm8 destination immediate => shifted .ror destination immediate
  | sarR64Imm8 destination immediate => shifted .sar destination immediate
  | shlR64Imm8 destination immediate => shifted .shl destination immediate
  | shrR64Imm8 destination immediate => shifted .shr destination immediate
  | pushR64 reg => reg.map .push
  | popR64 reg => reg.map .pop
  | setccMem8RbpOffset condition offset => some (.setcc condition offset)
  | jccRel32 condition offset => some (.jcc condition offset)
  | addR64R64 destination source => destination.bind fun d => source.map (.alu .add d)
  | subR64R64 destination source => destination.bind fun d => source.map (.alu .sub d)
  | addR64Imm32 destination immediate => destination.map (.addImm · immediate)
  | testR64R64 destination source => destination.bind fun d => source.map (.test d)
  | xorR64R64 destination source => destination.bind fun d => source.map (.alu .xor d)
  | subR64Imm32 destination immediate => destination.map (.subImm · immediate)
  | cmpMem8RbpOffsetImm offset immediate => some (.cmpMem8 offset immediate)
  | ud2 => some .ud2
where
  shifted (op : ShiftOp) (destination : X86Register) (immediate : Byte) : Option Instr :=
    destination.bind fun d => if 63 < immediate.toNat then none else some (.shift op d immediate)

/-- The calls that replace the status of a failed assembler by `INVALID_ARGUMENT`. -/
def poisons : EmitCall → Bool
  | movR64R64 _ _ | movR64Imm64 _ _ | ret | orR64R64 _ _ | pushR64 _ | popR64 _
  | setccMem8RbpOffset _ _ | jccRel32 _ _ | addR64R64 _ _ | subR64R64 _ _ | addR64Imm32 _ _
  | xorR64R64 _ _ => true
  | _ => false

/-- The calls that put a prefix before an instruction they asked room for without one. -/
def undercounts : EmitCall → Bool
  | pushR64 (some reg) | popR64 (some reg) | jmpR64 (some reg) => decide (7 < reg.number)
  | _ => false

/-- The size such a call asks for. -/
def shortSize : EmitCall → Nat
  | jmpR64 _ => 2
  | _ => 1

end EmitCall

/-! ### Encodings of calls -/

/-- `encoding` is what an emitter writes for `i`, with `extra` bytes it did not ask room for. -/
inductive IsEncoding (extra : Nat) : Option Instr → Option Encoding → Prop
  | refused : IsEncoding extra none none
  | encoded {i : Instr} {e : Encoding} (hencodes : Encodes i e.bytes)
      (hlength : e.bytes.length = e.instructionSizeBytes + extra) :
      IsEncoding extra (some i) (some e)

namespace IsEncoding

open Assembler

theorem length_eq {extra : Nat} {i : Option Instr} {e : Encoding} (h : IsEncoding extra i (some e)) :
    e.bytes.length = e.instructionSizeBytes + extra := by
  cases h with
  | encoded _ hlength => exact hlength

theorem encodes {extra : Nat} {i : Instr} {encoding : Option Encoding}
    (h : IsEncoding extra (some i) encoding) : ∃ e, encoding = some e ∧ Encodes i e.bytes := by
  cases h with
  | encoded hencodes _ => exact ⟨_, rfl, hencodes⟩

theorem registerForm {opcode : Byte} {i : Reg → Reg → Instr}
    (hencodes : ∀ d s : Reg, Encodes (i d s)
      [rex 1 (d.number / 8) (s.number / 8), opcode, modrmRegister d.number s.number])
    (reg rm : X86Register) :
    IsEncoding 0 (reg.bind fun d => rm.map (i d)) (registerForm opcode reg rm) := by
  cases reg with
  | none => exact refused
  | some d =>
      cases rm with
      | none => exact refused
      | some s => exact encoded (hencodes d s) rfl

theorem frameForm {opcode : Byte} {i : Reg → BitVec 32 → Instr}
    (hencodes : ∀ (d : Reg) (offset : BitVec 32), Encodes (i d offset)
      ([rex 1 (d.number / 8) 0, opcode, modrmMemoryDisp32Rbp d.number] ++ bytes32 offset))
    (reg : X86Register) (offset : BitVec 32) :
    IsEncoding 0 (reg.map (i · offset)) (frameForm opcode reg offset) := by
  cases reg with
  | none => exact refused
  | some d => exact encoded (hencodes d offset) rfl

theorem stackForm {opcode : Byte} {i : Reg → Instr}
    (hencodes : ∀ d : Reg, Encodes (i d)
      ((if 7 < d.number then [rex 0 0 (d.number / 8)] else []) ++
        [opcode + BitVec.ofNat 8 (d.number % 8)])) (d : Reg) :
    IsEncoding (if 7 < d.number then 1 else 0) (some (i d)) (stackForm opcode (some d)) := by
  refine encoded (hencodes d) ?_
  by_cases hhigh : 7 < d.number
  · simp only [if_pos hhigh]
    rfl
  · simp only [if_neg hhigh]
    rfl

theorem immediateForm {extension : Nat} {i : Reg → BitVec 32 → Instr}
    (hencodes : ∀ (d : Reg) (v : BitVec 32), Encodes (i d v)
      ([rex 1 0 (d.number / 8), if fitIn8Bits v then 0x83 else 0x81,
          modrmRegister extension d.number] ++
        if fitIn8Bits v then [v.setWidth 8] else bytes32 v))
    (reg : X86Register) (v : BitVec 32) :
    IsEncoding 0 (reg.map (i · v)) (immediateForm extension reg v) := by
  cases reg with
  | none => exact refused
  | some d =>
      refine encoded (hencodes d v) ?_
      by_cases hfits : fitIn8Bits v = true
      · simp only [if_pos hfits]
        rfl
      · simp only [if_neg hfits]
        rfl

theorem loadFrom (destination base : X86Register) :
    ∃ encoding, IsEncoding 0 (destination.bind fun d => base.map (.loadFrom d)) encoding ∧
      ∀ a : Assembler, a.emitLoadR64FromR64 destination base = a.emit false encoding := by
  refine ⟨_, ?_, fun a => rfl⟩
  cases destination with
  | none => exact refused
  | some d =>
      cases base with
      | none => exact refused
      | some b =>
          have hencodes := encodes_loadFrom d b
          by_cases hsib : b.number % 8 = 4
          · rw [if_pos hsib] at hencodes
            simp only [Option.bind_some, Option.map_some, if_pos hsib]
            exact encoded hencodes rfl
          · by_cases hdisp : b.number % 8 = 5
            · rw [if_neg hsib, if_pos hdisp] at hencodes
              simp only [Option.bind_some, Option.map_some, if_neg hsib, if_pos hdisp]
              exact encoded hencodes rfl
            · rw [if_neg hsib, if_neg hdisp] at hencodes
              simp only [Option.bind_some, Option.map_some, if_neg hsib, if_neg hdisp]
              exact encoded hencodes rfl

theorem movImm (destination : X86Register) (v : BitVec 64) :
    ∃ encoding, IsEncoding 0 (destination.map (.movImm · v)) encoding ∧
      ∀ a : Assembler, a.emitMovR64Imm64 destination v = a.emit true encoding := by
  refine ⟨_, ?_, fun a => rfl⟩
  cases destination with
  | none => exact refused
  | some d =>
      have hencodes := encodes_movImm d v
      by_cases hsmall : v.toNat ≤ 0xFFFFFFFF
      · rw [if_pos hsmall] at hencodes
        simp only [Option.map_some, if_pos hsmall]
        refine encoded hencodes ?_
        by_cases hhigh : 0 < d.number / 8
        · simp only [if_pos hhigh]
          rfl
        · simp only [if_neg hhigh]
          rfl
      · rw [if_neg hsmall] at hencodes
        simp only [Option.map_some, if_neg hsmall]
        exact encoded hencodes rfl

theorem shift {op : ShiftOp} (extension : BitVec 3) (hop : ShiftOp.ofExtension extension = some op)
    (destination : X86Register) (v : Byte) :
    ∃ encoding, IsEncoding 0 (EmitCall.instr.shifted op destination v) encoding ∧
      ∀ a : Assembler, a.emitShiftR64Imm8 destination v extension.toNat = a.emit false encoding := by
  refine ⟨_, ?_, fun a => rfl⟩
  cases destination with
  | none => exact refused
  | some d =>
      have hextension := extension.isLt
      by_cases hlarge : 63 < v.toNat
      · simp only [EmitCall.instr.shifted, Option.bind_some, if_pos hlarge]
        rw [if_pos (Or.inl hlarge)]
        exact refused
      · simp only [EmitCall.instr.shifted, Option.bind_some, if_neg hlarge]
        rw [if_neg (by omega)]
        exact encoded (encodes_shift hop d v) rfl

theorem addMem (offset v : BitVec 32) :
    ∃ encoding, IsEncoding 0 (some (.addMemImm offset v)) encoding ∧
      ∀ a : Assembler, a.emitAddMem64RbpOffsetImm offset v = a.emit false encoding := by
  by_cases hfits : (decide (-128 ≤ v.toInt) && decide (v.toInt ≤ 127)) = true
  · refine ⟨some ⟨8, [rex 1 0 0, 0x83, modrmMemoryDisp32Rbp 0] ++ bytes32 offset ++
      [v.setWidth 8]⟩, encoded ?_ rfl, fun a => ?_⟩
    · refine encodes_addMemImm offset v true fun _ => ?_
      rwa [Bool.and_eq_true, decide_eq_true_eq, decide_eq_true_eq] at hfits
    · simp only [emitAddMem64RbpOffsetImm, if_pos hfits]
  · refine ⟨some ⟨11, [rex 1 0 0, 0x81, modrmMemoryDisp32Rbp 0] ++ bytes32 offset ++ bytes32 v⟩,
      encoded (encodes_addMemImm offset v false fun h => nomatch h) rfl, fun a => ?_⟩
    simp only [emitAddMem64RbpOffsetImm, if_neg hfits]

theorem jmp (d : Reg) :
    ∃ e, IsEncoding (if 7 < d.number then 1 else 0) (some (.jmp d)) (some e) ∧
      e.instructionSizeBytes = 2 ∧
      ∀ a : Assembler, a.emitJmpR64 (some d) = a.emit false (some e) := by
  refine ⟨_, encoded (encodes_jmp d) ?_, ?_, fun a => rfl⟩
  · by_cases hhigh : 7 < d.number
    · simp only [if_pos hhigh]
      rfl
    · simp only [if_neg hhigh]
      rfl
  · rfl

end IsEncoding

namespace EmitCall

/-- Every call is the common frame applied to an encoding of its instruction, and the encoding is
one byte longer than the room asked for exactly for the calls that undercount. -/
theorem apply_eq_emit (call : EmitCall) :
    ∃ encoding, IsEncoding call.undercounts.toNat call.instr encoding ∧
      (call.undercounts = true → ∀ e ∈ encoding, e.instructionSizeBytes = call.shortSize) ∧
      ∀ a, call.apply a = a.emit call.poisons encoding := by
  cases call with
  | addMem64RbpOffsetImm offset v =>
      obtain ⟨encoding, hencoding, hemit⟩ := IsEncoding.addMem offset v
      exact ⟨encoding, hencoding, nofun, hemit⟩
  | andR64R64 d s => exact ⟨_, .registerForm (encodes_alu .and) d s, nofun, fun a => rfl⟩
  | jmpR64 reg =>
      cases reg with
      | none => exact ⟨none, .refused, nofun, fun a => rfl⟩
      | some d =>
          obtain ⟨e, hencoding, hsize, hemit⟩ := IsEncoding.jmp d
          refine ⟨some e, ?_, fun _ e' he' => ?_, hemit⟩
          · by_cases hhigh : 7 < d.number <;> simpa [undercounts, hhigh, instr] using hencoding
          · obtain rfl := Option.some.inj he'
            exact hsize
  | jmpRel32 offset => exact ⟨_, .encoded (encodes_jmpRel offset) rfl, nofun, fun a => rfl⟩
  | loadR64RbpOffset d offset => exact ⟨_, .frameForm encodes_load d offset, nofun, fun a => rfl⟩
  | loadR64FromR64 d b =>
      obtain ⟨encoding, hencoding, hemit⟩ := IsEncoding.loadFrom d b
      exact ⟨encoding, hencoding, nofun, hemit⟩
  | storeR64RbpOffset s offset =>
      exact ⟨_, .frameForm encodes_store s offset, nofun, fun a => rfl⟩
  | movR64R64 d s => exact ⟨_, .registerForm encodes_mov d s, nofun, fun a => rfl⟩
  | movR64Imm64 d v =>
      obtain ⟨encoding, hencoding, hemit⟩ := IsEncoding.movImm d v
      exact ⟨encoding, hencoding, nofun, hemit⟩
  | ret => exact ⟨_, .encoded encodes_ret rfl, nofun, fun a => rfl⟩
  | orR64R64 d s => exact ⟨_, .registerForm (encodes_alu .or) d s, nofun, fun a => rfl⟩
  | rorR64Imm8 d v =>
      obtain ⟨encoding, hencoding, hemit⟩ := IsEncoding.shift 1 rfl d v
      exact ⟨encoding, hencoding, nofun, hemit⟩
  | sarR64Imm8 d v =>
      obtain ⟨encoding, hencoding, hemit⟩ := IsEncoding.shift 7 rfl d v
      exact ⟨encoding, hencoding, nofun, hemit⟩
  | shlR64Imm8 d v =>
      obtain ⟨encoding, hencoding, hemit⟩ := IsEncoding.shift 4 rfl d v
      exact ⟨encoding, hencoding, nofun, hemit⟩
  | shrR64Imm8 d v =>
      obtain ⟨encoding, hencoding, hemit⟩ := IsEncoding.shift 5 rfl d v
      exact ⟨encoding, hencoding, nofun, hemit⟩
  | pushR64 reg =>
      cases reg with
      | none => exact ⟨none, .refused, nofun, fun a => rfl⟩
      | some d =>
          refine ⟨Assembler.stackForm 0x50 (some d), ?_, fun _ e he => ?_, fun a => rfl⟩
          · have hencoding := IsEncoding.stackForm encodes_push d
            by_cases hhigh : 7 < d.number <;> simpa [undercounts, hhigh, instr] using hencoding
          · obtain rfl := Option.some.inj he
            rfl
  | popR64 reg =>
      cases reg with
      | none => exact ⟨none, .refused, nofun, fun a => rfl⟩
      | some d =>
          refine ⟨Assembler.stackForm 0x58 (some d), ?_, fun _ e he => ?_, fun a => rfl⟩
          · have hencoding := IsEncoding.stackForm encodes_pop d
            by_cases hhigh : 7 < d.number <;> simpa [undercounts, hhigh, instr] using hencoding
          · obtain rfl := Option.some.inj he
            rfl
  | setccMem8RbpOffset condition offset =>
      exact ⟨_, .encoded (encodes_setcc condition offset) rfl, nofun, fun a => rfl⟩
  | jccRel32 condition offset =>
      exact ⟨_, .encoded (encodes_jcc condition offset) rfl, nofun, fun a => rfl⟩
  | addR64R64 d s => exact ⟨_, .registerForm (encodes_alu .add) d s, nofun, fun a => rfl⟩
  | subR64R64 d s => exact ⟨_, .registerForm (encodes_alu .sub) d s, nofun, fun a => rfl⟩
  | addR64Imm32 d v => exact ⟨_, .immediateForm encodes_addImm d v, nofun, fun a => rfl⟩
  | testR64R64 d s =>
      refine ⟨_, ?_, nofun, fun a => rfl⟩
      have hencoding := IsEncoding.registerForm (fun s d => encodes_test d s) s d
      cases d <;> cases s <;> exact hencoding
  | xorR64R64 d s => exact ⟨_, .registerForm (encodes_alu .xor) d s, nofun, fun a => rfl⟩
  | subR64Imm32 d v => exact ⟨_, .immediateForm encodes_subImm d v, nofun, fun a => rfl⟩
  | cmpMem8RbpOffsetImm offset v =>
      exact ⟨_, .encoded (encodes_cmpMem8 offset v) rfl, nofun, fun a => rfl⟩
  | ud2 => exact ⟨_, .encoded encodes_ud2 rfl, nofun, fun a => rfl⟩

end EmitCall

/-! ### Round trip -/

/-- The bytes an assembler has gained. -/
def Assembler.appended (a a' : Assembler) : List Byte :=
  (List.range (a'.offset - a.offset)).map fun k => a'.buffer (a.offset + k)

theorem Assembler.appended_write (a : Assembler) (bytes : List Byte) :
    a.appended (a.write bytes) = bytes := by
  have hbytes := bytesAt_storeBytes a.buffer a.offset bytes
  apply List.ext_getElem
  · simp [appended, write]
  · intro k _ hk
    simp only [appended, write, List.getElem_map, List.getElem_range]
    exact hbytes k hk

theorem Assembler.canEmit_iff (a : Assembler) (size : Nat) :
    a.canEmit size = true ↔ size ≤ sizeMax - a.offset ∧ a.offset + size ≤ a.capacity := by
  simp only [canEmit, Bool.and_eq_true, Bool.not_eq_true', decide_eq_false_iff_not, not_lt]

/-- **Round trip.** With sixteen bytes of room a call appends one instruction, the one it is named
after. -/
theorem emitCall_roundTrip (call : EmitCall) {i : Instr} (hvalid : call.instr = some i)
    {a : Assembler} (hstatus : a.status = .success) (hroom : a.offset + 16 ≤ a.capacity)
    (hcapacity : a.capacity ≤ sizeMax) :
    (call.apply a).status = .success ∧ Encodes i (a.appended (call.apply a)) := by
  obtain ⟨encoding, hencoding, -, hemit⟩ := call.apply_eq_emit
  rw [hvalid] at hencoding
  obtain ⟨e, rfl, hencodes⟩ := hencoding.encodes
  have hlength := hencoding.length_eq
  have hfits : a.canEmit e.instructionSizeBytes = true := by
    have hshort := hencodes.1
    rw [a.canEmit_iff]
    omega
  have hwrite : call.apply a = a.write e.bytes := by
    rw [hemit, Assembler.emit, if_neg (not_not.mpr hstatus)]
    exact if_pos hfits
  rw [hwrite, a.appended_write]
  exact ⟨hstatus, hencodes⟩

theorem emitCall_roundTrip_load :
    let a : Assembler := ⟨fun _ => 0, 64, 48, .success⟩
    let call := EmitCall.loadR64FromR64 (some .r9) (some .r13)
    (call.apply a).status = .success ∧
      Encodes (.loadFrom .r9 .r13) (a.appended (call.apply a)) :=
  emitCall_roundTrip _ rfl rfl (by decide) (by decide)

/-! ### Room -/

/-- What a call must do to stay inside the buffer: every byte it writes has an index below the
capacity, bytes from there on keep their value, and the offset does not pass the capacity. -/
structure StepInside (a a' : Assembler) : Prop where
  written : ∀ i, a.offset ≤ i → i < a'.offset → i < a.capacity
  beyond : ∀ i, a.capacity ≤ i → a'.buffer i = a.buffer i
  offset_le : a'.offset ≤ a'.capacity

/-- Every call of a sequence stays inside the buffer. -/
def StaysInside (a : Assembler) : List EmitCall → Prop
  | [] => True
  | call :: calls => StepInside a (call.apply a) ∧ StaysInside (call.apply a) calls

/-- A call for `r8` to `r15` whose short form just fits. -/
def Overruns (a : Assembler) (call : EmitCall) : Prop :=
  a.status = .success ∧ call.undercounts = true ∧ a.offset + call.shortSize = a.capacity

def NeverOverruns (a : Assembler) : List EmitCall → Prop
  | [] => True
  | call :: calls => ¬Overruns a call ∧ NeverOverruns (call.apply a) calls

/-- An emitter either writes its bytes or leaves all but the status alone. -/
theorem Assembler.emit_cases (a : Assembler) (poisons : Bool) (encoding : Option Encoding) :
    (∃ e, encoding = some e ∧ a.status = .success ∧ a.canEmit e.instructionSizeBytes = true ∧
      a.emit poisons encoding = a.write e.bytes) ∨
    ((a.status = .success → ∀ e ∈ encoding, ¬a.canEmit e.instructionSizeBytes = true) ∧
      ∃ status, a.emit poisons encoding = { a with status := status }) := by
  unfold emit
  by_cases hstatus : a.status = .success
  · rw [if_neg (not_not.mpr hstatus)]
    cases encoding with
    | none => exact .inr ⟨nofun, _, rfl⟩
    | some e =>
        by_cases hroom : a.canEmit e.instructionSizeBytes = true
        · exact .inl ⟨e, rfl, hstatus, hroom, if_pos hroom⟩
        · refine .inr ⟨fun _ e' he' => ?_, .instructionOverflow, if_neg hroom⟩
          rwa [← Option.some.inj he']
  · rw [if_pos hstatus]
    refine .inr ⟨fun hsuccess => absurd hsuccess hstatus, ?_⟩
    cases poisons
    · exact ⟨a.status, rfl⟩
    · exact ⟨.invalidArgument, rfl⟩

theorem EmitCall.apply_capacity (call : EmitCall) (a : Assembler) :
    (call.apply a).capacity = a.capacity := by
  obtain ⟨encoding, -, -, hemit⟩ := call.apply_eq_emit
  rw [hemit]
  obtain ⟨e, -, -, -, hwrite⟩ | ⟨-, status, hkept⟩ := a.emit_cases call.poisons encoding
  · rw [hwrite]
    rfl
  · rw [hkept]

theorem stepInside_write {a : Assembler} {bytes : List Byte} :
    StepInside a (a.write bytes) ↔ a.offset + bytes.length ≤ a.capacity := by
  refine ⟨fun h => h.offset_le, fun hfits => ⟨fun i _ hi => ?_, fun i hi => ?_, hfits⟩⟩
  · exact Nat.lt_of_lt_of_le hi hfits
  · have hbeyond : bytes.length ≤ i - a.offset := by omega
    change storeBytes a.buffer a.offset bytes i = a.buffer i
    rw [storeBytes, if_pos (by omega), List.getD_eq_getElem?_getD,
      List.getElem?_eq_none hbeyond, Option.getD_none]

theorem stepInside_status {a : Assembler} (hoffset : a.offset ≤ a.capacity) (status : BalError) :
    StepInside a { a with status := status } :=
  ⟨fun _ hlo hhi => absurd hhi (by simpa using hlo), fun _ _ => rfl, hoffset⟩

theorem EmitCall.instr_of_undercounts {call : EmitCall} (h : call.undercounts = true) :
    ∃ i, call.instr = some i := by
  cases call with
  | pushR64 reg | popR64 reg | jmpR64 reg =>
      cases reg with
      | none => cases h
      | some d => exact ⟨_, rfl⟩
  | _ => cases h

/-- One call, on an assembler that has not run over. -/
theorem stepInside_iff {a : Assembler} (hoffset : a.offset ≤ a.capacity)
    (hcapacity : a.capacity ≤ sizeMax) (call : EmitCall) :
    StepInside a (call.apply a) ↔ ¬Overruns a call := by
  obtain ⟨encoding, hencoding, hshort, hemit⟩ := call.apply_eq_emit
  rw [hemit]
  obtain ⟨e, he, hstatus, hroom, hwrite⟩ | ⟨hrefused, status, hkept⟩ :=
    a.emit_cases call.poisons encoding
  · rw [hwrite, stepInside_write]
    rw [a.canEmit_iff] at hroom
    have hlength := IsEncoding.length_eq (he ▸ hencoding)
    cases hunder : call.undercounts with
    | true =>
        have hsize := hshort hunder e he
        rw [hunder, Bool.toNat_true] at hlength
        simp only [Overruns, hstatus, hunder, true_and]
        omega
    | false =>
        rw [hunder, Bool.toNat_false] at hlength
        refine iff_of_true (by omega) ?_
        rintro ⟨-, htrue, -⟩
        rw [hunder] at htrue
        cases htrue
  · rw [hkept]
    refine iff_of_true (stepInside_status hoffset status) ?_
    rintro ⟨hstatus, hunder, hfull⟩
    obtain ⟨i, hi⟩ := EmitCall.instr_of_undercounts hunder
    rw [hi] at hencoding
    obtain ⟨e, rfl, -⟩ := hencoding.encodes
    have hsize := hshort hunder e rfl
    apply hrefused hstatus e rfl
    rw [a.canEmit_iff]
    omega

theorem staysInside_iff_neverOverruns (calls : List EmitCall) :
    ∀ {a : Assembler}, a.offset ≤ a.capacity → a.capacity ≤ sizeMax →
      (StaysInside a calls ↔ NeverOverruns a calls) := by
  induction calls with
  | nil =>
      intro a _ _
      exact Iff.rfl
  | cons call calls ih =>
      intro a hoffset hcapacity
      have hstep := stepInside_iff hoffset hcapacity call
      have hsize := call.apply_capacity a
      constructor
      · rintro ⟨hinside, hrest⟩
        exact ⟨hstep.mp hinside, (ih hinside.offset_le (hsize ▸ hcapacity)).mp hrest⟩
      · rintro ⟨hnot, hrest⟩
        have hinside := hstep.mpr hnot
        exact ⟨hinside, (ih hinside.offset_le (hsize ▸ hcapacity)).mpr hrest⟩

/-- **Emission stays inside the buffer** in exactly the runs in which no `push`, `pop` or `jmp` of
`r8` to `r15` comes when the form without a prefix just fits. -/
theorem staysInside_iff {buffer : Nat → Byte} {size : Nat} (hsize : size ≤ sizeMax) {a : Assembler}
    (hinit : Assembler.init buffer size = some a) (calls : List EmitCall) :
    StaysInside a calls ↔ NeverOverruns a calls := by
  unfold Assembler.init at hinit
  split at hinit
  · cases hinit
  · obtain rfl := Option.some.inj hinit
    exact staysInside_iff_neverOverruns calls (Nat.zero_le _) hsize

theorem staysInside_iff_push :
    let a : Assembler := ⟨fun _ => 0, 2, 0, .success⟩
    let calls := [EmitCall.pushR64 (some .r12), .ret]
    Assembler.init (fun _ => 0) 2 = some a ∧ (StaysInside a calls ↔ NeverOverruns a calls) :=
  ⟨rfl, staysInside_iff (by decide) (show Assembler.init _ 2 = some _ from rfl) _⟩

/-- `push r12` writes two bytes into a buffer of one. -/
theorem overruns_push_r12 :
    ∃ a, Assembler.init (fun _ => 0) 1 = some a ∧
      ¬StaysInside a [EmitCall.pushR64 (some .r12)] ∧
      ((EmitCall.pushR64 (some .r12)).apply a).offset = 2 ∧
      ((EmitCall.pushR64 (some .r12)).apply a).buffer 1 = 0x54 := by
  refine ⟨_, rfl, ?_, rfl, rfl⟩
  rintro ⟨hinside, -⟩
  exact absurd hinside.offset_le (by decide)

/-! ### First failures -/

namespace EmitCall

theorem apply_failed (call : EmitCall) {a : Assembler} (h : a.status ≠ .success) :
    call.apply a = if call.poisons then { a with status := .invalidArgument } else a := by
  obtain ⟨encoding, -, -, hemit⟩ := call.apply_eq_emit
  rw [hemit]
  unfold Assembler.emit
  rw [if_pos h]

theorem applyAll_failed (calls : List EmitCall) {a : Assembler} (h : a.status ≠ .success) :
    calls.foldl EmitCall.apply a =
      if calls.any poisons then { a with status := .invalidArgument } else a := by
  induction calls generalizing a with
  | nil => rfl
  | cons call calls ih =>
      rw [List.foldl_cons, call.apply_failed h, List.any_cons]
      cases hpoisons : call.poisons with
      | false =>
          simp only [Bool.false_eq_true, if_false, Bool.false_or]
          exact ih h
      | true =>
          have hfailed : ({ a with status := .invalidArgument } : Assembler).status ≠ .success := nofun
          simp only [if_true, Bool.true_or]
          rw [ih hfailed]
          split <;> rfl

/-- A call that is the first to fail was refused for its arguments, or found no room. -/
theorem apply_first_failure (call : EmitCall) {a : Assembler} (ha : a.status = .success)
    (h : (call.apply a).status ≠ .success) :
    (call.apply a).status = if call.instr = none then .invalidArgument else .instructionOverflow := by
  obtain ⟨encoding, hencoding, -, hemit⟩ := call.apply_eq_emit
  rw [hemit] at h ⊢
  unfold Assembler.emit at h ⊢
  rw [if_neg (not_not.mpr ha)] at h ⊢
  generalize call.instr = instr at hencoding ⊢
  cases hencoding with
  | refused => rfl
  | encoded _ _ =>
      simp only [reduceCtorEq, if_false] at h ⊢
      split
      · next hroom =>
          rw [if_pos hroom] at h
          exact absurd ha h
      · rfl

end EmitCall

/-- The calls after the first one that fails write nothing, do not move the offset and do not change
the status. -/
def KeepsFirstFailure (a : Assembler) (calls : List EmitCall) : Prop :=
  ∀ before call after, calls = before ++ call :: after →
    (before.foldl EmitCall.apply a).status = .success →
    (call.apply (before.foldl EmitCall.apply a)).status ≠ .success →
    ∀ more rest, after = more ++ rest →
      more.foldl EmitCall.apply (call.apply (before.foldl EmitCall.apply a)) =
        call.apply (before.foldl EmitCall.apply a)

/-- **First failures are kept** exactly in the sequences in which the first call that fails is refused
for its arguments, or no later call is one of those that overwrite the status. -/
theorem keepsFirstFailure_iff (a : Assembler) (calls : List EmitCall) :
    KeepsFirstFailure a calls ↔
      ∀ before call after, calls = before ++ call :: after →
        (before.foldl EmitCall.apply a).status = .success →
        (call.apply (before.foldl EmitCall.apply a)).status ≠ .success →
        call.instr = none ∨ ∀ later ∈ after, later.poisons = false := by
  constructor
  · intro hkeeps before call after hcalls hbefore hfails
    have hfinal := hkeeps before call after hcalls hbefore hfails after [] (List.append_nil _).symm
    rw [EmitCall.applyAll_failed after hfails] at hfinal
    by_cases hpoisons : after.any EmitCall.poisons = true
    · rw [if_pos hpoisons] at hfinal
      have hstatus := (congrArg Assembler.status hfinal).symm
      rw [call.apply_first_failure hbefore hfails] at hstatus
      refine .inl ?_
      by_contra hinstr
      rw [if_neg hinstr] at hstatus
      cases hstatus
    · refine .inr fun later hlater => ?_
      rw [Bool.not_eq_true, List.any_eq_false] at hpoisons
      exact Bool.eq_false_iff.mpr (hpoisons later hlater)
  · intro hcondition before call after hcalls hbefore hfails more rest hafter
    rw [EmitCall.applyAll_failed more hfails]
    split
    · next hpoisons =>
        rcases hcondition before call after hcalls hbefore hfails with hinstr | hnone
        · have hstatus := call.apply_first_failure hbefore hfails
          rw [if_pos hinstr] at hstatus
          rw [← hstatus]
        · obtain ⟨later, hlater, hpoison⟩ := List.any_eq_true.mp hpoisons
          have hmem : later ∈ after := hafter ▸ List.mem_append_left rest hlater
          exact absurd (hnone later hmem) (by simp [hpoison])
    · rfl

/-- An overflow is followed by a `ret`. -/
theorem overflow_poisoned :
    let a : Assembler := ⟨fun _ => 0, 4, 0, .success⟩
    let calls := [EmitCall.loadR64RbpOffset (some .rax) 0, .ret]
    ([EmitCall.loadR64RbpOffset (some .rax) 0].foldl EmitCall.apply a).status =
        .instructionOverflow ∧
      (calls.foldl EmitCall.apply a).status = .invalidArgument ∧ ¬KeepsFirstFailure a calls := by
  refine ⟨by decide, by decide, fun hkeeps => ?_⟩
  have hfinal := congrArg Assembler.status
    (hkeeps [] (.loadR64RbpOffset (some .rax) 0) [.ret] rfl rfl (by decide) [.ret] [] rfl)
  exact absurd hfinal (by decide)

end Ballistic
