import Ballistic.Assembler
import Ballistic.Machine.X86Code

/-!
# The emitted bytes are encodings

Every byte sequence that an emitter writes is decoded by the reference decoder as the instruction
the emitter is named after. The register fields are settled once, for the `REX` and `ModRM` bytes;
the rest of each proof follows the opcode through the decoder.
-/

namespace Ballistic

open Machine Machine.X86

/-! ### Immediates -/

@[simp]
theorem word32_bytes (v : BitVec 32) :
    word32 (v.extractLsb' 0 8) (v.extractLsb' 8 8) (v.extractLsb' 16 8) (v.extractLsb' 24 8) = v := by
  exact Memory.append_bytes32 v

@[simp]
theorem word64_bytes (v : BitVec 64) :
    word64 (v.extractLsb' 0 8) (v.extractLsb' 8 8) (v.extractLsb' 16 8) (v.extractLsb' 24 8)
      (v.extractLsb' 32 8) (v.extractLsb' 40 8) (v.extractLsb' 48 8) (v.extractLsb' 56 8) = v := by
  exact Memory.append_bytes64 v

/-- An immediate in the signed 8-bit range is recovered from its low byte. -/
theorem signExtend_low_byte {v : BitVec 32} (hlo : -128 ≤ v.toInt) (hhi : v.toInt ≤ 127) :
    (v.setWidth 8).signExtend 32 = v := by
  apply BitVec.eq_of_toInt_eq
  rw [BitVec.toInt_signExtend_of_le (by decide), BitVec.toInt_setWidth]
  have hv := BitVec.toInt_eq_toNat_cond v
  have hlt := v.isLt
  simp only [Int.bmod_def]
  split at hv <;> split <;> omega

theorem fitIn8Bits_bounds {v : BitVec 32} (h : fitIn8Bits v = true) :
    -128 ≤ v.toInt ∧ v.toInt ≤ 127 := by
  simp only [fitIn8Bits, Bool.and_eq_true, decide_eq_true_eq] at h
  omega

theorem setWidth_setWidth_of_le_max {v : BitVec 64} (h : v.toNat ≤ 0xFFFFFFFF) :
    (v.setWidth 32).setWidth 64 = v := by
  apply BitVec.eq_of_toNat_eq
  simp only [BitVec.toNat_setWidth]
  omega

/-! ### Prefixes and operand bytes -/

section Operands

variable (w r b : Nat)

@[simp]
theorem rex_high : (rex w r b).extractLsb' 4 4 = 4 := by
  unfold rex
  rcases Nat.mod_two_eq_zero_or_one w with hw | hw <;>
    rcases Nat.mod_two_eq_zero_or_one r with hr | hr <;>
      rcases Nat.mod_two_eq_zero_or_one b with hb | hb <;> rw [hw, hr, hb] <;> rfl

@[simp]
theorem rexW_rex_one : rexW (rex 1 r b) = true := by
  unfold rex
  rcases Nat.mod_two_eq_zero_or_one r with hr | hr <;>
    rcases Nat.mod_two_eq_zero_or_one b with hb | hb <;> rw [hr, hb] <;> rfl

@[simp]
theorem rexW_rex_zero : rexW (rex 0 r b) = false := by
  unfold rex
  rcases Nat.mod_two_eq_zero_or_one r with hr | hr <;>
    rcases Nat.mod_two_eq_zero_or_one b with hb | hb <;> rw [hr, hb] <;> rfl

@[simp]
theorem rexB_rex (reg : Reg) : rexB (rex w r (reg.number / 8)) = decide (7 < reg.number) := by
  unfold rex
  rcases Nat.mod_two_eq_zero_or_one w with hw | hw <;>
    rcases Nat.mod_two_eq_zero_or_one r with hr | hr <;> rw [hw, hr] <;> cases reg <;> rfl

@[simp]
theorem regOperand_register (d s : Reg) :
    regOperand (rex 1 (d.number / 8) (s.number / 8)) (modrmRegister d.number s.number) = some d := by
  cases d <;> cases s <;> rfl

@[simp]
theorem rmOperand_register (d s : Reg) :
    rmOperand (rex 1 (d.number / 8) (s.number / 8)) (modrmRegister d.number s.number) = some s := by
  cases d <;> cases s <;> rfl

theorem rmOperand_extension (e : BitVec 3) (d : Reg) :
    rmOperand (rex 1 0 (d.number / 8)) (modrmRegister e.toNat d.number) = some d ∧
      (modrmRegister e.toNat d.number).extractLsb' 3 3 = e ∧
      (modrmRegister e.toNat d.number).extractLsb' 6 2 = 3 := by
  cases d <;> revert e <;> decide

@[simp]
theorem modrmRegister_mode (d s : Reg) :
    (modrmRegister d.number s.number).extractLsb' 6 2 = 3 := by
  cases d <;> cases s <;> rfl

@[simp]
theorem regOperand_frame (d : Reg) :
    regOperand (rex 1 (d.number / 8) 0) (modrmMemoryDisp32Rbp d.number) = some d := by
  cases d <;> rfl

theorem frame_fields (d : Reg) :
    (modrmMemoryDisp32Rbp d.number).extractLsb' 6 2 = 2 ∧
      isFrameOperand (rex 1 (d.number / 8) 0) (modrmMemoryDisp32Rbp d.number) = true := by
  cases d <;> decide

end Operands

theorem decode_rex (w r b : Nat) (rest : List Byte) :
    decode (rex w r b :: rest) =
      (decodeOpcode (rex w r b) rest).map fun p => (p.1, p.2 + 1) := by
  rw [decode, if_pos (rex_high w r b)]

/-! ### The decoder by opcode -/

/-- The opcode of the register form of each operation. -/
def aluOpcode : AluOp → Byte
  | .add => 0x03
  | .or => 0x0B
  | .and => 0x23
  | .sub => 0x2B
  | .xor => 0x33

section Opcodes

variable {p : Byte} (m : Byte) (rest : List Byte)

theorem decodeOpcode_alu (op : AluOp) (hwide : rexW p = true) :
    decodeOpcode p (aluOpcode op :: m :: rest) =
      (regOperand p m).bind fun d => (rmOperand p m).bind fun s => some (.alu op d s, 2) := by
  cases op <;> simp only [decodeOpcode, aluOpcode, hwide] <;> rfl

theorem decodeOpcode_test (hwide : rexW p = true) :
    decodeOpcode p (0x85 :: m :: rest) =
      (regOperand p m).bind fun s => (rmOperand p m).bind fun d => some (.test d s, 2) := by
  simp only [decodeOpcode, hwide]
  rfl

theorem decodeOpcode_store (d0 d1 d2 d3 : Byte) (hwide : rexW p = true)
    (hframe : isFrameOperand p m = true) :
    decodeOpcode p (0x89 :: m :: d0 :: d1 :: d2 :: d3 :: rest) =
      (regOperand p m).bind fun s => some (.store s (word32 d0 d1 d2 d3), 6) := by
  simp only [decodeOpcode, hwide, hframe]
  rfl

theorem decodeOpcode_shift (i : Byte) (hwide : rexW p = true) :
    decodeOpcode p (0xC1 :: m :: i :: rest) =
      (rmOperand p m).bind fun d => (ShiftOp.ofExtension (m.extractLsb' 3 3)).bind fun op =>
        some (.shift op d i, 3) := by
  simp only [decodeOpcode, hwide]
  rfl

theorem decodeOpcode_imm32 (i0 i1 i2 i3 : Byte) (hwide : rexW p = true)
    (hregister : isFrameOperand p m = false) :
    decodeOpcode p (0x81 :: m :: i0 :: i1 :: i2 :: i3 :: rest) =
      (decodeImmediate p m (word32 i0 i1 i2 i3)).map fun i => (i, 6) := by
  simp only [decodeOpcode, hwide, hregister]
  rfl

theorem decodeOpcode_imm8 (i : Byte) (hwide : rexW p = true)
    (hregister : isFrameOperand p m = false) :
    decodeOpcode p (0x83 :: m :: i :: rest) =
      (decodeImmediate p m (i.signExtend 32)).map fun i => (i, 3) := by
  simp only [decodeOpcode, hwide, hregister]
  rfl

theorem decodeOpcode_movImm32 (d : Reg) (i0 i1 i2 i3 : Byte) (hnarrow : rexW p = false)
    (hb : rexB p = decide (7 < d.number)) :
    decodeOpcode p ((0xB8 + BitVec.ofNat 8 (d.number % 8)) :: i0 :: i1 :: i2 :: i3 :: rest) =
      some (.movImm d ((word32 i0 i1 i2 i3).setWidth 64), 5) := by
  simp only [decodeOpcode, hnarrow, hb]
  cases d <;> rfl

theorem decodeOpcode_movImm64 (d : Reg) (i0 i1 i2 i3 i4 i5 i6 i7 : Byte) (hwide : rexW p = true)
    (hb : rexB p = decide (7 < d.number)) :
    decodeOpcode p ((0xB8 + BitVec.ofNat 8 (d.number % 8)) ::
        i0 :: i1 :: i2 :: i3 :: i4 :: i5 :: i6 :: i7 :: rest) =
      some (.movImm d (word64 i0 i1 i2 i3 i4 i5 i6 i7), 9) := by
  simp only [decodeOpcode, hwide, hb]
  cases d <;> rfl

theorem decodeOpcode_push (d : Reg) (hb : rexB p = decide (7 < d.number)) :
    decodeOpcode p ((0x50 + BitVec.ofNat 8 (d.number % 8)) :: rest) = some (.push d, 1) := by
  simp only [decodeOpcode, hb]
  cases d <;> rfl

theorem decodeOpcode_pop (d : Reg) (hb : rexB p = decide (7 < d.number)) :
    decodeOpcode p ((0x58 + BitVec.ofNat 8 (d.number % 8)) :: rest) = some (.pop d, 1) := by
  simp only [decodeOpcode, hb]
  cases d <;> rfl

end Opcodes

/-! ### Encodings -/

theorem registerForm_eq_some {opcode : Byte} {reg rm : X86Register} {e : Encoding}
    (h : Assembler.registerForm opcode reg rm = some e) :
    ∃ d s, reg = some d ∧ rm = some s ∧
      e.bytes = [rex 1 (d.number / 8) (s.number / 8), opcode, modrmRegister d.number s.number] := by
  simp only [Assembler.registerForm, Option.bind_eq_some_iff, Option.map_eq_some_iff] at h
  obtain ⟨d, hd, s, hs, rfl⟩ := h
  exact ⟨d, s, hd, hs, rfl⟩

theorem encodes_alu (op : AluOp) (d s : Reg) :
    Encodes (.alu op d s)
      [rex 1 (d.number / 8) (s.number / 8), aluOpcode op, modrmRegister d.number s.number] := by
  refine ⟨by simp, fun rest => ?_⟩
  simp only [List.cons_append, List.nil_append, decode_rex]
  rw [decodeOpcode_alu _ _ _ (rexW_rex_one ..)]
  simp

theorem encodes_mov (d s : Reg) :
    Encodes (.mov d s)
      [rex 1 (d.number / 8) (s.number / 8), 0x8B, modrmRegister d.number s.number] := by
  refine ⟨by simp, fun rest => ?_⟩
  simp only [List.cons_append, List.nil_append, decode_rex]
  rw [decodeOpcode_load (rexW_rex_one ..)]
  simp [decodeLoad]

theorem encodes_test (d s : Reg) :
    Encodes (.test d s)
      [rex 1 (s.number / 8) (d.number / 8), 0x85, modrmRegister s.number d.number] := by
  refine ⟨by simp, fun rest => ?_⟩
  simp only [List.cons_append, List.nil_append, decode_rex]
  rw [decodeOpcode_test _ _ (rexW_rex_one ..)]
  simp

theorem encodes_load (d : Reg) (offset : BitVec 32) :
    Encodes (.load d offset)
      ([rex 1 (d.number / 8) 0, 0x8B, modrmMemoryDisp32Rbp d.number] ++ bytes32 offset) := by
  refine ⟨by simp [bytes32], fun rest => ?_⟩
  simp only [bytes32, List.cons_append, List.nil_append, decode_rex]
  rw [decodeOpcode_load (rexW_rex_one ..)]
  simp [decodeLoad, (frame_fields d).1, (frame_fields d).2]

/-- The bases with the low bits of `rsp` need a `SIB` byte, those with the low bits of `rbp` a
displacement. -/
theorem encodes_loadFrom (d b : Reg) :
    Encodes (.loadFrom d b)
      ([rex 1 (d.number / 8) (b.number / 8), 0x8B] ++
        if b.number % 8 = 4 then [BitVec.ofNat 8 (d.number % 8) <<< 3 ||| 4, 0x24]
        else if b.number % 8 = 5 then [0x40 ||| BitVec.ofNat 8 (d.number % 8) <<< 3 ||| 5, 0x00]
        else [BitVec.ofNat 8 (d.number % 8) <<< 3 ||| BitVec.ofNat 8 (b.number % 8)]) := by
  refine ⟨by split_ifs <;> simp, fun rest => ?_⟩
  simp only [List.cons_append, List.nil_append, decode_rex]
  rw [decodeOpcode_load (rexW_rex_one ..)]
  cases b <;> cases d <;> rfl

theorem encodes_store (d : Reg) (offset : BitVec 32) :
    Encodes (.store d offset)
      ([rex 1 (d.number / 8) 0, 0x89, modrmMemoryDisp32Rbp d.number] ++ bytes32 offset) := by
  refine ⟨by simp [bytes32], fun rest => ?_⟩
  simp only [bytes32, List.cons_append, List.nil_append, decode_rex]
  rw [decodeOpcode_store _ _ _ _ _ _ (rexW_rex_one ..) (frame_fields d).2]
  simp

theorem encodes_shift {op : ShiftOp} {e : BitVec 3} (hop : ShiftOp.ofExtension e = some op) (d : Reg)
    (i : Byte) :
    Encodes (.shift op d i)
      [rex 1 0 (d.number / 8), 0xC1, modrmRegister e.toNat d.number, i] := by
  obtain ⟨hrm, hextension, -⟩ := rmOperand_extension e d
  refine ⟨by simp, fun rest => ?_⟩
  simp only [List.cons_append, List.nil_append, decode_rex]
  rw [decodeOpcode_shift _ _ _ (rexW_rex_one ..), hrm, hextension, hop]
  simp

/-- The two immediate forms decode to the same instruction. -/
theorem encodes_immediateForm {e : BitVec 3} {d : Reg} {v : BitVec 32} {i : Instr}
    (hdecode : decodeImmediate (rex 1 0 (d.number / 8)) (modrmRegister e.toNat d.number) v = some i) :
    Encodes i
      ([rex 1 0 (d.number / 8), if fitIn8Bits v then 0x83 else 0x81,
          modrmRegister e.toNat d.number] ++
        if fitIn8Bits v then [v.setWidth 8] else bytes32 v) := by
  obtain ⟨-, -, hmode⟩ := rmOperand_extension e d
  have hregister : isFrameOperand (rex 1 0 (d.number / 8)) (modrmRegister e.toNat d.number) = false := by
    simp [isFrameOperand, hmode]
  by_cases hfits : fitIn8Bits v = true
  · simp only [hfits, if_true]
    refine ⟨by simp, fun rest => ?_⟩
    obtain ⟨hlo, hhi⟩ := fitIn8Bits_bounds hfits
    simp only [List.cons_append, List.nil_append, decode_rex]
    rw [decodeOpcode_imm8 _ _ _ (rexW_rex_one ..) hregister, signExtend_low_byte hlo hhi, hdecode]
    simp
  · simp only [hfits, if_false, Bool.false_eq_true]
    refine ⟨by simp [bytes32], fun rest => ?_⟩
    simp only [bytes32, List.cons_append, List.nil_append, decode_rex]
    rw [decodeOpcode_imm32 _ _ _ _ _ _ (rexW_rex_one ..) hregister, word32_bytes, hdecode]
    simp

theorem encodes_addImm (d : Reg) (v : BitVec 32) :
    Encodes (.addImm d v)
      ([rex 1 0 (d.number / 8), if fitIn8Bits v then 0x83 else 0x81, modrmRegister 0 d.number] ++
        if fitIn8Bits v then [v.setWidth 8] else bytes32 v) := by
  refine encodes_immediateForm (e := 0) ?_
  cases d <;> rfl

theorem encodes_subImm (d : Reg) (v : BitVec 32) :
    Encodes (.subImm d v)
      ([rex 1 0 (d.number / 8), if fitIn8Bits v then 0x83 else 0x81, modrmRegister 5 d.number] ++
        if fitIn8Bits v then [v.setWidth 8] else bytes32 v) := by
  refine encodes_immediateForm (e := 5) ?_
  cases d <;> rfl

theorem encodes_movImm (d : Reg) (v : BitVec 64) :
    Encodes (.movImm d v)
      (if v.toNat ≤ 0xFFFFFFFF then
        (if 0 < d.number / 8 then [rex 0 0 (d.number / 8)] else []) ++
          (0xB8 + BitVec.ofNat 8 (d.number % 8)) :: bytes32 (v.setWidth 32)
      else rex 1 0 (d.number / 8) :: (0xB8 + BitVec.ofNat 8 (d.number % 8)) :: bytes64 v) := by
  by_cases hsmall : v.toNat ≤ 0xFFFFFFFF
  · simp only [hsmall, if_true]
    by_cases hhigh : 0 < d.number / 8
    · simp only [hhigh, if_true]
      refine ⟨by simp [bytes32], fun rest => ?_⟩
      simp only [bytes32, List.cons_append, List.nil_append, decode_rex]
      rw [decodeOpcode_movImm32 _ _ _ _ _ _ (rexW_rex_zero ..) (rexB_rex ..), word32_bytes,
        setWidth_setWidth_of_le_max hsmall]
      simp
    · simp only [hhigh, if_false]
      refine ⟨by simp [bytes32], fun rest => ?_⟩
      have hplain : ∀ tail, decode ((0xB8 + BitVec.ofNat 8 (d.number % 8)) :: tail) =
          decodeOpcode 0x40 ((0xB8 + BitVec.ofNat 8 (d.number % 8)) :: tail) := by
        cases d <;> exact fun _ => rfl
      have hlow : rexB 0x40 = decide (7 < d.number) := by
        rw [decide_eq_false (by omega)]
        rfl
      simp only [bytes32, List.cons_append, List.nil_append, hplain]
      rw [decodeOpcode_movImm32 _ _ _ _ _ _ rfl hlow, word32_bytes,
        setWidth_setWidth_of_le_max hsmall]
      simp
  · simp only [hsmall, if_false]
    refine ⟨by simp [bytes64], fun rest => ?_⟩
    simp only [bytes64, List.cons_append, List.nil_append, decode_rex]
    rw [decodeOpcode_movImm64 _ _ _ _ _ _ _ _ _ _ (rexW_rex_one ..) (rexB_rex ..), word64_bytes]
    simp

/-- The bytes of `push` and `pop`: a prefix for the high registers only. -/
theorem encodes_stack {opcode : Byte} {instr : Reg → Instr}
    (hdecode : ∀ (p : Byte) (rest : List Byte) (d : Reg), rexB p = decide (7 < d.number) →
      decodeOpcode p ((opcode + BitVec.ofNat 8 (d.number % 8)) :: rest) = some (instr d, 1))
    (hplain : ∀ d : Reg, (opcode + BitVec.ofNat 8 (d.number % 8)).extractLsb' 4 4 ≠ 4) (d : Reg) :
    Encodes (instr d)
      ((if 7 < d.number then [rex 0 0 (d.number / 8)] else []) ++
        [opcode + BitVec.ofNat 8 (d.number % 8)]) := by
  by_cases hhigh : 7 < d.number
  · simp only [hhigh, if_true]
    refine ⟨by simp, fun rest => ?_⟩
    simp only [List.cons_append, List.nil_append, decode_rex]
    rw [hdecode _ _ _ (rexB_rex ..)]
    simp
  · simp only [hhigh, if_false]
    refine ⟨by simp, fun rest => ?_⟩
    have hlow : rexB 0x40 = decide (7 < d.number) := by
      rw [decide_eq_false hhigh]
      rfl
    simp only [List.nil_append, List.cons_append]
    rw [decode, if_neg (hplain d), hdecode _ _ _ hlow]
    simp

theorem encodes_push (d : Reg) :
    Encodes (.push d)
      ((if 7 < d.number then [rex 0 0 (d.number / 8)] else []) ++
        [0x50 + BitVec.ofNat 8 (d.number % 8)]) :=
  encodes_stack (fun _ rest d h => decodeOpcode_push rest d h) (fun d => by cases d <;> decide) d

theorem encodes_pop (d : Reg) :
    Encodes (.pop d)
      ((if 7 < d.number then [rex 0 0 (d.number / 8)] else []) ++
        [0x58 + BitVec.ofNat 8 (d.number % 8)]) :=
  encodes_stack (fun _ rest d h => decodeOpcode_pop rest d h) (fun d => by cases d <;> decide) d

theorem encodes_ret : Encodes .ret [0xC3] := ⟨by simp, fun _ => rfl⟩

theorem encodes_ud2 : Encodes .ud2 [0x0F, 0x0B] := ⟨by simp, fun _ => rfl⟩

theorem encodes_setcc (condition : Condition) (offset : BitVec 32) :
    Encodes (.setcc condition offset)
      ([0x0F, 0x90 + BitVec.ofNat 8 condition.number, modrmMemoryDisp32Rbp 0] ++ bytes32 offset) := by
  refine ⟨by simp [bytes32], fun rest => ?_⟩
  have hbytes : ∀ d0 d1 d2 d3 : Byte,
      decode ([0x0F, 0x90 + BitVec.ofNat 8 condition.number, modrmMemoryDisp32Rbp 0, d0, d1, d2, d3] ++
        rest) = some (.setcc condition (word32 d0 d1 d2 d3), 7) := by
    intro d0 d1 d2 d3
    cases condition <;> rfl
  have h := hbytes (offset.extractLsb' 0 8) (offset.extractLsb' 8 8) (offset.extractLsb' 16 8)
    (offset.extractLsb' 24 8)
  rwa [word32_bytes] at h

theorem encodes_jcc (condition : Condition) (offset : BitVec 32) :
    Encodes (.jcc condition offset)
      ([0x0F, 0x80 + BitVec.ofNat 8 condition.number] ++ bytes32 offset) := by
  refine ⟨by simp [bytes32], fun rest => ?_⟩
  have hbytes : ∀ d0 d1 d2 d3 : Byte,
      decode ([0x0F, 0x80 + BitVec.ofNat 8 condition.number, d0, d1, d2, d3] ++ rest) =
        some (.jcc condition (word32 d0 d1 d2 d3), 6) := by
    intro d0 d1 d2 d3
    cases condition <;> rfl
  have h := hbytes (offset.extractLsb' 0 8) (offset.extractLsb' 8 8) (offset.extractLsb' 16 8)
    (offset.extractLsb' 24 8)
  rwa [word32_bytes] at h

theorem encodes_jmpRel (offset : BitVec 32) :
    Encodes (.jmpRel offset) (0xE9 :: bytes32 offset) := by
  refine ⟨by simp [bytes32], fun rest => ?_⟩
  have hbytes : ∀ d0 d1 d2 d3 : Byte,
      decode ([0xE9, d0, d1, d2, d3] ++ rest) = some (.jmpRel (word32 d0 d1 d2 d3), 5) :=
    fun _ _ _ _ => rfl
  have h := hbytes (offset.extractLsb' 0 8) (offset.extractLsb' 8 8) (offset.extractLsb' 16 8)
    (offset.extractLsb' 24 8)
  rwa [word32_bytes] at h

theorem encodes_jmp (d : Reg) :
    Encodes (.jmp d)
      ((if 7 < d.number then [rex 0 0 (d.number / 8)] else []) ++ [0xFF, modrmRegister 4 d.number]) := by
  refine ⟨by split <;> simp, fun rest => ?_⟩
  cases d <;> rfl

theorem encodes_cmpMem8 (offset : BitVec 32) (i : Byte) :
    Encodes (.cmpMem8 offset i)
      ([rex 0 0 0, 0x80, modrmMemoryDisp32Rbp 7] ++ bytes32 offset ++ [i]) := by
  refine ⟨by simp [bytes32], fun rest => ?_⟩
  have hbytes : ∀ d0 d1 d2 d3 : Byte,
      decode ([rex 0 0 0, 0x80, modrmMemoryDisp32Rbp 7, d0, d1, d2, d3, i] ++ rest) =
        some (.cmpMem8 (word32 d0 d1 d2 d3) i, 8) := fun _ _ _ _ => rfl
  have h := hbytes (offset.extractLsb' 0 8) (offset.extractLsb' 8 8) (offset.extractLsb' 16 8)
    (offset.extractLsb' 24 8)
  rwa [word32_bytes] at h

theorem encodes_addMemImm (offset v : BitVec 32) (fits : Bool)
    (hfits : fits = true → -128 ≤ v.toInt ∧ v.toInt ≤ 127) :
    Encodes (.addMemImm offset v)
      ([rex 1 0 0, if fits then 0x83 else 0x81, modrmMemoryDisp32Rbp 0] ++ bytes32 offset ++
        if fits then [v.setWidth 8] else bytes32 v) := by
  cases fits with
  | true =>
      refine ⟨by simp [bytes32], fun rest => ?_⟩
      have hbytes : ∀ d0 d1 d2 d3 i : Byte,
          decode ([rex 1 0 0, 0x83, modrmMemoryDisp32Rbp 0, d0, d1, d2, d3, i] ++ rest) =
            some (.addMemImm (word32 d0 d1 d2 d3) (i.signExtend 32), 8) := fun _ _ _ _ _ => rfl
      have h := hbytes (offset.extractLsb' 0 8) (offset.extractLsb' 8 8) (offset.extractLsb' 16 8)
        (offset.extractLsb' 24 8) (v.setWidth 8)
      obtain ⟨hlo, hhi⟩ := hfits rfl
      rwa [word32_bytes, signExtend_low_byte hlo hhi] at h
  | false =>
      refine ⟨by simp [bytes32], fun rest => ?_⟩
      have hbytes : ∀ d0 d1 d2 d3 i0 i1 i2 i3 : Byte,
          decode ([rex 1 0 0, 0x81, modrmMemoryDisp32Rbp 0, d0, d1, d2, d3, i0, i1, i2, i3] ++ rest) =
            some (.addMemImm (word32 d0 d1 d2 d3) (word32 i0 i1 i2 i3), 11) :=
        fun _ _ _ _ _ _ _ _ => rfl
      have h := hbytes (offset.extractLsb' 0 8) (offset.extractLsb' 8 8) (offset.extractLsb' 16 8)
        (offset.extractLsb' 24 8) (v.extractLsb' 0 8) (v.extractLsb' 8 8) (v.extractLsb' 16 8)
        (v.extractLsb' 24 8)
      rwa [word32_bytes, word32_bytes] at h

end Ballistic
