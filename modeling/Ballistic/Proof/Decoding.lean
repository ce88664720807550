import Ballistic.Machine.A64
import Ballistic.Tier1Compiler

/-!
# The decoder on the translated classes

For the instruction classes of the written-out buckets, the metadata that the decoder finds and the
operand values that the translators extract are the ones of the A64 encoding. Except for three
classes the entry depends on the top eleven bits alone, so it is found by looking at every bucket.
-/

namespace Ballistic

open Machine

/-! ### Operands -/

theorem extractOperandValue_eq (w : BitVec 32) {type : OperandType} (htype : type ≠ .none)
    {position width : Nat} (hwidth : width < 32) :
    extractOperandValue w ⟨type, position, width⟩ = (w.extractLsb' position width).toNat := by
  have hmask : ((1#32 <<< width) - 1#32).toNat = 2 ^ width - 1 := by
    have hlt : 2 ^ width < 2 ^ 32 := Nat.pow_lt_pow_right (by decide) hwidth
    have hpos : 0 < 2 ^ width := Nat.two_pow_pos width
    have hshift : (1#32 <<< width).toNat = 2 ^ width := by
      rw [BitVec.toNat_shiftLeft, Nat.shiftLeft_eq]
      simpa using hlt
    rw [BitVec.toNat_sub, hshift]
    simp only [BitVec.toNat_ofNat]
    omega
  unfold extractOperandValue
  cases type with
  | none => exact absurd rfl htype
  | _ =>
      simp only
      rw [BitVec.toNat_and, hmask, Nat.and_two_pow_sub_one_eq_mod, BitVec.extractLsb'_toNat,
        BitVec.toNat_ushiftRight]

theorem registerAt_toNat (w : BitVec 32) (position : Nat) :
    ((A64.registerAt w position : Fin 32) : Nat) = (w.extractLsb' position 5).toNat := rfl

theorem registerOperand_eq (m : Metadata) (w : BitVec 32) (i : Nat) {type : OperandType}
    (htype : type ≠ .none) {position : Nat} (hoperand : m.operand i = ⟨type, position, 5⟩) :
    Compiler.registerOperand m w i = (A64.registerAt w position : Fin 32) := by
  rw [Compiler.registerOperand, hoperand, extractOperandValue_eq w htype (by decide),
    registerAt_toNat]
  have hlt := (w.extractLsb' position 5).isLt
  omega

/-! ### Buckets -/

/-- The first entry of a written-out bucket is `m`, and it matches whatever the low bits are. -/
def headMatches (index : BitVec 11) (m : Metadata) : Bool :=
  match generatedBucket index with
  | some (head :: _) =>
      head == m && m.mask.extractLsb' 0 21 == 0 &&
        (index &&& m.mask.extractLsb' 21 11) ++ 0#21 == m.expected
  | _ => false

theorem split_index (w : BitVec 32) : w = w.extractLsb' 21 11 ++ w.extractLsb' 0 21 := by
  rw [BitVec.extractLsb'_append_extractLsb'_eq_extractLsb' (by rfl)]
  exact BitVec.extractLsb'_eq_self.symm

theorem balDecodeArm64_of_head {table : DecoderTable} (hgenerated : table.Generated)
    {w : BitVec 32} {m : Metadata} (h : headMatches (w.extractLsb' 21 11) m = true) :
    balDecodeArm64 table w = some m := by
  unfold headMatches at h
  split at h
  · next head rest hbucket =>
      simp only [Bool.and_eq_true, beq_iff_eq] at h
      obtain ⟨⟨rfl, hlow⟩, hhigh⟩ := h
      have hmask : w &&& head.mask = head.expected := by
        conv_lhs => rw [split_index w, split_index head.mask]
        rw [BitVec.and_append, hlow, ← hhigh]
        simp
      rw [balDecodeArm64, hgenerated.bucket_eq hbucket, List.find?_cons_of_pos]
      simpa using hmask
  · exact absurd h (by simp)

/-- The classes in which the first entry of the bucket matches every word. -/
inductive HeadClass where
  | addSubImm | moveWide | addSubShifted | addSubExtended | andShifted | orrShifted | andImm | orrImm
  | branch
  deriving DecidableEq

namespace HeadClass

/-- The top eleven bits of the words of the class. -/
def contains : HeadClass → BitVec 11 → Bool
  | .addSubImm, t => t.extractLsb' 2 6 == 0x22
  | .moveWide, t =>
      t.extractLsb' 2 6 == 0x25 && t.extractLsb' 8 2 != 1 && (t.getLsbD 10 || !t.getLsbD 1)
  | .addSubShifted, t => t.extractLsb' 3 5 == 0x0B && !t.getLsbD 0
  | .addSubExtended, t => t.extractLsb' 0 8 == 0x59 && t.getLsbD 10
  | .andShifted, t => t.extractLsb' 3 5 == 0x0A && !t.getLsbD 0 && t.extractLsb' 8 2 == 0
  | .orrShifted, t =>
      t.extractLsb' 3 5 == 0x0A && !t.getLsbD 0 && t.getLsbD 10 && t.extractLsb' 8 2 == 1
  | .andImm, t => t.extractLsb' 2 6 == 0x24 && t.getLsbD 10 && t.extractLsb' 8 2 == 0
  | .orrImm, t => t.extractLsb' 2 6 == 0x24 && t.getLsbD 10 && t.extractLsb' 8 2 == 1
  | .branch, t => t.extractLsb' 5 6 == 0x05

/-- The first entry of the bucket. -/
def metadata : HeadClass → BitVec 11 → Metadata
  | .addSubImm, t => addSubImmMetadata (t.getLsbD 10) (t.getLsbD 9) (t.getLsbD 8)
  | .moveWide, t => moveWideMetadata (t.getLsbD 10) (t.extractLsb' 8 2)
  | .addSubShifted, t => addSubShiftedMetadata (t.getLsbD 10) (t.getLsbD 9) (t.getLsbD 8)
  | .addSubExtended, t => addSubExtendedMetadata (t.getLsbD 9) (t.getLsbD 8)
  | .andShifted, t => andShiftedMetadata (t.getLsbD 10)
  | .orrShifted, _ => orrShiftedMetadata
  | .andImm, _ => andImmMetadata
  | .orrImm, _ => orrImmMetadata
  | .branch, _ => branchMetadata

theorem headMatches_metadata : ∀ (k : HeadClass) (t : BitVec 11), k.contains t = true →
    headMatches t (k.metadata t) = true := by
  intro k
  cases k <;> decide +kernel

theorem decode {table : DecoderTable} (hgenerated : table.Generated) (k : HeadClass) {w : BitVec 32}
    (h : k.contains (w.extractLsb' 21 11) = true) :
    balDecodeArm64 table w = some (k.metadata (w.extractLsb' 21 11)) :=
  balDecodeArm64_of_head hgenerated (headMatches_metadata k _ h)

end HeadClass

/-! ### Instructions -/

section Instructions

variable {table : DecoderTable} {w : BitVec 32}

/-- A field of the index is a field of the word. -/
theorem index_extractLsb' (w : BitVec 32) {start len : Nat} (h : start + len ≤ 11) :
    (w.extractLsb' 21 11).extractLsb' start len = w.extractLsb' (21 + start) len := by
  ext i hi
  simp only [BitVec.getElem_extractLsb', BitVec.getLsbD_extractLsb', Nat.add_assoc]
  simp only [show start + i < 11 by omega, decide_true, Bool.true_and]

theorem index_getLsbD (w : BitVec 32) {i : Nat} (h : i < 11) :
    (w.extractLsb' 21 11).getLsbD i = w.getLsbD (21 + i) := by
  simp [h]

theorem toNat_extractLsb'_one (w : BitVec 32) (i : Nat) :
    (w.extractLsb' i 1).toNat = (w.getLsbD i).toNat := by
  rw [BitVec.extractLsb'_toNat, BitVec.getLsbD, Nat.testBit_eq_decide_div_mod_eq,
    Nat.shiftRight_eq_div_pow]
  rcases Nat.mod_two_eq_zero_or_one (w.toNat / 2 ^ i) with h | h <;> simp [h]

theorem registerType_ne_none (sf : Bool) : registerType sf ≠ .none := by
  cases sf <;> decide

theorem decode_addSubImm (hgenerated : table.Generated) {sf op s sh : Bool} {imm12 : BitVec 12}
    {rn rd : A64.Register} (h : A64.decode w = some (.addSubImm sf op s sh imm12 rn rd)) :
    balDecodeArm64 table w = some (addSubImmMetadata sf op s) ∧
      Compiler.registerOperand (addSubImmMetadata sf op s) w 0 = rd ∧
      Compiler.registerOperand (addSubImmMetadata sf op s) w 1 = rn ∧
      extractOperandValue w ((addSubImmMetadata sf op s).operand 2) = imm12.toNat ∧
      extractOperandValue w ((addSubImmMetadata sf op s).operand 3) = sh.toNat := by
  obtain ⟨hclass, rfl, rfl, rfl, rfl, rfl, rfl, rfl⟩ := A64.decode_fields h
  have hdecode := HeadClass.addSubImm.decode hgenerated (w := w)
    (by
      simp (disch := decide) only [HeadClass.contains, index_extractLsb', Nat.reduceAdd, hclass]
      rfl)
  simp (disch := decide) only [HeadClass.metadata, index_getLsbD] at hdecode
  refine ⟨hdecode,
    registerOperand_eq _ _ _ (registerType_ne_none _) rfl,
    registerOperand_eq _ _ _ (registerType_ne_none _) rfl,
    extractOperandValue_eq w (by decide) (by decide), ?_⟩
  rw [← toNat_extractLsb'_one]
  exact extractOperandValue_eq w (by decide) (by decide)

theorem decode_moveWide (hgenerated : table.Generated) {sf : Bool} {opc hw : BitVec 2}
    {imm16 : BitVec 16} {rd : A64.Register}
    (h : A64.decode w = some (.moveWide sf opc hw imm16 rd)) (hopc : opc ≠ 1)
    (hhw : (sf || !hw.getLsbD 1) = true) :
    balDecodeArm64 table w = some (moveWideMetadata sf opc) ∧
      Compiler.registerOperand (moveWideMetadata sf opc) w 0 = rd ∧
      extractOperandValue w ((moveWideMetadata sf opc).operand 1) = imm16.toNat ∧
      extractOperandValue w ((moveWideMetadata sf opc).operand 2) = hw.toNat := by
  obtain ⟨hclass, rfl, rfl, rfl, rfl, rfl⟩ := A64.decode_fields h
  have hwide : (w.getLsbD 31 || !w.getLsbD 22) = true := by simpa using hhw
  have hdecode := HeadClass.moveWide.decode hgenerated (w := w)
    (by
      simp (disch := decide) only [HeadClass.contains, index_extractLsb', index_getLsbD,
        Nat.reduceAdd, hclass, hwide, bne_iff_ne.mpr hopc]
      rfl)
  simp (disch := decide) only [HeadClass.metadata, index_getLsbD, index_extractLsb'] at hdecode
  exact ⟨hdecode,
    registerOperand_eq _ _ _ (registerType_ne_none _) rfl,
    extractOperandValue_eq w (by decide) (by decide),
    extractOperandValue_eq w (by decide) (by decide)⟩

theorem decode_addSubShifted (hgenerated : table.Generated) {sf op s : Bool} {shift : BitVec 2}
    {imm6 : BitVec 6} {rm rn rd : A64.Register}
    (h : A64.decode w = some (.addSubShifted sf op s shift rm imm6 rn rd)) :
    balDecodeArm64 table w = some (addSubShiftedMetadata sf op s) ∧
      Compiler.registerOperand (addSubShiftedMetadata sf op s) w 0 = rd ∧
      Compiler.registerOperand (addSubShiftedMetadata sf op s) w 1 = rn ∧
      extractOperandValue w ((addSubShiftedMetadata sf op s).operand 2) = imm6.toNat ∧
      Compiler.registerOperand (addSubShiftedMetadata sf op s) w 3 = rm := by
  obtain ⟨hclass, hbit, rfl, rfl, rfl, rfl, rfl, rfl, rfl, rfl⟩ := A64.decode_fields h
  have hdecode := HeadClass.addSubShifted.decode hgenerated (w := w)
    (by
      simp (disch := decide) only [HeadClass.contains, index_extractLsb', index_getLsbD,
        Nat.reduceAdd, hclass, hbit]
      rfl)
  simp (disch := decide) only [HeadClass.metadata, index_getLsbD] at hdecode
  exact ⟨hdecode,
    registerOperand_eq _ _ _ (registerType_ne_none _) rfl,
    registerOperand_eq _ _ _ (registerType_ne_none _) rfl,
    extractOperandValue_eq w (by decide) (by decide),
    registerOperand_eq _ _ _ (registerType_ne_none _) rfl⟩

theorem decode_andShifted (hgenerated : table.Generated) {sf : Bool} {shift : BitVec 2}
    {imm6 : BitVec 6} {rm rn rd : A64.Register}
    (h : A64.decode w = some (.logicalShifted sf 0 shift false rm imm6 rn rd)) :
    balDecodeArm64 table w = some (andShiftedMetadata sf) ∧
      Compiler.registerOperand (andShiftedMetadata sf) w 0 = rd ∧
      Compiler.registerOperand (andShiftedMetadata sf) w 1 = rn ∧
      extractOperandValue w ((andShiftedMetadata sf).operand 2) = imm6.toNat ∧
      Compiler.registerOperand (andShiftedMetadata sf) w 3 = rm := by
  obtain ⟨hclass, rfl, hopc, rfl, hbit, rfl, rfl, rfl, rfl⟩ := A64.decode_fields h
  have hdecode := HeadClass.andShifted.decode hgenerated (w := w)
    (by
      simp (disch := decide) only [HeadClass.contains, index_extractLsb', index_getLsbD,
        Nat.reduceAdd, hclass, ← hbit, ← hopc]
      rfl)
  simp (disch := decide) only [HeadClass.metadata, index_getLsbD] at hdecode
  exact ⟨hdecode,
    registerOperand_eq _ _ _ (registerType_ne_none _) rfl,
    registerOperand_eq _ _ _ (registerType_ne_none _) rfl,
    extractOperandValue_eq w (by decide) (by decide),
    registerOperand_eq _ _ _ (registerType_ne_none _) rfl⟩

/-- The extended register is not among the first four operands. -/
theorem decode_addSubExtended (hgenerated : table.Generated) {op s : Bool} {rm rn rd : A64.Register}
    {option imm3 : BitVec 3}
    (h : A64.decode w = some (.addSubExtended true op s rm option imm3 rn rd)) :
    balDecodeArm64 table w = some (addSubExtendedMetadata op s) ∧
      Compiler.registerOperand (addSubExtendedMetadata op s) w 0 = rd ∧
      Compiler.registerOperand (addSubExtendedMetadata op s) w 1 = rn ∧
      extractOperandValue w ((addSubExtendedMetadata op s).operand 2) = imm3.toNat ∧
      extractOperandValue w ((addSubExtendedMetadata op s).operand 3) = option.toNat := by
  obtain ⟨hclass, hsf, rfl, rfl, rfl, rfl, rfl, rfl, rfl⟩ := A64.decode_fields h
  have hdecode := HeadClass.addSubExtended.decode hgenerated (w := w)
    (by
      simp (disch := decide) only [HeadClass.contains, index_extractLsb', index_getLsbD,
        Nat.reduceAdd, hclass, ← hsf]
      rfl)
  simp (disch := decide) only [HeadClass.metadata, index_getLsbD] at hdecode
  exact ⟨hdecode,
    registerOperand_eq _ _ _ (by decide) rfl,
    registerOperand_eq _ _ _ (by decide) rfl,
    extractOperandValue_eq w (by decide) (by decide),
    extractOperandValue_eq w (by decide) (by decide)⟩

/-- The second and third immediate of a logical immediate are its size and its rotation. -/
theorem decode_andImm (hgenerated : table.Generated) {n : Bool} {immr imms : BitVec 6}
    {rn rd : A64.Register} (h : A64.decode w = some (.logicalImm true 0 n immr imms rn rd)) :
    balDecodeArm64 table w = some andImmMetadata ∧
      Compiler.registerOperand andImmMetadata w 0 = rd ∧
      Compiler.registerOperand andImmMetadata w 1 = rn ∧
      extractOperandValue w (andImmMetadata.operand 2) = imms.toNat ∧
      Compiler.registerOperand andImmMetadata w 3 = immr.toNat := by
  obtain ⟨hclass, hsf, hopc, rfl, rfl, rfl, rfl, rfl⟩ := A64.decode_fields h
  have hdecode := HeadClass.andImm.decode hgenerated (w := w)
    (by
      simp (disch := decide) only [HeadClass.contains, index_extractLsb', index_getLsbD,
        Nat.reduceAdd, hclass, ← hsf, ← hopc]
      rfl)
  refine ⟨hdecode,
    registerOperand_eq _ _ _ (by decide) rfl,
    registerOperand_eq _ _ _ (by decide) rfl,
    extractOperandValue_eq w (by decide) (by decide), ?_⟩
  have hvalue : extractOperandValue w (andImmMetadata.operand 3) = (w.extractLsb' 16 6).toNat :=
    extractOperandValue_eq w (by decide) (by decide)
  have hlt := (w.extractLsb' 16 6).isLt
  rw [Compiler.registerOperand, hvalue]
  omega

theorem decode_orrImm (hgenerated : table.Generated) {n : Bool} {immr imms : BitVec 6}
    {rn rd : A64.Register} (h : A64.decode w = some (.logicalImm true 1 n immr imms rn rd)) :
    balDecodeArm64 table w = some orrImmMetadata ∧
      Compiler.registerOperand orrImmMetadata w 0 = rd ∧
      Compiler.registerOperand orrImmMetadata w 1 = rn := by
  obtain ⟨hclass, hsf, hopc, rfl, rfl, rfl, rfl, rfl⟩ := A64.decode_fields h
  have hdecode := HeadClass.orrImm.decode hgenerated (w := w)
    (by
      simp (disch := decide) only [HeadClass.contains, index_extractLsb', index_getLsbD,
        Nat.reduceAdd, hclass, ← hsf, ← hopc]
      rfl)
  exact ⟨hdecode,
    registerOperand_eq _ _ _ (by decide) rfl,
    registerOperand_eq _ _ _ (by decide) rfl⟩

theorem decode_orrShifted (hgenerated : table.Generated) {shift : BitVec 2} {imm6 : BitVec 6}
    {rm rn rd : A64.Register}
    (h : A64.decode w = some (.logicalShifted true 1 shift false rm imm6 rn rd)) :
    balDecodeArm64 table w = some orrShiftedMetadata ∧
      Compiler.registerOperand orrShiftedMetadata w 0 = rd ∧
      Compiler.registerOperand orrShiftedMetadata w 1 = rn := by
  obtain ⟨hclass, hsf, hopc, rfl, hbit, rfl, rfl, rfl, rfl⟩ := A64.decode_fields h
  have hdecode := HeadClass.orrShifted.decode hgenerated (w := w)
    (by
      simp (disch := decide) only [HeadClass.contains, index_extractLsb', index_getLsbD,
        Nat.reduceAdd, hclass, ← hbit, ← hsf, ← hopc]
      rfl)
  exact ⟨hdecode,
    registerOperand_eq _ _ _ (by decide) rfl,
    registerOperand_eq _ _ _ (by decide) rfl⟩

/-- The entry of `ADDG` and `SUBG` also fixes bits that are operands, so some words have none. -/
theorem decode_addSubTags (hgenerated : table.Generated) {op : Bool} {uimm6 : BitVec 6}
    {uimm4 : BitVec 4} {rn rd : A64.Register}
    (h : A64.decode w = some (.addSubTags op uimm6 uimm4 rn rd)) {metadata : Metadata}
    (hdecode : balDecodeArm64 table w = some metadata) :
    metadata = addSubTagsMetadata op ∧
      Compiler.registerOperand (addSubTagsMetadata op) w 0 = rd ∧
      Compiler.registerOperand (addSubTagsMetadata op) w 1 = rn ∧
      extractOperandValue w ((addSubTagsMetadata op).operand 2) = uimm4.toNat ∧
      extractOperandValue w ((addSubTagsMetadata op).operand 3) = uimm6.toNat := by
  obtain ⟨hclass, hsf, rfl, hs, rfl, rfl, rfl, rfl⟩ := A64.decode_fields h
  have hbucket : generatedBucket (w.extractLsb' 21 11) = some [addSubTagsMetadata (w.getLsbD 30)] := by
    have himm : w.extractLsb' 23 6 = 0x23 := by
      have hpart : w.extractLsb' 23 6 = (w.extractLsb' 22 7).extractLsb' 1 6 := by
        ext i hi
        simp [show 1 + i < 7 by omega, ← Nat.add_assoc 22 1]
      rw [hpart, hclass]
      rfl
    have htags : (w.extractLsb' 21 11).extractLsb' 1 7 = 0x46 ∧
        (w.extractLsb' 21 11).getLsbD 10 = true ∧ (w.extractLsb' 21 11).getLsbD 8 = false := by
      rw [index_extractLsb' w (by decide), index_getLsbD w (by decide), index_getLsbD w (by decide)]
      exact ⟨hclass, hsf, hs⟩
    simp only [generatedBucket]
    rw [if_neg (by rw [index_extractLsb' w (by decide), himm]; decide), if_pos htags,
      index_getLsbD w (by decide)]
  rw [balDecodeArm64, hgenerated.bucket_eq hbucket] at hdecode
  refine ⟨?_,
    registerOperand_eq _ _ _ (by decide) rfl,
    registerOperand_eq _ _ _ (by decide) rfl,
    extractOperandValue_eq w (by decide) (by decide),
    extractOperandValue_eq w (by decide) (by decide)⟩
  simpa using List.mem_of_find?_eq_some hdecode

theorem decode_branch (hgenerated : table.Generated) {imm26 : BitVec 26}
    (h : A64.decode w = some (.branch imm26)) :
    balDecodeArm64 table w = some branchMetadata := by
  obtain ⟨hclass, -⟩ := A64.decode_fields h
  refine HeadClass.branch.decode hgenerated ?_
  simp (disch := decide) only [HeadClass.contains, index_extractLsb', Nat.reduceAdd, hclass]
  rfl

theorem sshiftRight_shiftLeft {n : Nat} (hle : n ≤ 32) (imm : BitVec n) :
    (BitVec.ofNat 32 imm.toNat <<< (32 - n)).sshiftRight (32 - n) = imm.signExtend 32 := by
  rw [BitVec.ofNat_toNat]
  ext i hi
  simp only [BitVec.getElem_sshiftRight, BitVec.getElem_signExtend, BitVec.getElem_shiftLeft,
    BitVec.msb_shiftLeft, BitVec.getMsbD_setWidth, BitVec.getElem_setWidth]
  by_cases hbit : i < n
  · have hshift : ¬32 - n + i < 32 - n := by omega
    simp [hbit, hshift, show 32 - n + i < 32 by omega]
  · have hsign : ¬32 - n + i < 32 := by omega
    simp [hbit, hsign, BitVec.msb_eq_getLsbD_last, BitVec.getMsbD_eq_getLsbD]
    grind

theorem signExtend_mul_four {n : Nat} (hle : n ≤ 30) (imm : BitVec n) :
    (imm.signExtend 32).signExtend 64 * 4 = (imm ++ 0#2).signExtend 64 := by
  have hfour : (4 : BitVec 64) = BitVec.twoPow 64 2 := by decide
  rw [hfour, ← BitVec.shiftLeft_eq_mul_twoPow]
  ext i hi
  simp only [BitVec.getElem_shiftLeft, BitVec.getElem_signExtend, BitVec.getElem_append,
    BitVec.msb_append, BitVec.msb_signExtend]
  by_cases hlow : i < 2
  · simp [hlow, show i < n + 2 by omega]
  · by_cases hmiddle : i < n + 2
    · simp [hlow, hmiddle, show i - 2 < 32 by omega, show i - 2 < n by omega]
    · simp [hlow, hmiddle, show ¬i - 2 < n by omega]
      grind

/-- A field of a branch, sign-extended from its place in a 32-bit integer and scaled, is the field with
two zeros behind it. -/
theorem signExtend_scaled {n : Nat} (hle : n ≤ 30) (imm : BitVec n) :
    ((BitVec.ofNat 32 imm.toNat <<< (32 - n)).sshiftRight (32 - n)).signExtend 64 * 4 =
      (imm ++ 0#2).signExtend 64 := by
  rw [sshiftRight_shiftLeft (by omega), signExtend_mul_four hle]

theorem xor_twoPow {n k : Nat} (x : BitVec n) :
    x ^^^ BitVec.twoPow n k =
      if x.getLsbD k then x - BitVec.twoPow n k else x + BitVec.twoPow n k := by
  cases hbit : x.getLsbD k with
  | false =>
      have hdisjoint : x &&& BitVec.twoPow n k = 0#n := by
        simp [BitVec.and_twoPow, hbit]
      rw [if_neg (by simp), BitVec.add_eq_or_of_and_eq_zero _ _ hdisjoint]
      ext i hi
      simp only [BitVec.getElem_xor, BitVec.getElem_or, BitVec.getElem_twoPow]
      grind
  | true =>
      have hdisjoint : (x ^^^ BitVec.twoPow n k) &&& BitVec.twoPow n k = 0#n := by
        rw [BitVec.and_twoPow, BitVec.getLsbD_xor, hbit, BitVec.getLsbD_twoPow]
        grind
      have hsum := BitVec.add_eq_or_of_and_eq_zero _ _ hdisjoint
      rw [if_pos rfl, eq_comm, BitVec.sub_eq_iff_eq_add, hsum]
      ext i hi
      simp only [BitVec.getElem_xor, BitVec.getElem_or, BitVec.getElem_twoPow]
      grind

/-- The sign extension of `translate_b_cond` flips the sign bit and subtracts it again. -/
theorem xor_sub_signExtend (imm : BitVec 19) :
    (imm.setWidth 32 ^^^ 0x40000) - 0x40000 = imm.signExtend 32 := by
  have hbit : (0x40000 : BitVec 32) = BitVec.twoPow 32 18 := by decide
  have hlt := imm.isLt
  have hmsb := BitVec.msb_eq_decide imm
  have hwidth : (imm.setWidth 32).toNat = imm.toNat := by
    rw [BitVec.toNat_setWidth, Nat.mod_eq_of_lt (by omega)]
  rw [hbit, xor_twoPow, ← hbit, BitVec.getLsbD_setWidth, ← BitVec.msb_eq_getLsbD_last]
  apply BitVec.eq_of_toNat_eq
  rw [BitVec.toNat_signExtend, hwidth, hmsb]
  by_cases hlarge : 2 ^ (19 - 1) ≤ imm.toNat
  · have hconstant : (0x40000 : BitVec 32).toNat = 0x40000 := rfl
    simp only [hlarge, decide_true, Bool.and_true, Nat.reduceLT, if_true, BitVec.toNat_sub, hwidth,
      hconstant]
    omega
  · simp only [hlarge, decide_false, Bool.and_false, Bool.false_eq_true, if_false,
      BitVec.add_sub_cancel, hwidth]
    omega

/-- A branch offset operand is its field, in words and with its sign. -/
theorem branchOffset_eq {m : Metadata} {i : Nat} {type : OperandType} (htype : type ≠ .none)
    {position n : Nat} (hle : n ≤ 30) (hoperand : m.operand i = ⟨type, position, n⟩) :
    Compiler.branchOffset m w i = (w.extractLsb' position n ++ 0#2).signExtend 64 := by
  simp only [Compiler.branchOffset, hoperand]
  rw [extractOperandValue_eq w htype (by omega), signExtend_scaled hle]

theorem branchOffset_branch {imm26 : BitVec 26} (h : A64.decode w = some (.branch imm26)) :
    Compiler.branchOffset branchMetadata w 0 = (imm26 ++ 0#2).signExtend 64 := by
  obtain ⟨-, rfl⟩ := A64.decode_fields h
  exact branchOffset_eq (by decide) (by decide) rfl

/-- The buckets of conditional branches have two entries, which the bit above the condition tells
apart. -/
theorem decode_branchCond (hgenerated : table.Generated) {imm19 : BitVec 19} {cond : BitVec 4}
    (h : A64.decode w = some (.branchCond imm19 cond)) :
    balDecodeArm64 table w = some branchCondMetadata := by
  obtain ⟨hclass, hbit, -, -⟩ := A64.decode_fields h
  have hindex : w.extractLsb' 21 11 = w.extractLsb' 24 8 ++ w.extractLsb' 21 3 := by
    rw [BitVec.extractLsb'_append_extractLsb'_eq_extractLsb' (by rfl)]
  have hbucket : ∀ low : BitVec 3, generatedBucket ((0x54 : BitVec 8) ++ low) =
      some [branchCondMetadata, branchConsistentMetadata] := by decide
  have hlow : w.extractLsb' 0 24 &&& BitVec.twoPow 24 4 = 0 := by
    rw [BitVec.and_twoPow, BitVec.getLsbD_extractLsb', hbit]
    rfl
  have hmask : w &&& branchCondMetadata.mask = branchCondMetadata.expected := by
    have hsplit : w = w.extractLsb' 24 8 ++ w.extractLsb' 0 24 := by
      rw [BitVec.extractLsb'_append_extractLsb'_eq_extractLsb' (by rfl)]
      exact BitVec.extractLsb'_eq_self.symm
    have hfields : branchCondMetadata.mask = BitVec.allOnes 8 ++ BitVec.twoPow 24 4 := by decide
    rw [hfields]
    conv_lhs => rw [hsplit]
    rw [BitVec.and_append, BitVec.and_allOnes, hlow, hclass]
    rfl
  rw [balDecodeArm64, hindex, hclass, hgenerated.bucket_eq (hbucket _), List.find?_cons_of_pos]
  simpa using hmask

/-- A word that matches a first entry whose mask covers the whole index. -/
theorem balDecodeArm64_of_first (hgenerated : table.Generated) {m : Metadata} {rest : List Metadata}
    (hmask : m.mask.extractLsb' 21 11 = BitVec.allOnes 11)
    (hbucket : generatedBucket (m.expected.extractLsb' 21 11) = some (m :: rest))
    (h : w &&& m.mask = m.expected) : balDecodeArm64 table w = some m := by
  have hindex : w.extractLsb' 21 11 = m.expected.extractLsb' 21 11 := by
    rw [← h, BitVec.extractLsb'_and, hmask, BitVec.and_allOnes]
  rw [balDecodeArm64, hindex, hgenerated.bucket_eq hbucket, List.find?_cons_of_pos]
  simpa using h

theorem decode_ret (hgenerated : table.Generated) {rn : A64.Register}
    (h : A64.decode w = some (.ret rn)) :
    balDecodeArm64 table w = some retMetadata ∧
      Compiler.registerOperand retMetadata w 0 = rn := by
  obtain ⟨hclass, rfl⟩ := A64.decode_fields h
  exact ⟨balDecodeArm64_of_first hgenerated (by decide) rfl hclass,
    registerOperand_eq _ _ _ (by decide) rfl⟩

end Instructions

end Ballistic
