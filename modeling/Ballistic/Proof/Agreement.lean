import Ballistic.ArmAssembler
import Ballistic.Proof.Decoding

/-!
# The A64 assembler and the decoder

The assembler builds a word from fields, the decoder looks at the top eleven bits, and the
translators take the fields out again. A field that fits its place leaves the bits outside of it
alone, so every field of a word is found by looking at the fields one by one.
-/

namespace Ballistic

open Machine

/-! ### Fields of a word -/

section Fields

variable {k p q len : Nat} (y : BitVec k)

theorem exists_field {n : Nat} {x : BitVec n} (hx : x.toNat < 2 ^ k) :
    ∃ y : BitVec k, x.setWidth 32 = y.setWidth 32 ∧ x.toNat = y.toNat := by
  have hy : (BitVec.ofNat k x.toNat).toNat = x.toNat := by
    rw [BitVec.toNat_ofNat, Nat.mod_eq_of_lt hx]
  refine ⟨BitVec.ofNat k x.toNat, ?_, hy.symm⟩
  apply BitVec.eq_of_toNat_eq
  rw [BitVec.toNat_setWidth, BitVec.toNat_setWidth, hy]

@[simp]
theorem extractLsb'_above (h : p + k ≤ q) : (y.setWidth 32 <<< p).extractLsb' q len = 0 := by
  ext i hi
  have hge : k ≤ q + i - p := by omega
  simp [BitVec.getLsbD_of_ge _ _ hge]

@[simp]
theorem extractLsb'_below (h : q + len ≤ p) : (y.setWidth 32 <<< p).extractLsb' q len = 0 := by
  ext i hi
  have hlow : q + i < p := by omega
  simp [hlow]

@[simp]
theorem extractLsb'_place (h : p + k ≤ 32) : (y.setWidth 32 <<< p).extractLsb' p k = y := by
  ext i hi
  have hplace : p + i < 32 := by omega
  have hnot : ¬p + i < p := by omega
  simp [hplace, hnot, hi]

@[simp]
theorem extractLsb'_setWidth_above (h : k ≤ q) : (y.setWidth 32).extractLsb' q len = 0 := by
  ext i hi
  have hge : k ≤ q + i := by omega
  simp [BitVec.getLsbD_of_ge _ _ hge]

@[simp]
theorem extractLsb'_setWidth_place (h : k ≤ 32) : (y.setWidth 32).extractLsb' 0 k = y := by
  ext i hi
  have hwidth : i < 32 := by omega
  simp [hwidth, hi]

end Fields

/-! ### The words -/

section Words

variable {table : DecoderTable}

/-- The values of the first operand slots, as `extract_operand_value` gives them. -/
def Metadata.extract (m : Metadata) (w : BitVec 32) (count : Nat) : List Nat :=
  (List.range count).map fun i => extractOperandValue w (m.operand i)

/-- The values of present operands are the fields of the word. -/
theorem Metadata.extract_eq {m : Metadata} (w : BitVec 32) (present : List Operand)
    (hpresent : present <+: m.operands)
    (h : ∀ o ∈ present, o.type ≠ .none ∧ o.bitWidth < 32) :
    m.extract w present.length =
      present.map fun o => (w.extractLsb' o.bitPosition o.bitWidth).toNat := by
  apply List.ext_getElem
  · simp [Metadata.extract]
  · intro i hi hi'
    have hlt : i < present.length := by simpa using hi'
    have hoperand : m.operand i = present[i] := by
      rw [Metadata.operand, List.getD, List.prefix_iff_getElem?.mp hpresent i hlt]
      rfl
    obtain ⟨htype, hwidth⟩ := h _ (List.getElem_mem hlt)
    simp only [Metadata.extract, List.getElem_map, List.getElem_range, hoperand]
    exact extractOperandValue_eq w htype hwidth

theorem decode_immediateWord (hgenerated : table.Generated) (op : Bool) {rd rn : BitVec 32}
    {imm12 : BitVec 16} {shift : BitVec 8} (hrd : rd.toNat < 2 ^ 5) (hrn : rn.toNat < 2 ^ 5)
    (himm12 : imm12.toNat < 2 ^ 12) (hshift : shift.toNat < 2 ^ 1) {w : BitVec 32}
    (hw : w = ArmAssembler.immediateWord (if op then 0xA2 else 0x22) rd rn imm12 shift) :
    balDecodeArm64 table w = some (addSubImmMetadata true op false) ∧
      (addSubImmMetadata true op false).extract w 4 =
        [rd.toNat, rn.toNat, imm12.toNat, shift.toNat] := by
  obtain ⟨rd', hrd, hrd'⟩ := exists_field hrd
  obtain ⟨rn', hrn, hrn'⟩ := exists_field hrn
  obtain ⟨imm12', himm12, himm12'⟩ := exists_field himm12
  obtain ⟨shift', hshift, hshift'⟩ := exists_field hshift
  rw [BitVec.setWidth_eq] at hrd hrn
  rw [ArmAssembler.immediateWord, hrd, hrn, himm12, hshift] at hw
  have hclass : w.extractLsb' 23 6 = 0x22 := by
    cases op <;> simp [hw, BitVec.extractLsb'_or]
  have hsf : w.getLsbD 31 = true := by
    cases op <;> simp [hw]
  have hop : w.getLsbD 30 = op := by
    cases op <;> simp [hw]
  have hs : w.getLsbD 29 = false := by
    cases op <;> simp [hw]
  have hdecode := HeadClass.addSubImm.decode hgenerated (w := w)
    (by
      simp (disch := decide) only [HeadClass.contains, index_extractLsb', Nat.reduceAdd, hclass]
      rfl)
  simp (disch := decide) only [HeadClass.metadata, index_getLsbD, Nat.reduceAdd, hsf, hop, hs]
    at hdecode
  refine ⟨hdecode, ?_⟩
  have hrdField : w.extractLsb' 0 5 = rd' := by
    cases op <;> simp [hw, BitVec.extractLsb'_or]
  have hrnField : w.extractLsb' 5 5 = rn' := by
    cases op <;> simp [hw, BitVec.extractLsb'_or]
  have himm12Field : w.extractLsb' 10 12 = imm12' := by
    cases op <;> simp [hw, BitVec.extractLsb'_or]
  have hshiftField : w.extractLsb' 22 1 = shift' := by
    cases op <;> simp [hw, BitVec.extractLsb'_or]
  rw [hrd', hrn', himm12', hshift', ← hrdField, ← hrnField, ← himm12Field, ← hshiftField]
  exact Metadata.extract_eq w [⟨.register64, 0, 5⟩, ⟨.register64, 5, 5⟩, ⟨.immediate, 10, 12⟩,
    ⟨.immediate, 22, 1⟩] ⟨_, rfl⟩ (by decide)

theorem decode_shiftedRegisterWord (hgenerated : table.Generated) {rd rn rm : BitVec 32}
    {shift shiftType : BitVec 8} (hrd : rd.toNat < 2 ^ 5) (hrn : rn.toNat < 2 ^ 5)
    (hrm : rm.toNat < 2 ^ 5) (hshift : shift.toNat < 2 ^ 6) (htype : shiftType.toNat < 2 ^ 2)
    {w : BitVec 32} (hw : w = ArmAssembler.shiftedRegisterWord rd rn rm shift shiftType) :
    balDecodeArm64 table w = some (addSubShiftedMetadata true false false) ∧
      (addSubShiftedMetadata true false false).extract w 4 =
        [rd.toNat, rn.toNat, shift.toNat, rm.toNat] := by
  obtain ⟨rd', hrd, hrd'⟩ := exists_field hrd
  obtain ⟨rn', hrn, hrn'⟩ := exists_field hrn
  obtain ⟨rm', hrm, hrm'⟩ := exists_field hrm
  obtain ⟨shift', hshift, hshift'⟩ := exists_field hshift
  obtain ⟨type', htype, -⟩ := exists_field htype
  rw [BitVec.setWidth_eq] at hrd hrn hrm
  rw [ArmAssembler.shiftedRegisterWord, hrd, hrn, hrm, hshift, htype] at hw
  have hclass : w.extractLsb' 24 5 = 0x0B := by simp [hw, BitVec.extractLsb'_or]
  have hlow : w.getLsbD 21 = false := by simp [hw]
  have hsf : w.getLsbD 31 = true := by simp [hw]
  have hop : w.getLsbD 30 = false := by simp [hw]
  have hs : w.getLsbD 29 = false := by simp [hw]
  have hdecode := HeadClass.addSubShifted.decode hgenerated (w := w)
    (by
      simp (disch := decide) only [HeadClass.contains, index_extractLsb', index_getLsbD,
        Nat.reduceAdd, hclass, hlow]
      rfl)
  simp (disch := decide) only [HeadClass.metadata, index_getLsbD, Nat.reduceAdd, hsf, hop, hs]
    at hdecode
  refine ⟨hdecode, ?_⟩
  have hrdField : w.extractLsb' 0 5 = rd' := by simp [hw, BitVec.extractLsb'_or]
  have hrnField : w.extractLsb' 5 5 = rn' := by simp [hw, BitVec.extractLsb'_or]
  have hshiftField : w.extractLsb' 10 6 = shift' := by simp [hw, BitVec.extractLsb'_or]
  have hrmField : w.extractLsb' 16 5 = rm' := by simp [hw, BitVec.extractLsb'_or]
  rw [hrd', hrn', hrm', hshift', ← hrdField, ← hrnField, ← hrmField, ← hshiftField]
  exact Metadata.extract_eq w [⟨.register64, 0, 5⟩, ⟨.register64, 5, 5⟩, ⟨.immediate, 10, 6⟩,
    ⟨.register64, 16, 5⟩] ⟨_, rfl⟩ (by decide)

theorem and_seven : ∀ opc : BitVec 2, opc.setWidth 32 &&& 0x7 = opc.setWidth 32 := by decide

theorem decode_movWord (hgenerated : table.Generated) {opc : BitVec 2} (hopc : opc ≠ 1)
    {rd : BitVec 32} {imm : BitVec 16} {shift : BitVec 8} (hrd : rd.toNat < 2 ^ 5)
    (hshift : shift.toNat < 2 ^ 6) {w : BitVec 32}
    (hw : w = ArmAssembler.movWord rd imm shift (opc.setWidth 32)) :
    balDecodeArm64 table w = some (moveWideMetadata true opc) ∧
      (moveWideMetadata true opc).extract w 3 = [rd.toNat, imm.toNat, shift.toNat / 16] := by
  have hhw : ((shift.setWidth 32).udiv 16).toNat = shift.toNat / 16 := by
    rw [BitVec.udiv_eq, BitVec.toNat_udiv, BitVec.toNat_setWidth]
    have hlt := shift.isLt
    rw [Nat.mod_eq_of_lt (by omega)]
    rfl
  have hfits : ((shift.setWidth 32).udiv 16).toNat < 2 ^ 2 := by omega
  obtain ⟨rd', hrd, hrd'⟩ := exists_field hrd
  obtain ⟨hw', hhw', hvalue⟩ := exists_field hfits
  rw [BitVec.setWidth_eq] at hrd hhw'
  rw [ArmAssembler.movWord, hrd, hhw', and_seven] at hw
  have hclass : w.extractLsb' 23 6 = 0x25 := by simp [hw, BitVec.extractLsb'_or]
  have hsf : w.getLsbD 31 = true := by simp [hw]
  have hopcPlace : w.extractLsb' 29 2 = opc := by simp [hw, BitVec.extractLsb'_or]
  have hdecode := HeadClass.moveWide.decode hgenerated (w := w)
    (by
      simp (disch := decide) only [HeadClass.contains, index_extractLsb', index_getLsbD,
        Nat.reduceAdd, hclass, hsf, hopcPlace, bne_iff_ne.mpr hopc]
      rfl)
  simp (disch := decide) only [HeadClass.metadata, index_getLsbD, index_extractLsb', Nat.reduceAdd,
    hsf, hopcPlace] at hdecode
  refine ⟨hdecode, ?_⟩
  have hrdField : w.extractLsb' 0 5 = rd' := by simp [hw, BitVec.extractLsb'_or]
  have himmField : w.extractLsb' 5 16 = imm := by simp [hw, BitVec.extractLsb'_or]
  have hhwField : w.extractLsb' 21 2 = hw' := by simp [hw, BitVec.extractLsb'_or]
  rw [← hhw, hrd', hvalue, ← hrdField, ← hhwField]
  conv_rhs => rw [← himmField]
  exact Metadata.extract_eq w [⟨.register64, 0, 5⟩, ⟨.immediate, 5, 16⟩, ⟨.immediate, 21, 2⟩] ⟨_, rfl⟩
    (by decide)

theorem and_imm26 (x : BitVec 32) : x &&& 0x03FFFFFF = (x.setWidth 26).setWidth 32 := by
  apply BitVec.eq_of_toNat_eq
  have hmask : (0x03FFFFFF : BitVec 32).toNat = 2 ^ 26 - 1 := by decide
  rw [BitVec.toNat_and, hmask, Nat.and_two_pow_sub_one_eq_mod, BitVec.toNat_setWidth,
    BitVec.toNat_setWidth]
  omega

theorem decode_branchWord (hgenerated : table.Generated) (imm : BitVec 32) {w : BitVec 32}
    (hw : w = 0x14000000 ||| imm &&& 0x03FFFFFF) :
    balDecodeArm64 table w = some branchMetadata ∧ w.extractLsb' 0 26 = imm.setWidth 26 := by
  rw [and_imm26] at hw
  have hclass : w.extractLsb' 26 6 = 0x05 := by simp [hw, BitVec.extractLsb'_or]
  have hdecode := HeadClass.branch.decode hgenerated (w := w)
    (by
      simp (disch := decide) only [HeadClass.contains, index_extractLsb', Nat.reduceAdd, hclass]
      rfl)
  refine ⟨hdecode, ?_⟩
  rw [hw, BitVec.extractLsb'_or, extractLsb'_setWidth_place _ (by decide)]
  simp

theorem registerField_outside : ∀ r : BitVec 5, r.setWidth 32 <<< 5 &&& 0xFFFFFC1F = 0 := by decide

theorem decode_registerWord (hgenerated : table.Generated) {m : Metadata} {rest : List Metadata}
    (hbucket : generatedBucket (m.expected.extractLsb' 21 11) = some (m :: rest))
    (hmask : m.mask = 0xFFFFFC1F) (hfixed : m.expected &&& 0xFFFFFC1F = m.expected)
    (hoperand : m.operand 0 = ⟨.register64, 5, 5⟩) {rn : BitVec 32} (hrn : rn.toNat < 2 ^ 5)
    {w : BitVec 32} (hw : w = m.expected ||| rn <<< 5) :
    balDecodeArm64 table w = some m ∧ m.extract w 1 = [rn.toNat] := by
  obtain ⟨rn', hrn, hrn'⟩ := exists_field hrn
  rw [BitVec.setWidth_eq] at hrn
  rw [hrn] at hw
  have hmatches : w &&& m.mask = m.expected := by
    rw [hw, hmask, BitVec.and_or_distrib_right, registerField_outside, hfixed]
    exact BitVec.or_zero
  have hzero : m.expected.extractLsb' 5 5 = 0 := by
    have hplace : (0xFFFFFC1F : BitVec 32).extractLsb' 5 5 = 0 := by decide
    rw [← hfixed, BitVec.extractLsb'_and, hplace]
    exact BitVec.and_zero
  have hplace : w.extractLsb' 5 5 = rn' := by
    rw [hw, BitVec.extractLsb'_or, hzero, extractLsb'_place _ (by decide)]
    exact BitVec.zero_or
  refine ⟨balDecodeArm64_of_first hgenerated (by rw [hmask]; decide) hbucket hmatches, ?_⟩
  change [extractOperandValue w (m.operand 0)] = _
  rw [hoperand, extractOperandValue_eq w (by decide) (by decide), hplace, hrn']

end Words

/-! ### Branch offsets -/

section Offsets

theorem toInt_narrow {x : BitVec 32} (hlow : -33554432 ≤ x.toInt) (hhigh : x.toInt ≤ 33554431) :
    (x.setWidth 26).toInt = x.toInt := by
  have hlt := x.isLt
  rw [BitVec.toInt_eq_toNat_cond] at hlow hhigh ⊢
  rw [BitVec.toInt_eq_toNat_cond, BitVec.toNat_setWidth]
  split at hlow <;> split <;> omega

variable {offset : BitVec 32}

theorem toInt_sdiv_four (halign : offset &&& 0x3 = 0) :
    4 * (offset.sdiv 4).toInt = offset.toInt := by
  have hmod : offset.toNat % 4 = 0 := by
    have hmask : (0x3 : BitVec 32).toNat = 2 ^ 2 - 1 := by decide
    have h := congrArg BitVec.toNat halign
    rw [BitVec.toNat_and, hmask, Nat.and_two_pow_sub_one_eq_mod] at h
    exact h
  have hint : offset.toInt % 4 = 0 := by
    rw [BitVec.toInt_eq_toNat_cond]
    split <;> omega
  rw [BitVec.toInt_sdiv_of_ne_or_ne _ _ (.inr (by decide))]
  exact Int.mul_tdiv_cancel' (Int.dvd_of_emod_eq_zero hint)

theorem signExtend_offset (halign : offset &&& 0x3 = 0)
    (hlow : -33554432 ≤ (offset.sdiv 4).toInt) (hhigh : (offset.sdiv 4).toInt ≤ 33554431) :
    ((offset.sdiv 4).setWidth 26 ++ 0#2).signExtend 64 = offset.signExtend 64 := by
  apply BitVec.eq_of_toInt_eq
  rw [BitVec.toInt_signExtend_of_le (by decide), BitVec.toInt_signExtend_of_le (by decide),
    BitVec.toInt_append, if_neg (by decide), toInt_narrow hlow hhigh, ← toInt_sdiv_four halign]
  simp

end Offsets

/-! ### Calls -/

/-- The mnemonic that the name of the emitter gives. -/
def ArmCall.mnemonic : ArmCall → List Char
  | addImmediate .. | addShiftedRegister .. => ['A', 'D', 'D']
  | subImmediate .. => ['S', 'U', 'B']
  | movz .. => ['M', 'O', 'V', 'Z']
  | movk .. => ['M', 'O', 'V', 'K']
  | movn .. => ['M', 'O', 'V', 'N']
  | b .. => ['B']
  | br .. => ['B', 'R']
  | ret .. => ['R', 'E', 'T']

/-- The arguments in the order in which the translators read them. -/
def ArmCall.operands : ArmCall → List Nat
  | addImmediate rd rn imm12 shift | subImmediate rd rn imm12 shift =>
      [rd.toNat, rn.toNat, imm12.toNat, shift.toNat]
  | addShiftedRegister rd rn rm shift _ => [rd.toNat, rn.toNat, shift.toNat, rm.toNat]
  | movz rd imm shift | movk rd imm shift | movn rd imm shift =>
      [rd.toNat, imm.toNat, shift.toNat / 16]
  | b offset => [((offset.toInt / 4) % 2 ^ 26).toNat]
  | br rn | ret rn => [rn.toNat]

/-- The decoder finds the mnemonic and the operands of the call in the word. -/
structure ArmCall.Agrees (table : DecoderTable) (call : ArmCall) (w : BitVec 32) (m : Metadata) :
    Prop where
  decodes : balDecodeArm64 table w = some m
  name_eq : m.name = call.mnemonic
  operands_eq : m.extract w call.operands.length = call.operands
  target : ∀ offset, call = .b offset → ∀ guestAddress : Address,
    Compiler.translateJump m w guestAddress = guestAddress + offset.signExtend 64

section Calls

variable {table : DecoderTable}

theorem checkRegister_passed {r : BitVec 32} (h : (checkRegister r).1 = false) :
    r.toNat < 2 ^ 5 := by
  have hle : ¬31 < r := of_decide_eq_false h
  rw [BitVec.lt_def] at hle
  exact Nat.lt_succ_of_le (Nat.not_lt.mp hle)

theorem checkImm12_passed {imm12 : BitVec 16} (h : (ArmAssembler.checkImm12 imm12).1 = false) :
    imm12.toNat < 2 ^ 12 := by
  have hle : ¬0xFFF < imm12 := of_decide_eq_false h
  rw [BitVec.lt_def] at hle
  exact Nat.lt_succ_of_le (Nat.not_lt.mp hle)

theorem checkImmediateShift_passed {shift : BitVec 8}
    (h : (ArmAssembler.checkImmediateShift shift).1 = false) : shift.toNat < 2 ^ 1 := by
  have hshift : ¬(shift ≠ 0 ∧ shift ≠ 1) := of_decide_eq_false h
  by_cases hzero : shift = 0
  · rw [hzero]
    decide
  · rw [not_not.mp fun hone => hshift ⟨hzero, hone⟩]
    decide

theorem agrees_immediate (hgenerated : table.Generated) (op : Bool) {rd rn : BitVec 32}
    {imm12 : BitVec 16} {shift : BitVec 8} (hrd : (checkRegister rd).1 = false)
    (hrn : (checkRegister rn).1 = false) (himm12 : (ArmAssembler.checkImm12 imm12).1 = false)
    (hshift : (ArmAssembler.checkImmediateShift shift).1 = false) :
    (if op then ArmCall.subImmediate rd rn imm12 shift else .addImmediate rd rn imm12 shift).Agrees
      table (ArmAssembler.immediateWord (if op then 0xA2 else 0x22) rd rn imm12 shift)
      (addSubImmMetadata true op false) := by
  obtain ⟨hdecode, hoperands⟩ := decode_immediateWord hgenerated op (checkRegister_passed hrd)
    (checkRegister_passed hrn) (checkImm12_passed himm12) (checkImmediateShift_passed hshift) rfl
  cases op with
  | false => exact ⟨hdecode, rfl, hoperands, nofun⟩
  | true => exact ⟨hdecode, rfl, hoperands, nofun⟩

theorem agrees_mov (hgenerated : table.Generated) (opc : BitVec 2) (hopc : opc ≠ 1) {call : ArmCall}
    {rd : BitVec 32} {imm : BitVec 16} {shift : BitVec 8}
    (hname : (moveWideMetadata true opc).name = call.mnemonic)
    (hoperands : call.operands = [rd.toNat, imm.toNat, shift.toNat / 16])
    (hcall : ∀ offset, call ≠ .b offset) (hrd : (checkRegister rd).1 = false)
    (hshift : decide (shift ≠ 0 ∧ shift ≠ 16 ∧ shift ≠ 32 ∧ shift ≠ 48) = false) :
    call.Agrees table (ArmAssembler.movWord rd imm shift (opc.setWidth 32))
      (moveWideMetadata true opc) := by
  have hfits : shift.toNat < 2 ^ 6 := by
    have hcases := of_decide_eq_false hshift
    simp only [ne_eq, not_and_or, not_not] at hcases
    rcases hcases with rfl | rfl | rfl | rfl <;> decide
  obtain ⟨hdecode, hvalues⟩ := decode_movWord hgenerated hopc (checkRegister_passed hrd) hfits rfl
  refine ⟨hdecode, hname, ?_, fun offset hb => absurd hb (hcall offset)⟩
  rw [hoperands]
  exact hvalues

theorem agrees_b (hgenerated : table.Generated) {offset : BitVec 32} (halign : offset &&& 0x3 = 0)
    (hlow : -33554432 ≤ (offset.sdiv 4).toInt) (hhigh : (offset.sdiv 4).toInt ≤ 33554431) :
    (ArmCall.b offset).Agrees table (0x14000000 ||| offset.sdiv 4 &&& 0x03FFFFFF)
      branchMetadata := by
  obtain ⟨hdecode, himm⟩ := decode_branchWord hgenerated (offset.sdiv 4) rfl
  refine ⟨hdecode, rfl, ?_, ?_⟩
  · change [extractOperandValue _ ⟨.immediate, 0, 26⟩] = [((offset.toInt / 4) % 2 ^ 26).toNat]
    have hfour := toInt_sdiv_four halign
    have hdiv : offset.toInt / 4 = (offset.sdiv 4).toInt := by omega
    rw [extractOperandValue_eq _ (by decide) (by decide), himm, hdiv, BitVec.toNat_setWidth]
    congr 1
    rw [BitVec.toInt_eq_toNat_cond]
    split <;> omega
  · rintro _ ⟨⟩ guestAddress
    have hoperand : branchMetadata.operand 0 = ⟨.immediate, 0, 26⟩ := rfl
    rw [Compiler.translateJump, branchOffset_eq (by decide) (by decide) hoperand, himm,
      signExtend_offset halign hlow hhigh]

end Calls

end Ballistic
