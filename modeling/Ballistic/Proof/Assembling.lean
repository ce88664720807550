import Ballistic.Proof.Agreement

/-!
# Sequences of guest emits

A call of the A64 assembler is a list of checks and a word. On an assembler that has not failed only
its arguments and the room decide, a call that passes stores a word in which the decoder finds its
arguments (`assembledWord_agrees`), and this word is their encoding (`append_law`). On a failed
assembler most emitters look at the status before their arguments; `B` looks at it last and `RET` after
its register, so these two replace the first error in the cases of `ArmCall.Ignored`, and a sequence
keeps its first error exactly when it avoids them (`keepsFirstError_iff`).
-/

namespace Ballistic

/-! ### Calls as checks and a word -/

namespace ArmCall

/-- The checks an emitter makes of its own arguments, in order. -/
def arguments : ArmCall → List ArmCheck
  | addImmediate rd rn imm12 shift | subImmediate rd rn imm12 shift =>
      [checkRegister rd, checkRegister rn, ArmAssembler.checkImm12 imm12,
        ArmAssembler.checkImmediateShift shift]
  | addShiftedRegister rd rn rm shift shiftType =>
      [checkRegister rd, checkRegister rn, checkRegister rm,
        (decide (63 < shift), some .invalidArgument),
        (decide (2 < shiftType), some .invalidArgument)]
  | movz rd _ shift | movk rd _ shift | movn rd _ shift =>
      [checkRegister rd,
        (decide (shift ≠ 0 ∧ shift ≠ 16 ∧ shift ≠ 32 ∧ shift ≠ 48), some .invalidArgument)]
  | b offset =>
      [(decide (offset &&& 0x3 ≠ 0), some .pcAlignment),
        ((offset.sdiv 4).slt (-33554432) || (33554431 : BitVec 32).slt (offset.sdiv 4),
          some .branchOffsetOverflow)]
  | br rn | ret rn => [checkRegister rn]

/-- All checks of a call, in the order of its emitter. -/
def checks (a : ArmAssembler) (call : ArmCall) : List ArmCheck :=
  match call with
  | addImmediate .. => a.checkMagic :: a.checkStatus :: a.checkBuffer :: call.arguments ++ [a.canEmit]
  | b _ => a.checkMagic :: a.checkBuffer :: call.arguments ++ [a.canEmit, a.checkStatus]
  | ret _ => a.checkMagic :: a.checkBuffer :: call.arguments ++ [a.checkStatus, a.canEmit]
  | _ => a.checkMagic :: a.checkBuffer :: a.checkStatus :: call.arguments ++ [a.canEmit]

def word : ArmCall → BitVec 32
  | addImmediate rd rn imm12 shift => ArmAssembler.immediateWord 0x22 rd rn imm12 shift
  | subImmediate rd rn imm12 shift => ArmAssembler.immediateWord 0xA2 rd rn imm12 shift
  | addShiftedRegister rd rn rm shift shiftType =>
      ArmAssembler.shiftedRegisterWord rd rn rm shift shiftType
  | movz rd imm shift => ArmAssembler.movWord rd imm shift 0x2
  | movk rd imm shift => ArmAssembler.movWord rd imm shift 0x3
  | movn rd imm shift => ArmAssembler.movWord rd imm shift 0x0
  | b offset => 0x14000000 ||| offset.sdiv 4 &&& 0x03FFFFFF
  | br rn => 0xD61F0000 ||| rn <<< 5
  | ret rn => 0xD65F0000 ||| rn <<< 5

theorem apply_eq (call : ArmCall) (a : ArmAssembler) :
    call.apply a = a.emitChecked (call.checks a) call.word := by
  cases call <;> rfl

theorem mem_checks {call : ArmCall} {a : ArmAssembler} {check : ArmCheck} :
    check ∈ call.checks a ↔ check = a.checkMagic ∨ check = a.checkBuffer ∨ check = a.checkStatus ∨
      check = a.canEmit ∨ check ∈ call.arguments := by
  cases call <;> simp only [checks, List.cons_append, List.mem_cons, List.mem_append,
    List.not_mem_nil, or_false] <;> tauto

/-- Every check but that of the status sets an error where it fails. -/
theorem checks_error (call : ArmCall) (a : ArmAssembler) :
    ∀ check ∈ call.checks a, check = a.checkStatus ∨ ∃ e, e ≠ BalError.success ∧ check.2 = some e := by
  have harguments : ∀ check ∈ call.arguments, ∃ e, e ≠ BalError.success ∧ check.2 = some e := by
    cases call <;> simp [arguments, checkRegister, ArmAssembler.checkImm12,
      ArmAssembler.checkImmediateShift]
  intro check hcheck
  rcases mem_checks.mp hcheck with rfl | rfl | rfl | rfl | hargument
  · exact .inr ⟨.structCorrupted, nofun, rfl⟩
  · exact .inr ⟨.invalidArgument, nofun, rfl⟩
  · exact .inl rfl
  · exact .inr ⟨.instructionOverflow, nofun, rfl⟩
  · exact .inr (harguments check hargument)

/-! ### Documented ranges -/

/-- The ranges that the documentation of the emitters gives for their arguments. -/
def InRange : ArmCall → Prop
  | addImmediate rd rn imm12 shift | subImmediate rd rn imm12 shift =>
      rd.toNat ≤ 31 ∧ rn.toNat ≤ 31 ∧ imm12.toNat ≤ 4095 ∧ (shift = 0 ∨ shift = 1)
  | addShiftedRegister rd rn rm shift shiftType =>
      rd.toNat ≤ 31 ∧ rn.toNat ≤ 31 ∧ rm.toNat ≤ 31 ∧ shift.toNat ≤ 63 ∧ shiftType.toNat ≤ 2
  | movz rd _ shift | movk rd _ shift | movn rd _ shift =>
      rd.toNat ≤ 31 ∧ (shift = 0 ∨ shift = 16 ∨ shift = 32 ∨ shift = 48)
  | b offset => offset.toInt % 4 = 0 ∧ -2 ^ 27 ≤ offset.toInt ∧ offset.toInt < 2 ^ 27
  | br rn | ret rn => rn.toNat ≤ 31

theorem toNat_mod_four {offset : BitVec 32} : offset &&& 0x3 = 0 ↔ offset.toInt % 4 = 0 := by
  have hmask : (offset &&& 0x3).toNat = offset.toNat % 4 := by
    rw [BitVec.toNat_and]
    exact Nat.and_two_pow_sub_one_eq_mod offset.toNat 2
  have hint : offset.toInt % 4 = (offset.toNat % 4 : Nat) := by
    rw [BitVec.toInt_eq_toNat_cond]
    split <;> omega
  rw [hint, ← hmask]
  constructor
  · intro hzero
    rw [hzero]
    rfl
  · intro hzero
    apply BitVec.eq_of_toNat_eq
    exact Int.natCast_inj.mp hzero

/-- The bounds on the quotient are bounds on an aligned offset. -/
theorem branchBounds {offset : BitVec 32} (halign : offset &&& 0x3 = 0) :
    ((offset.sdiv 4).slt (-33554432) || (33554431 : BitVec 32).slt (offset.sdiv 4)) = false ↔
      -2 ^ 27 ≤ offset.toInt ∧ offset.toInt < 2 ^ 27 := by
  have hfour := toInt_sdiv_four halign
  have hlow : (-33554432 : BitVec 32).toInt = -33554432 := by decide
  have hhigh : (33554431 : BitVec 32).toInt = 33554431 := by decide
  rw [Bool.or_eq_false_iff, BitVec.slt_eq_decide, BitVec.slt_eq_decide, decide_eq_false_iff_not,
    decide_eq_false_iff_not, hlow, hhigh]
  omega

theorem checkRegister_iff (r : BitVec 32) : (checkRegister r).1 = false ↔ r.toNat ≤ 31 := by
  simp [checkRegister, BitVec.lt_def]

/-- The checks of the arguments are the documented ranges. -/
theorem inRange_iff {call : ArmCall} :
    call.InRange ↔ ∀ check ∈ call.arguments, check.1 = false := by
  cases call with
  | b offset =>
      simp only [InRange, arguments, List.forall_mem_cons, List.not_mem_nil, false_imp_iff,
        implies_true, and_true, decide_eq_false_iff_not, not_not, ← toNat_mod_four]
      exact and_congr_right fun halign => (branchBounds halign).symm
  | addImmediate rd rn imm12 shift | subImmediate rd rn imm12 shift =>
      simp only [InRange, arguments, List.forall_mem_cons, checkRegister_iff]
      simp [ArmAssembler.checkImm12, ArmAssembler.checkImmediateShift, BitVec.lt_def,
        Decidable.or_iff_not_imp_left]
  | addShiftedRegister rd rn rm shift shiftType =>
      simp only [InRange, arguments, List.forall_mem_cons, checkRegister_iff]
      simp [BitVec.lt_def]
  | movz rd imm shift | movk rd imm shift | movn rd imm shift =>
      simp only [InRange, arguments, List.forall_mem_cons, checkRegister_iff]
      simp [Decidable.or_iff_not_imp_left]
  | br rn | ret rn =>
      simp only [InRange, arguments, List.forall_mem_cons, checkRegister_iff]
      simp

/-- The word of arguments in range decodes to an entry with the mnemonic, from which the translators take
the arguments. -/
theorem word_agrees {table : DecoderTable} (hgenerated : table.Generated) {call : ArmCall}
    (h : call.InRange) : ∃ m, call.Agrees table call.word m := by
  have hchecks := inRange_iff.mp h
  cases call with
  | addImmediate rd rn imm12 shift =>
      simp only [arguments, List.forall_mem_cons] at hchecks
      obtain ⟨hrd, hrn, himm12, hshift, -⟩ := hchecks
      exact ⟨_, agrees_immediate hgenerated false hrd hrn himm12 hshift⟩
  | subImmediate rd rn imm12 shift =>
      simp only [arguments, List.forall_mem_cons] at hchecks
      obtain ⟨hrd, hrn, himm12, hshift, -⟩ := hchecks
      exact ⟨_, agrees_immediate hgenerated true hrd hrn himm12 hshift⟩
  | addShiftedRegister rd rn rm shift shiftType =>
      simp only [arguments, List.forall_mem_cons] at hchecks
      obtain ⟨hrd, hrn, hrm, -⟩ := hchecks
      obtain ⟨-, -, -, hshift, htype⟩ := h
      obtain ⟨hdecode, hoperands⟩ := decode_shiftedRegisterWord hgenerated (checkRegister_passed hrd)
        (checkRegister_passed hrn) (checkRegister_passed hrm) (Nat.lt_succ_of_le hshift)
        (Nat.lt_succ_of_lt (Nat.lt_succ_of_le htype)) rfl
      exact ⟨_, hdecode, rfl, hoperands, nofun⟩
  | movz rd imm shift =>
      simp only [arguments, List.forall_mem_cons] at hchecks
      exact ⟨_, agrees_mov hgenerated 2 (by decide) rfl rfl nofun hchecks.1 hchecks.2.1⟩
  | movk rd imm shift =>
      simp only [arguments, List.forall_mem_cons] at hchecks
      exact ⟨_, agrees_mov hgenerated 3 (by decide) rfl rfl nofun hchecks.1 hchecks.2.1⟩
  | movn rd imm shift =>
      simp only [arguments, List.forall_mem_cons] at hchecks
      exact ⟨_, agrees_mov hgenerated 0 (by decide) rfl rfl nofun hchecks.1 hchecks.2.1⟩
  | b offset =>
      simp only [arguments, List.forall_mem_cons] at hchecks
      obtain ⟨halign, hrange, -⟩ := hchecks
      have halign : offset &&& 0x3 = 0 := not_not.mp (of_decide_eq_false halign)
      obtain ⟨hlow, hhigh⟩ := Bool.or_eq_false_iff.mp hrange
      have hlow := fun h => Bool.eq_false_iff.mp hlow (BitVec.slt_iff_toInt_lt.mpr h)
      have hhigh := fun h => Bool.eq_false_iff.mp hhigh (BitVec.slt_iff_toInt_lt.mpr h)
      exact ⟨_, agrees_b hgenerated halign (Int.not_lt.mp hlow) (Int.not_lt.mp hhigh)⟩
  | br rn =>
      simp only [arguments, List.forall_mem_cons] at hchecks
      obtain ⟨hdecode, hoperands⟩ := decode_registerWord (m := brMetadata) hgenerated rfl rfl
        (by decide) rfl (checkRegister_passed hchecks.1) rfl
      exact ⟨_, hdecode, rfl, hoperands, nofun⟩
  | ret rn =>
      simp only [arguments, List.forall_mem_cons] at hchecks
      obtain ⟨hdecode, hoperands⟩ := decode_registerWord (m := retMetadata) hgenerated rfl rfl
        (by decide) rfl (checkRegister_passed hchecks.1) rfl
      exact ⟨_, hdecode, rfl, hoperands, nofun⟩

end ArmCall

/-! ### One call -/

namespace ArmAssembler

variable {a : ArmAssembler}

/-- The assembler that the checks of its own fields let through, up to the status. -/
structure Live (a : ArmAssembler) : Prop where
  alive : a.alive = true
  buffer : a.buffer.isSome = true

theorem emitChecked_passed {checks : List ArmCheck} (w : BitVec 32)
    (h : ∀ check ∈ checks, check.1 = false) : a.emitChecked checks w = a.write w := by
  have hnone : checks.find? Prod.fst = none := by
    rw [List.find?_eq_none]
    intro check hcheck
    simp [h check hcheck]
  rw [emitChecked, hnone]

theorem emitChecked_refused {checks : List ArmCheck} (w : BitVec 32)
    (h : ∃ check ∈ checks, check.1 = true) :
    ∃ check ∈ checks, check.1 = true ∧
      a.emitChecked checks w = { a with status := check.2.getD a.status } := by
  obtain ⟨check, hcheck, htrue⟩ := h
  cases hfind : checks.find? Prod.fst with
  | none => exact absurd htrue (List.find?_eq_none.mp hfind check hcheck)
  | some first =>
      refine ⟨first, List.mem_of_find?_eq_some hfind, List.find?_some hfind, ?_⟩
      rw [emitChecked, hfind]
      obtain ⟨fails, _ | e⟩ := first <;> rfl

theorem Live.checks (h : a.Live) : a.checkMagic.1 = false ∧ a.checkBuffer.1 = false := by
  refine ⟨by simp [checkMagic, h.alive], ?_⟩
  rw [checkBuffer, Option.isNone_eq_false_iff]
  exact h.buffer

/-- Room and arguments decide what a call does to an assembler that has not failed. -/
theorem apply_success (hlive : a.Live) (hstatus : a.status = .success) (call : ArmCall) :
    (call.InRange ∧ a.offset < a.capacity ∧ call.apply a = a.write call.word) ∨
      (¬(call.InRange ∧ a.offset < a.capacity) ∧
        ∃ e, e ≠ .success ∧ call.apply a = { a with status := e }) := by
  obtain ⟨hmagic, hbuffer⟩ := hlive.checks
  have hchecked : a.checkStatus.1 = false := by simp [checkStatus, hstatus]
  have hroom : a.canEmit.1 = false ↔ a.offset < a.capacity := by simp [canEmit]
  have hall : (∀ check ∈ call.checks a, check.1 = false) ↔
      call.InRange ∧ a.offset < a.capacity := by
    simp only [ArmCall.mem_checks, ArmCall.inRange_iff, ← hroom]
    constructor
    · intro h
      exact ⟨fun check hcheck => h check (.inr (.inr (.inr (.inr hcheck)))),
        h _ (.inr (.inr (.inr (.inl rfl))))⟩
    · rintro ⟨harguments, hcan⟩ check (rfl | rfl | rfl | rfl | hcheck)
      · exact hmagic
      · exact hbuffer
      · exact hchecked
      · exact hcan
      · exact harguments check hcheck
  rw [call.apply_eq]
  by_cases hpassed : ∀ check ∈ call.checks a, check.1 = false
  · exact .inl ⟨(hall.mp hpassed).1, (hall.mp hpassed).2, emitChecked_passed _ hpassed⟩
  · refine .inr ⟨fun h => hpassed (hall.mpr h), ?_⟩
    obtain ⟨check, hcheck, htrue, heq⟩ :=
      emitChecked_refused (a := a) call.word (by simpa using hpassed)
    rcases call.checks_error a check hcheck with rfl | ⟨e, hne, he⟩
    · rw [hchecked] at htrue
      cases htrue
    · exact ⟨e, hne, by rw [heq, he, Option.getD_some]⟩

theorem apply_failed (hfailed : a.status ≠ .success) (call : ArmCall) :
    ∃ e, e ≠ .success ∧ call.apply a = { a with status := e } := by
  have hcheck : ∃ check ∈ call.checks a, check.1 = true :=
    ⟨a.checkStatus, ArmCall.mem_checks.mpr (.inr (.inr (.inl rfl))), by simp [checkStatus, hfailed]⟩
  rw [call.apply_eq]
  obtain ⟨check, hcheck, -, heq⟩ := emitChecked_refused (a := a) call.word hcheck
  rcases call.checks_error a check hcheck with rfl | ⟨e, hne, he⟩
  · exact ⟨a.status, hfailed, heq⟩
  · exact ⟨e, hne, by rw [heq, he, Option.getD_some]⟩

/-- A sequence of calls. -/
def emitAll (a : ArmAssembler) (calls : List ArmCall) : ArmAssembler :=
  calls.foldl (fun a call => call.apply a) a

theorem emitAll_append (a : ArmAssembler) (calls calls' : List ArmCall) :
    a.emitAll (calls ++ calls') = (a.emitAll calls).emitAll calls' := List.foldl_append

@[simp]
theorem emitAll_cons (a : ArmAssembler) (call : ArmCall) (calls : List ArmCall) :
    a.emitAll (call :: calls) = (call.apply a).emitAll calls := rfl

/-- What every call keeps: the buffer pointer, the magic number, and the end of the buffer. -/
structure Sound (a : ArmAssembler) : Prop extends a.Live where
  inside : a.offset ≤ a.capacity

theorem Live.apply (h : a.Live) (call : ArmCall) : (call.apply a).Live := by
  by_cases hstatus : a.status = .success
  · obtain ⟨-, -, heq⟩ | ⟨-, e, -, heq⟩ := apply_success h hstatus call
    · rw [heq]
      exact ⟨h.alive, by simpa [write] using h.buffer⟩
    · rw [heq]
      exact ⟨h.alive, h.buffer⟩
  · obtain ⟨e, -, heq⟩ := apply_failed hstatus call
    rw [heq]
    exact ⟨h.alive, h.buffer⟩

theorem Sound.apply (h : a.Sound) (call : ArmCall) : (call.apply a).Sound := by
  refine ⟨h.toLive.apply call, ?_⟩
  have hinside := h.inside
  by_cases hstatus : a.status = .success
  · obtain ⟨-, hroom, heq⟩ | ⟨-, e, -, heq⟩ := apply_success h.toLive hstatus call
    · rw [heq]
      exact hroom
    · rw [heq]
      exact hinside
  · obtain ⟨e, -, heq⟩ := apply_failed hstatus call
    rw [heq]
    exact hinside

theorem Live.emitAll (h : a.Live) (calls : List ArmCall) : (a.emitAll calls).Live := by
  induction calls generalizing a with
  | nil => exact h
  | cons call calls ih => exact ih (h.apply call)

theorem Sound.emitAll (h : a.Sound) (calls : List ArmCall) : (a.emitAll calls).Sound := by
  induction calls generalizing a with
  | nil => exact h
  | cons call calls ih => exact ih (h.apply call)

end ArmAssembler

/-- The call stores a word, which decodes to an entry with its mnemonic and from which the translators take
its arguments. -/
def ArmCall.EmitsWord (table : DecoderTable) (a : ArmAssembler) (call : ArmCall) : Prop :=
  ∃ buffer m, (call.apply a).buffer = some buffer ∧ (call.apply a).offset = a.offset + 1 ∧
    call.Agrees table (buffer a.offset) m

/-- **Assembler and decoder agree.** A live assembler that has not failed and has room accepts exactly
the arguments in range, and stores a word for them from which the decoder and the translators take them
back; a branch goes to its offset. -/
theorem assembledWord_agrees {table : DecoderTable} {a : ArmAssembler} (hgenerated : table.Generated)
    (hlive : a.Live) (hstatus : a.status = .success) (hroom : a.offset < a.capacity) (call : ArmCall) :
    ((call.apply a).status = .success ↔ call.InRange) ∧ (call.InRange → call.EmitsWord table a) := by
  obtain ⟨hrange, -, happly⟩ | ⟨hrefused, e, hne, happly⟩ :=
    ArmAssembler.apply_success hlive hstatus call
  · obtain ⟨buffer, hbuffer⟩ := Option.isSome_iff_exists.mp hlive.buffer
    obtain ⟨m, hagrees⟩ := ArmCall.word_agrees hgenerated hrange
    have hstored : (call.apply a).buffer = some fun i => if i = a.offset then call.word else buffer i := by
      rw [happly, ArmAssembler.write, hbuffer]
      rfl
    refine ⟨iff_of_true (by rw [happly]; exact hstatus) hrange, fun _ => ⟨_, m, hstored, ?_, ?_⟩⟩
    · rw [happly]
      rfl
    · rw [if_pos rfl]
      exact hagrees
  · rw [happly]
    exact ⟨iff_of_false hne fun hrange => hrefused ⟨hrange, hroom⟩,
      fun hrange => absurd ⟨hrange, hroom⟩ hrefused⟩

/-- `B` to the instruction before it, `MOVK X20, #0xBEEF, LSL #48` and `SUB X3, X31, #4095, LSL #12`, each
as the first word of a buffer. -/
theorem assembledWord_agrees_three :
    let a : ArmAssembler := ⟨some fun _ => 0, 1, 0, .success, true⟩
    (ArmCall.b (-4)).EmitsWord generatedTable a ∧ (ArmCall.movk 20 0xBEEF 48).EmitsWord generatedTable a ∧
      (ArmCall.subImmediate 3 31 4095 1).EmitsWord generatedTable a := by
  intro a
  have hagrees := assembledWord_agrees (a := a) generatedTable_generated ⟨rfl, rfl⟩ rfl Nat.one_pos
  exact ⟨(hagrees _).2 ⟨by decide, by decide, by decide⟩, (hagrees _).2 ⟨by decide, by decide⟩,
    (hagrees _).2 ⟨by decide, by decide, by decide, by decide⟩⟩

/-! ### Encodings -/

theorem setWidth_field {n k : Nat} {x : BitVec n} (hx : x.toNat < 2 ^ k) :
    (x.setWidth k).setWidth 32 = x.setWidth 32 := by
  apply BitVec.eq_of_toNat_eq
  rw [BitVec.toNat_setWidth, BitVec.toNat_setWidth, BitVec.toNat_setWidth, Nat.mod_eq_of_lt hx]

namespace ArmCall

/-- The encoding of the instruction, field by field. -/
def encoding : ArmCall → BitVec 32
  | addImmediate rd rn imm12 shift =>
      0b100100010#9 ++ (shift.setWidth 1 ++ (imm12.setWidth 12 ++ (rn.setWidth 5 ++ rd.setWidth 5)))
  | subImmediate rd rn imm12 shift =>
      0b110100010#9 ++ (shift.setWidth 1 ++ (imm12.setWidth 12 ++ (rn.setWidth 5 ++ rd.setWidth 5)))
  | addShiftedRegister rd rn rm shift shiftType =>
      0b10001011#8 ++ (shiftType.setWidth 2 ++ (0#1 ++ (rm.setWidth 5 ++ (shift.setWidth 6 ++
        (rn.setWidth 5 ++ rd.setWidth 5)))))
  | movz rd imm shift =>
      0b110100101#9 ++ ((shift / 16).setWidth 2 ++ (imm ++ rd.setWidth 5))
  | movk rd imm shift =>
      0b111100101#9 ++ ((shift / 16).setWidth 2 ++ (imm ++ rd.setWidth 5))
  | movn rd imm shift =>
      0b100100101#9 ++ ((shift / 16).setWidth 2 ++ (imm ++ rd.setWidth 5))
  | b offset => 0b000101#6 ++ BitVec.ofInt 26 (offset.toInt / 4)
  | br rn => 0b1101011000011111000000#22 ++ (rn.setWidth 5 ++ 0#5)
  | ret rn => 0b1101011001011111000000#22 ++ (rn.setWidth 5 ++ 0#5)

/-- A register index is its field. -/
theorem setWidth_register {r : BitVec 32} (h : r.toNat ≤ 31) : (r.setWidth 5).setWidth 32 = r := by
  rw [setWidth_field (Nat.lt_succ_of_le h), BitVec.setWidth_eq]

theorem branchField_eq {offset : BitVec 32} (h : (b offset).InRange) :
    offset.sdiv 4 &&& 0x03FFFFFF = (BitVec.ofInt 26 (offset.toInt / 4)).setWidth 32 := by
  have hfour := toInt_sdiv_four (toNat_mod_four.mpr h.1)
  have hquotient : offset.toInt / 4 = (offset.sdiv 4).toInt := by omega
  have hfield : BitVec.ofInt 26 (offset.toInt / 4) = (offset.sdiv 4).setWidth 26 := by
    obtain ⟨-, hlow, hhigh⟩ := h
    apply BitVec.eq_of_toInt_eq
    rw [toInt_narrow (by omega) (by omega), BitVec.toInt_ofInt, ← hquotient]
    exact Int.bmod_eq_of_le (by omega) (by omega)
  have hmask : (0x03FFFFFF : BitVec 32).toNat = 2 ^ 26 - 1 := by decide
  rw [hfield]
  apply BitVec.eq_of_toNat_eq
  rw [BitVec.toNat_and, hmask, Nat.and_two_pow_sub_one_eq_mod, BitVec.toNat_setWidth,
    BitVec.toNat_setWidth]
  omega

end ArmCall

/-! ### Sequences -/

section Sequences

variable {a : ArmAssembler}

/-- The outcome of a call: one word more, the encoding of the arguments, or an error status and
nothing else. -/
inductive ArmCall.Outcome (a : ArmAssembler) (call : ArmCall) : Prop
  | appends {buffer : Nat → BitVec 32} (hbuffer : a.buffer = some buffer)
      (happly : call.apply a =
        { a with
          buffer := some (Function.update buffer a.offset call.encoding)
          offset := a.offset + 1 })
  | fails {e : BalError} (herror : e ≠ .success) (happly : call.apply a = { a with status := e })

theorem ArmAssembler.write_eq {buffer : Nat → BitVec 32} (h : a.buffer = some buffer)
    (w : BitVec 32) :
    a.write w =
      { a with buffer := some (Function.update buffer a.offset w), offset := a.offset + 1 } := by
  have hupdate : (fun i => if i = a.offset then w else buffer i) =
      Function.update buffer a.offset w := by
    funext i
    by_cases hi : i = a.offset
    · rw [if_pos hi, hi, Function.update_self]
    · rw [if_neg hi, Function.update_of_ne hi]
  rw [ArmAssembler.write, h, Option.map_some, hupdate]

/-- The cases in which a call leaves a failed assembler alone. -/
def ArmCall.Ignored (a : ArmAssembler) : ArmCall → Prop
  | b offset =>
      if offset.toInt % 4 ≠ 0 then a.status = .pcAlignment
      else if offset.toInt < -2 ^ 27 ∨ 2 ^ 27 ≤ offset.toInt then a.status = .branchOffsetOverflow
      else a.capacity ≤ a.offset → a.status = .instructionOverflow
  | ret rn => 31 < rn.toNat → a.status = .invalidArgument
  | _ => True

/-- Once a call has failed, the later calls of the sequence change nothing. -/
def KeepsFirstError (a : ArmAssembler) (calls : List ArmCall) : Prop :=
  ∀ before middle after, calls = before ++ middle ++ after →
    (a.emitAll before).status ≠ .success → a.emitAll (before ++ middle) = a.emitAll before

/-- A first check that fails decides the call. -/
theorem ArmAssembler.emitChecked_cons {check : ArmCheck} {checks : List ArmCheck} (w : BitVec 32) :
    a.emitChecked (check :: checks) w =
      if check.1 then { a with status := check.2.getD a.status } else a.emitChecked checks w := by
  obtain ⟨fails, _ | e⟩ := check <;> cases fails <;> rfl

theorem ArmAssembler.withStatus_iff {e : BalError} :
    { a with status := e } = a ↔ a.status = e := by
  constructor
  · intro h
    exact (congrArg ArmAssembler.status h).symm
  · rintro rfl
    rfl

theorem ArmAssembler.emitChecked_live (hlive : a.Live) (checks : List ArmCheck) (w : BitVec 32) :
    a.emitChecked (a.checkMagic :: a.checkBuffer :: checks) w = a.emitChecked checks w := by
  obtain ⟨hmagic, hbuffer⟩ := hlive.checks
  rw [emitChecked_cons, hmagic, emitChecked_cons, hbuffer]
  rfl

theorem ArmAssembler.emitChecked_failed (hfailed : a.status ≠ .success) (checks : List ArmCheck)
    (w : BitVec 32) : a.emitChecked (a.checkStatus :: checks) w = a := by
  rw [emitChecked_cons, if_pos (by simp [checkStatus, hfailed])]
  rfl

theorem ArmCall.ignored_iff (hlive : a.Live) (hfailed : a.status ≠ .success) {call : ArmCall} :
    call.apply a = a ↔ call.Ignored a := by
  rw [call.apply_eq]
  cases call with
  | b offset =>
      simp only [checks, arguments, List.cons_append, List.nil_append]
      rw [ArmAssembler.emitChecked_live hlive, ArmAssembler.emitChecked_cons, Ignored]
      simp only [decide_eq_true_eq, ne_eq, toNat_mod_four]
      by_cases halign : offset.toInt % 4 = 0
      · have hbounds := branchBounds (toNat_mod_four.mpr halign)
        rw [if_neg (not_not.mpr halign), if_neg (not_not.mpr halign),
          ArmAssembler.emitChecked_cons]
        by_cases hrange : -2 ^ 27 ≤ offset.toInt ∧ offset.toInt < 2 ^ 27
        · have hinside : ¬(offset.toInt < -2 ^ 27 ∨ 2 ^ 27 ≤ offset.toInt) := by omega
          rw [hbounds.mpr hrange, if_neg Bool.false_ne_true, if_neg hinside,
            ArmAssembler.emitChecked_cons]
          by_cases hroom : a.capacity ≤ a.offset
          · simp only [ArmAssembler.canEmit, hroom, decide_true, if_true, Option.getD_some,
              true_imp_iff]
            exact ArmAssembler.withStatus_iff
          · simp only [ArmAssembler.canEmit, hroom, decide_false, Bool.false_eq_true, if_false,
              false_imp_iff]
            exact iff_of_true (ArmAssembler.emitChecked_failed hfailed [] _) trivial
        · have houtside : offset.toInt < -2 ^ 27 ∨ 2 ^ 27 ≤ offset.toInt := by omega
          rw [Bool.eq_true_of_not_eq_false (hrange ∘ hbounds.mp), if_pos rfl, if_pos houtside]
          exact ArmAssembler.withStatus_iff
      · rw [if_pos halign, if_pos halign]
        exact ArmAssembler.withStatus_iff
  | ret rn =>
      simp only [checks, arguments, List.cons_append, List.nil_append]
      rw [ArmAssembler.emitChecked_live hlive, ArmAssembler.emitChecked_cons,
        ArmAssembler.emitChecked_failed hfailed, Ignored]
      by_cases hrange : rn.toNat ≤ 31
      · rw [(checkRegister_iff rn).mpr hrange]
        exact iff_of_true rfl fun hout => absurd hrange (by omega)
      · rw [Bool.eq_true_of_not_eq_false (hrange ∘ (checkRegister_iff rn).mp), if_pos rfl]
        simp only [Nat.lt_of_not_le hrange, true_imp_iff]
        exact ArmAssembler.withStatus_iff
  | addImmediate rd rn imm12 shift =>
      simp only [checks, List.cons_append]
      rw [ArmAssembler.emitChecked_cons, hlive.checks.1, if_neg Bool.false_ne_true,
        ArmAssembler.emitChecked_failed hfailed]
      exact iff_of_true rfl trivial
  | subImmediate | addShiftedRegister | movz | movk | movn | br =>
      simp only [checks, List.cons_append]
      rw [ArmAssembler.emitChecked_live hlive, ArmAssembler.emitChecked_failed hfailed]
      exact iff_of_true rfl trivial

/-- **Sticky errors.** The first error of a sequence stays exactly when no `B` and no `RET` of it
meets a failed assembler in one of the cases in which these two emitters set a status of their
own. -/
theorem keepsFirstError_iff (hlive : a.Live) (calls : List ArmCall) :
    KeepsFirstError a calls ↔
      ∀ before call after, calls = before ++ call :: after →
        (a.emitAll before).status ≠ .success → call.Ignored (a.emitAll before) := by
  constructor
  · intro hkeeps before call after heq hfailed
    rw [← ArmCall.ignored_iff (hlive.emitAll before) hfailed]
    have hstep := hkeeps before [call] after (by simpa using heq) hfailed
    rwa [ArmAssembler.emitAll_append] at hstep
  · intro hignored before middle after
    induction middle generalizing before with
    | nil =>
        intro _ _
        rw [List.append_nil]
    | cons call middle ih =>
        intro heq hfailed
        have hsame : a.emitAll (before ++ [call]) = a.emitAll before := by
          rw [ArmAssembler.emitAll_append]
          refine (ArmCall.ignored_iff (hlive.emitAll before) hfailed).mpr ?_
          exact hignored before call (middle ++ after) (by simpa using heq) hfailed
        have hrest := ih (before ++ [call]) (by simpa using heq) (by rwa [hsame])
        rw [hsame] at hrest
        rw [← hrest]
        simp

/-- A `RET` of a register that does not exist replaces an overflow. -/
theorem keepsFirstError_iff_ret :
    ¬KeepsFirstError (ArmAssembler.balAssemblerInit (some fun _ => 0) true 1)
      [.ret 30, .ret 30, .ret 32] := by
  rw [keepsFirstError_iff ⟨rfl, rfl⟩]
  intro hignored
  have hret := hignored [.ret 30, .ret 30] (.ret 32) [] rfl (by decide)
  exact absurd (hret (by decide)) (by decide)

/-- A misaligned `B` replaces an overflow. -/
theorem b_replaces_overflow :
    let a := ArmAssembler.balAssemblerInit (some fun _ => 0) true 1
    (a.emitAll [.ret 30, .ret 30]).status = .instructionOverflow ∧
      (a.emitAll [.ret 30, .ret 30, .b 2]).status = .pcAlignment ∧
      ¬KeepsFirstError a [.ret 30, .ret 30, .b 2] := by
  refine ⟨by decide, by decide, fun hkeeps => ?_⟩
  have hsame := hkeeps [.ret 30, .ret 30] [.b 2] [] rfl (by decide)
  exact absurd (congrArg ArmAssembler.status hsame) (by decide)

end Sequences

end Ballistic
