import Ballistic.Proof.Assembling
import Ballistic.Proof.Fetches
import Ballistic.Proof.ProgramRuns

/-!
# Programs from the assembler

A sequence of calls of the A64 assembler is a program: an instruction a call, one behind the other. If
all calls succeed, the buffer is guest memory that holds this program, and an engine that starts at its
first word ends in the state in which the program itself halts (`assembled_finishes`).
-/

namespace Ballistic

open Machine

/-! ### The instructions of the calls -/

/-- The register a call names. -/
def registerOf (r : BitVec 32) : A64.Register := (r.setWidth 5).toFin

/-- The A64 instruction that a call asks for; `BR` is not one of the reference machine's. -/
def ArmCall.instr : ArmCall → Option A64.Instr
  | addImmediate rd rn imm12 shift =>
      some (.addSubImm true false false (shift.getLsbD 0) (imm12.setWidth 12) (registerOf rn)
        (registerOf rd))
  | subImmediate rd rn imm12 shift =>
      some (.addSubImm true true false (shift.getLsbD 0) (imm12.setWidth 12) (registerOf rn)
        (registerOf rd))
  | addShiftedRegister rd rn rm shift shiftType =>
      some (.addSubShifted true false false (shiftType.setWidth 2) (registerOf rm) (shift.setWidth 6)
        (registerOf rn) (registerOf rd))
  | movz rd imm shift => some (.moveWide true 2 ((shift / 16).setWidth 2) imm (registerOf rd))
  | movk rd imm shift => some (.moveWide true 3 ((shift / 16).setWidth 2) imm (registerOf rd))
  | movn rd imm shift => some (.moveWide true 0 ((shift / 16).setWidth 2) imm (registerOf rd))
  | b offset => some (.branch (BitVec.ofInt 26 (offset.toInt / 4)))
  | br _ => none
  | ret rn => some (.ret (registerOf rn))

section Classes

variable {w : BitVec 32}

/-- A part of a field. -/
theorem extractLsb'_part {p len : Nat} {v : BitVec len} (h : w.extractLsb' p len = v) (q len' : Nat)
    (hfits : q + len' ≤ len) : w.extractLsb' (p + q) len' = v.extractLsb' q len' := by
  subst h
  ext i hi
  have hlt : q + i < len := by omega
  simp [hlt, Nat.add_assoc]

/-- A field that does not contain a part of the word is another one. -/
theorem extractLsb'_ne {p len : Nat} {v : BitVec len} {q len' : Nat} {u : BitVec len'}
    (h : w.extractLsb' (p + q) len' = u) (hfits : q + len' ≤ len) (hne : v.extractLsb' q len' ≠ u) :
    w.extractLsb' p len ≠ v :=
  fun hfield => hne ((extractLsb'_part hfield q len' hfits).symm.trans h)

theorem reads_addSubImm (h : w.extractLsb' 23 6 = 0x22) :
    A64.decode w = some (.addSubImm (w.getLsbD 31) (w.getLsbD 30) (w.getLsbD 29) (w.getLsbD 22)
      (w.extractLsb' 10 12) (A64.registerAt w 5) (A64.registerAt w 0)) := by
  simp only [A64.decode, h, if_true]

theorem reads_moveWide (h : w.extractLsb' 23 6 = 0x25) :
    A64.decode w = some (.moveWide (w.getLsbD 31) (w.extractLsb' 29 2) (w.extractLsb' 21 2)
      (w.extractLsb' 5 16) (A64.registerAt w 0)) := by
  have htags : w.extractLsb' 22 7 ≠ 0x46 := extractLsb'_ne (q := 1) h (by decide) (by decide)
  simp only [A64.decode, h, htags, false_and, if_false, if_true, BitVec.reduceEq]

theorem reads_addSubShifted (h : w.extractLsb' 24 5 = 0x0B) (hbit : w.getLsbD 21 = false) :
    A64.decode w = some (.addSubShifted (w.getLsbD 31) (w.getLsbD 30) (w.getLsbD 29)
      (w.extractLsb' 22 2) (A64.registerAt w 16) (w.extractLsb' 10 6) (A64.registerAt w 5)
      (A64.registerAt w 0)) := by
  have hclass {v : BitVec 6} (hv : v.extractLsb' 1 5 ≠ 0x0B) : w.extractLsb' 23 6 ≠ v :=
    extractLsb'_ne (q := 1) h (by decide) hv
  have htags : w.extractLsb' 22 7 ≠ 0x46 := extractLsb'_ne (q := 2) h (by decide) (by decide)
  simp only [A64.decode, hclass (v := 0x22) (by decide), hclass (v := 0x24) (by decide),
    hclass (v := 0x25) (by decide), htags, h, hbit, false_and, and_self, if_false, if_true,
    BitVec.reduceEq]

theorem reads_branch (h : w.extractLsb' 26 6 = 0x05) :
    A64.decode w = some (.branch (w.extractLsb' 0 26)) := by
  have hlow : w.extractLsb' 26 3 = 5#3 := extractLsb'_part h 0 3 (by decide)
  have hsix {v : BitVec 6} (hv : v.extractLsb' 3 3 ≠ 5#3) : w.extractLsb' 23 6 ≠ v :=
    extractLsb'_ne (q := 3) hlow (by decide) hv
  have hfive {v : BitVec 5} (hv : v.extractLsb' 2 3 ≠ 5#3) : w.extractLsb' 24 5 ≠ v :=
    extractLsb'_ne (q := 2) hlow (by decide) hv
  have htags : w.extractLsb' 22 7 ≠ 0x46 := extractLsb'_ne (q := 4) hlow (by decide) (by decide)
  have hextended : w.extractLsb' 21 8 ≠ 0x59 := extractLsb'_ne (q := 5) hlow (by decide) (by decide)
  have hcond : w.extractLsb' 24 8 ≠ 0x54 := extractLsb'_ne (q := 2) h (by decide) (by decide)
  simp only [A64.decode, hsix (v := 0x22) (by decide), hsix (v := 0x24) (by decide),
    hsix (v := 0x25) (by decide), htags, hfive (v := 0x0A) (by decide),
    hfive (v := 0x0B) (by decide), hextended, hcond, h, false_and, if_false, if_true]

theorem reads_ret (h : w &&& 0xFFFFFC1F = 0xD65F0000) (hlow : w.extractLsb' 21 11 = 0x6B2) :
    A64.decode w = some (.ret (A64.registerAt w 5)) := by
  have hsix {v : BitVec 6} (hv : v ≠ 0x2C) : w.extractLsb' 23 6 ≠ v := by
    rw [show w.extractLsb' 23 6 = 0x2C from extractLsb'_part hlow 2 6 (by decide)]
    exact hv.symm
  have hfive {v : BitVec 5} (hv : v ≠ 0x16) : w.extractLsb' 24 5 ≠ v := by
    rw [show w.extractLsb' 24 5 = 0x16 from extractLsb'_part hlow 3 5 (by decide)]
    exact hv.symm
  have htags : w.extractLsb' 22 7 = 0x59 := extractLsb'_part hlow 1 7 (by decide)
  have hextended : w.extractLsb' 21 8 = 0xB2 := extractLsb'_part hlow 0 8 (by decide)
  have hcond : w.extractLsb' 24 8 = 0xD6 := extractLsb'_part hlow 3 8 (by decide)
  have hbranch : w.extractLsb' 26 6 = 0x35 := extractLsb'_part hlow 5 6 (by decide)
  simp only [A64.decode, hsix (v := 0x22) (by decide), hsix (v := 0x24) (by decide),
    hsix (v := 0x25) (by decide), htags, hfive (v := 0x0A) (by decide),
    hfive (v := 0x0B) (by decide), hextended, hcond, hbranch, h, false_and, if_false, if_true,
    BitVec.reduceEq]

end Classes

namespace ArmCall

/-- A register index as a field. -/
theorem exists_register {r : BitVec 32} (h : r.toNat ≤ 31) :
    ∃ r' : BitVec 5, r = r'.setWidth 32 ∧ registerOf r = r'.toFin := by
  have hr := setWidth_register h
  exact ⟨r.setWidth 5, hr.symm, rfl⟩

theorem decode_immediate (op : Bool) {rd rn : BitVec 32} {imm12 : BitVec 16} {shift : BitVec 8}
    (h : rd.toNat ≤ 31 ∧ rn.toNat ≤ 31 ∧ imm12.toNat ≤ 4095 ∧ (shift = 0 ∨ shift = 1)) :
    A64.decode (ArmAssembler.immediateWord (if op then 0xA2 else 0x22) rd rn imm12 shift) =
      some (.addSubImm true op false (shift.getLsbD 0) (imm12.setWidth 12) (registerOf rn)
        (registerOf rd)) := by
  obtain ⟨hrd, hrn, himm12, hshift⟩ := h
  obtain ⟨rd', hrd, hrd'⟩ := exists_register hrd
  obtain ⟨rn', hrn, hrn'⟩ := exists_register hrn
  have himm12 := (setWidth_field (k := 12) (Nat.lt_succ_of_le himm12)).symm
  have hshift : shift.toNat < 2 ^ 1 := by rcases hshift with rfl | rfl <;> decide
  have hshift := (setWidth_field hshift).symm
  generalize hw : ArmAssembler.immediateWord (if op then 0xA2 else 0x22) rd rn imm12 shift = w
  rw [ArmAssembler.immediateWord, himm12, hshift, hrd, hrn] at hw
  subst hw
  rw [reads_addSubImm, hrd', hrn']
  all_goals cases op <;> simp [BitVec.extractLsb'_or, A64.registerAt]

theorem decode_mov (opc : BitVec 2) {rd : BitVec 32} {imm : BitVec 16} {shift : BitVec 8}
    (h : rd.toNat ≤ 31 ∧ (shift = 0 ∨ shift = 16 ∨ shift = 32 ∨ shift = 48)) :
    A64.decode (ArmAssembler.movWord rd imm shift (opc.setWidth 32)) =
      some (.moveWide true opc ((shift / 16).setWidth 2) imm (registerOf rd)) := by
  obtain ⟨hrd, hshift⟩ := h
  obtain ⟨rd', hrd, hrd'⟩ := exists_register hrd
  have hhw : (shift.setWidth 32).udiv 16 = ((shift / 16).setWidth 2).setWidth 32 := by
    rcases hshift with rfl | rfl | rfl | rfl <;> decide
  generalize hw : ArmAssembler.movWord rd imm shift (opc.setWidth 32) = w
  rw [ArmAssembler.movWord, hhw, hrd, and_seven] at hw
  generalize (shift / 16).setWidth 2 = hw' at hw ⊢
  subst hw
  rw [reads_moveWide, hrd']
  all_goals simp [BitVec.extractLsb'_or, A64.registerAt]

theorem decode_addShiftedRegister {rd rn rm : BitVec 32} {shift shiftType : BitVec 8}
    (h : (addShiftedRegister rd rn rm shift shiftType).InRange) :
    A64.decode (ArmAssembler.shiftedRegisterWord rd rn rm shift shiftType) =
      some (.addSubShifted true false false (shiftType.setWidth 2) (registerOf rm) (shift.setWidth 6)
        (registerOf rn) (registerOf rd)) := by
  obtain ⟨hrd, hrn, hrm, hshift, htype⟩ := h
  obtain ⟨rd', hrd, hrd'⟩ := exists_register hrd
  obtain ⟨rn', hrn, hrn'⟩ := exists_register hrn
  obtain ⟨rm', hrm, hrm'⟩ := exists_register hrm
  have hshift := (setWidth_field (k := 6) (Nat.lt_succ_of_le hshift)).symm
  have htype := (setWidth_field (k := 2) (Nat.lt_succ_of_le (Nat.le_succ_of_le htype))).symm
  generalize hw : ArmAssembler.shiftedRegisterWord rd rn rm shift shiftType = w
  rw [ArmAssembler.shiftedRegisterWord, hshift, htype, hrd, hrn, hrm] at hw
  subst hw
  rw [reads_addSubShifted, hrd', hrn', hrm']
  all_goals simp [BitVec.extractLsb'_or, A64.registerAt]

theorem decode_b {offset : BitVec 32} (h : (b offset).InRange) :
    A64.decode (0x14000000 ||| offset.sdiv 4 &&& 0x03FFFFFF) =
      some (.branch (BitVec.ofInt 26 (offset.toInt / 4))) := by
  rw [branchField_eq h, reads_branch]
  all_goals simp [BitVec.extractLsb'_or]

theorem decode_ret {rn : BitVec 32} (h : rn.toNat ≤ 31) :
    A64.decode (0xD65F0000 ||| rn <<< 5) = some (.ret (registerOf rn)) := by
  obtain ⟨rn', hrn, hrn'⟩ := exists_register h
  rw [hrn', hrn, reads_ret]
  · simp [BitVec.extractLsb'_or, A64.registerAt]
  · rw [BitVec.and_or_distrib_right, registerField_outside]
    decide
  · simp [BitVec.extractLsb'_or]

/-- The word of a call is its instruction. -/
theorem decode_word {call : ArmCall} (h : call.InRange) {i : A64.Instr} (hi : call.instr = some i) :
    A64.decode call.word = some i := by
  cases call with
  | addImmediate rd rn imm12 shift =>
      cases hi
      exact decode_immediate false h
  | subImmediate rd rn imm12 shift =>
      cases hi
      exact decode_immediate true h
  | addShiftedRegister rd rn rm shift shiftType =>
      cases hi
      exact decode_addShiftedRegister h
  | movz rd imm shift =>
      cases hi
      exact decode_mov 2 h
  | movk rd imm shift =>
      cases hi
      exact decode_mov 3 h
  | movn rd imm shift =>
      cases hi
      exact decode_mov 0 h
  | b offset =>
      cases hi
      exact decode_b h
  | br rn => cases hi
  | ret rn =>
      cases hi
      exact decode_ret h

end ArmCall

/-! ### The assembled buffer -/

namespace ArmAssembler

variable {a : ArmAssembler}

/-- The buffer in bytes. -/
def bytes (a : ArmAssembler) (k : Nat) : Byte :=
  ((a.buffer.getD fun _ => 0) (k / 4)).extractLsb' (8 * (k % 4)) 8

/-- The words of the calls, from the first one on. -/
structure Holds (a : ArmAssembler) (start : Nat) (calls : List ArmCall) : Prop where
  offset_eq : a.offset = start + calls.length
  inRange : ∀ call ∈ calls, call.InRange
  words : ∃ buffer, a.buffer = some buffer ∧
    ∀ {k : Nat} {call : ArmCall}, calls[k]? = some call → buffer (start + k) = call.word

theorem emitAll_failed (hfailed : a.status ≠ .success) (calls : List ArmCall) :
    (a.emitAll calls).status ≠ .success := by
  induction calls generalizing a with
  | nil => exact hfailed
  | cons call calls ih =>
      obtain ⟨e, he, happly⟩ := apply_failed hfailed call
      have hnext : (call.apply a).status ≠ .success := by
        rw [happly]
        exact he
      exact ih hnext

/-- The first of some calls that all succeed. -/
theorem apply_of_success (hlive : a.Live) {call : ArmCall} {calls : List ArmCall}
    (hsuccess : (a.emitAll (call :: calls)).status = .success) {buffer : Nat → BitVec 32}
    (hbuffer : a.buffer = some buffer) :
    call.InRange ∧ (call.apply a).offset = a.offset + 1 ∧
      (call.apply a).buffer = some (Function.update buffer a.offset call.word) := by
  have hstatus : a.status = .success := by
    by_contra hfailed
    exact emitAll_failed hfailed (call :: calls) hsuccess
  obtain ⟨hrange, -, happly⟩ | ⟨-, e, he, happly⟩ := apply_success hlive hstatus call
  · rw [happly, write_eq hbuffer]
    exact ⟨hrange, rfl, rfl⟩
  · have hfailed : (call.apply a).status ≠ .success := by
      rw [happly]
      exact he
    exact absurd hsuccess (emitAll_failed hfailed calls)

/-- Later calls leave the words before the offset alone. -/
theorem emitAll_keeps (hlive : a.Live) {calls : List ArmCall}
    (hsuccess : (a.emitAll calls).status = .success) {buffer : Nat → BitVec 32}
    (hbuffer : a.buffer = some buffer) :
    ∃ buffer', (a.emitAll calls).buffer = some buffer' ∧ ∀ k < a.offset, buffer' k = buffer k := by
  induction calls generalizing a buffer with
  | nil => exact ⟨buffer, hbuffer, fun k _ => rfl⟩
  | cons call calls ih =>
      obtain ⟨-, hoffset, hnext⟩ := apply_of_success hlive hsuccess hbuffer
      obtain ⟨buffer', hbuffer', hkept⟩ := ih (hlive.apply call) hsuccess hnext
      refine ⟨buffer', hbuffer', fun k hk => ?_⟩
      rw [hkept k (by omega), Function.update_of_ne hk.ne]

/-- **What the calls leave**, if they all succeed. -/
theorem emitAll_holds (hlive : a.Live) {calls : List ArmCall}
    (hsuccess : (a.emitAll calls).status = .success) : (a.emitAll calls).Holds a.offset calls := by
  induction calls generalizing a with
  | nil =>
      obtain ⟨buffer, hbuffer⟩ := Option.isSome_iff_exists.mp hlive.buffer
      exact ⟨rfl, by simp, buffer, hbuffer, by simp⟩
  | cons call calls ih =>
      obtain ⟨buffer, hbuffer⟩ := Option.isSome_iff_exists.mp hlive.buffer
      obtain ⟨hrange, hoffset, hnext⟩ := apply_of_success hlive hsuccess hbuffer
      obtain ⟨hend, hranges, buffer', hbuffer', hwords⟩ := ih (hlive.apply call) hsuccess
      obtain ⟨buffer'', hbuffer'', hkept⟩ := emitAll_keeps (hlive.apply call) hsuccess hnext
      cases hbuffer'.symm.trans hbuffer''
      rw [hoffset] at hend hwords hkept
      refine ⟨?_, List.forall_mem_cons.mpr ⟨hrange, hranges⟩, buffer', hbuffer', fun {k _} hk => ?_⟩
      · rw [emitAll_cons, hend, List.length_cons]
        omega
      · cases k with
        | zero =>
            cases hk
            rw [Nat.add_zero, hkept a.offset (Nat.lt_succ_self _), Function.update_self]
        | succ k =>
            rw [Nat.add_comm k 1, ← Nat.add_assoc]
            exact hwords hk

/-- The buffer as the memory of a guest, up to `size` bytes. -/
def guest (a : ArmAssembler) (table : DecoderTable) (size : Address) : Guest :=
  ⟨table, .flat size a.bytes⟩

theorem wordAt_bytes {buffer : Nat → BitVec 32} (hbuffer : a.buffer = some buffer) (k : Nat) :
    wordAt a.bytes (4 * k) = buffer k := by
  refine wordAt_words (fun k => ?_) k
  rw [bytes, hbuffer, Option.getD_some]

end ArmAssembler

/-! ### The program itself -/

/-- The instruction at an address of a program that begins at zero. -/
def programInstr (program : List A64.Instr) (pc : Address) : Option A64.Instr :=
  if pc.toNat % 4 = 0 then program[pc.toNat / 4]? else none

/-- The execution of one instruction of a program; none at the sentinel. -/
def programNext (program : List A64.Instr) (access : A64.TagAccess) (g : A64.State) :
    Option A64.State :=
  if g.pc = engineSentinel then none else (programInstr program g.pc).bind fun i => i.exec access g

/-- The instructions are of the integer subset, and between two ends of blocks they name at most eight
registers and fit into one block. -/
structure SmallProgram (program : List A64.Instr) : Prop where
  instrs : ∀ i ∈ program, isInteger i = true ∨ isEnd i = true
  few : ∀ body, body <:+: program → (∀ i ∈ body, isInteger i = true) →
    body.length < maxBlockInstructions ∧
      ∃ touched : Finset A64.Register, touched.card ≤ 8 ∧ ∀ i ∈ body, namedRegisters i ⊆ touched

section Programs

variable {program : List A64.Instr} {access : A64.TagAccess} {g g' : A64.State} {n : Nat}

theorem programNext_some (h : programNext program access g = some g') :
    ∃ k i, g.pc.toNat = 4 * k ∧ program[k]? = some i ∧ i.exec access g = some g' := by
  unfold programNext at h
  split at h
  · cases h
  · obtain ⟨i, hi, hexec⟩ := Option.bind_eq_some_iff.mp h
    unfold programInstr at hi
    split at hi
    · exact ⟨g.pc.toNat / 4, i, by omega, hi, hexec⟩
    · cases hi

theorem ne_sentinel_of_aligned {pc : Address} {k : Nat} (h : pc.toNat = 4 * k) :
    pc ≠ engineSentinel := by
  rintro rfl
  change 0xFFFFFFFFFFFFFFFF = 4 * k at h
  omega

theorem toNat_add_instructions {pc : Address} {k : Nat} (h : pc.toNat = 4 * k) {j : Nat}
    (hfits : 4 * (k + j) < 2 ^ 64) : (pc + BitVec.ofNat 64 (4 * j)).toNat = 4 * (k + j) := by
  rw [BitVec.toNat_add, BitVec.toNat_ofNat, h]
  omega

/-- A program that halts comes to the end of the block that it is in. -/
theorem SmallProgram.exists_end (h : SmallProgram program) (hfits : 4 * program.length < 2 ^ 64)
    (hhalts : g'.pc = engineSentinel) (hsteps : stepN (programNext program access) n g = some g')
    {k : Nat} (hpc : g.pc.toNat = 4 * k) :
    ∃ body last rest, program.drop k = body ++ last :: rest ∧ (∀ i ∈ body, isInteger i = true) ∧
      isEnd last = true := by
  induction n generalizing g k with
  | zero =>
      cases hsteps
      exact absurd hhalts (ne_sentinel_of_aligned hpc)
  | succ n ih =>
      obtain ⟨g₁, hnext, hrest⟩ := Option.bind_eq_some_iff.mp hsteps
      obtain ⟨k', i, hpc', hi, hexec⟩ := programNext_some hnext
      obtain rfl : k = k' := by omega
      obtain ⟨hk, hget⟩ := List.getElem?_eq_some_iff.mp hi
      have hdrop : program.drop k = i :: program.drop (k + 1) := by
        rw [← hget, List.getElem_cons_drop]
      rcases h.instrs i (List.mem_of_getElem? hi) with hinteger | hend
      · obtain ⟨g₂, hexec', hadvance⟩ := isInteger_next hinteger access g
        cases hexec.symm.trans hexec'
        have hnextPc : g₁.pc.toNat = 4 * (k + 1) := by
          rw [hadvance]
          exact toNat_add_instructions (j := 1) hpc (by omega)
        obtain ⟨body, last, rest, hsplit, hbody, hlast⟩ := ih hrest hnextPc
        refine ⟨i :: body, last, rest, ?_, List.forall_mem_cons.mpr ⟨hinteger, hbody⟩, hlast⟩
        rw [hdrop, hsplit, List.cons_append]
      · exact ⟨[], i, _, hdrop, by simp, hend⟩

/-! ### The program in guest memory -/

section Assembled

variable {a : ArmAssembler} {calls : List ArmCall} {table : DecoderTable} {size : Address}

/-- The calls ask for the instructions of the program, and `size` bytes of guest memory hold them. -/
structure ArmAssembler.Assembled (a : ArmAssembler) (calls : List ArmCall)
    (program : List A64.Instr) (size : Address) : Prop extends a.Holds 0 calls where
  instrs : calls.map ArmCall.instr = program.map some
  size_le : 4 * program.length ≤ size.toNat

namespace ArmAssembler.Assembled

theorem decode_word (h : a.Assembled calls program size) {k : Nat} {i : A64.Instr}
    (hi : program[k]? = some i) {pc : Address} (hpc : pc.toNat = 4 * k) :
    A64.decode (wordAt a.bytes pc.toNat) = some i := by
  have hcall : (calls.map ArmCall.instr)[k]? = some (some i) := by
    rw [h.instrs, List.getElem?_map, hi, Option.map_some]
  obtain ⟨call, hcall, hinstr⟩ := Option.map_eq_some_iff.mp (List.getElem?_map.symm.trans hcall)
  obtain ⟨buffer, hbuffer, hwords⟩ := h.words
  have hword := hwords hcall
  rw [Nat.zero_add] at hword
  rw [hpc, wordAt_bytes hbuffer, hword]
  exact ArmCall.decode_word (h.inRange call (List.mem_of_getElem? hcall)) hinstr

theorem readable (h : a.Assembled calls program size) (flags : EngineFlags) {k : Nat}
    (hk : k < program.length) {pc : Address} (hpc : pc.toNat = 4 * k) :
    ∃ bytes, Readable ((a.guest table size).input flags) pc bytes := by
  have hsize := h.size_le
  have hin : ¬size ≤ pc := by
    rw [BitVec.le_def]
    omega
  have hleft : (size - pc).toNat = size.toNat - 4 * k := by
    rw [← hpc]
    bv_omega
  refine ⟨size.toNat - 4 * k, ?_, by omega, ?_⟩
  · change (balFlatTranslationInterfaceTranslate size pc).map Prod.snd = _
    rw [balFlatTranslationInterfaceTranslate, if_neg hin, Option.map_some, hleft]
  · rintro ⟨-, hmisaligned⟩
    omega

/-- The guest takes the steps of the program. -/
theorem next (h : a.Assembled calls program size) (hnext : programNext program access g = some g') :
    (a.guest table size).next access g = some g' := by
  obtain ⟨k, i, hpc, hi, hexec⟩ := programNext_some hnext
  have hword : A64.decode ((a.guest table size).memory.word g.pc) = some i := h.decode_word hi hpc
  rw [Guest.next_word (ne_sentinel_of_aligned hpc) hword]
  exact hexec

theorem smallBlock (h : a.Assembled calls program size) (hprogram : SmallProgram program)
    {flags : EngineFlags} (hflags : flags.has EngineFlags.singleStep = false) {k : Nat}
    {body rest : List A64.Instr} {last : A64.Instr} (hdrop : program.drop k = body ++ last :: rest)
    (hbody : ∀ i ∈ body, isInteger i = true) (hlast : isEnd last = true) {pc : Address}
    (hpc : pc.toNat = 4 * k) :
    SmallBlock ((a.guest table size).input flags) pc body last := by
  have hsize := h.size_le
  have hlt := size.isLt
  have hinside : k + body.length < program.length := by
    have hlength := congrArg List.length hdrop
    rw [List.length_drop, List.length_append, List.length_cons] at hlength
    omega
  have hsub : body <:+: program := by
    refine ⟨program.take k, last :: rest, ?_⟩
    rw [List.append_assoc, ← hdrop, List.take_append_drop]
  obtain ⟨hshort, touched, hcard, hnamed⟩ := hprogram.few body hsub hbody
  have hplace {j : Nat} (hj : j ≤ body.length) :
      (pc + BitVec.ofNat 64 (4 * j)).toNat = 4 * (k + j) :=
    toNat_add_instructions hpc (by omega)
  refine ⟨fun {j i} hi => ?_, ?_, ⟨touched, hcard, fun i hi => ⟨hbody i hi, hnamed i hi⟩⟩, hlast,
    fun j hj => h.readable flags (by omega) (hplace hj)⟩
  · have hbound := (List.getElem?_eq_some_iff.mp hi).1
    have hj : j ≤ body.length := by
      rw [List.length_append, List.length_singleton] at hbound
      omega
    have hi' : (program.drop k)[j]? = some i := by
      rw [hdrop, List.append_cons, List.getElem?_append_left hbound, hi]
    rw [List.getElem?_drop] at hi'
    exact h.decode_word hi' (hplace hj)
  · simp only [Guest.input, hflags, Bool.false_eq_true, if_false]
    exact hshort

/-- From a state from which the program halts the guest executes blocks that compile. -/
theorem small (h : a.Assembled calls program size) (hprogram : SmallProgram program)
    {flags : EngineFlags} (hflags : flags.has EngineFlags.singleStep = false)
    (hhalts : g'.pc = engineSentinel) (hsteps : stepN (programNext program access) n g = some g') :
    (a.guest table size).Small flags access g := by
  have hsize := h.size_le
  have hlt := size.isLt
  induction n generalizing g with
  | zero =>
      cases hsteps
      intro g₁ hreaches
      rcases Relation.ReflTransGen.cases_head hreaches with rfl | ⟨g₂, hfirst, -⟩
      · exact .inl hhalts
      · rw [Guest.next_sentinel hhalts] at hfirst
        cases hfirst
  | succ n ih =>
      obtain ⟨g₁, hnext, hrest⟩ := Option.bind_eq_some_iff.mp hsteps
      obtain ⟨k, i, hpc, -, -⟩ := programNext_some hnext
      obtain ⟨body, last, rest, hdrop, hbody, hlast⟩ :=
        hprogram.exists_end (by omega) hhalts hsteps hpc
      refine .of_next ⟨body, last, h.smallBlock hprogram hflags hdrop hbody hlast hpc, ?_⟩ ?_
      · intro j hj
        have hlength := congrArg List.length hdrop
        rw [List.length_drop, List.length_append, List.length_cons] at hlength
        exact ne_sentinel_of_aligned (toNat_add_instructions hpc (by omega))
      · intro g₂ hguest
        rw [h.next hnext] at hguest
        cases hguest
        exact ih hrest

end ArmAssembler.Assembled

/-- **Assembled programs run.** Where the calls that ask for the instructions of a small program succeed
on an empty buffer, a call on a quiet engine over this buffer can return if the program halts, and then
only with the state in which the program halts. -/
theorem assembled_finishes (hgenerated : table.Generated) (hlive : a.Live) (hempty : a.offset = 0)
    (hsuccess : (a.emitAll calls).status = .success)
    (hinstrs : calls.map ArmCall.instr = program.map some) (hprogram : SmallProgram program)
    (hsize : 4 * program.length ≤ size.toNat) {start : A64.State} {e : Engine Nat}
    (hsession : EngineSession ((a.emitAll calls).guest table size) start .outside e)
    (hquiet : e.Quiet)
    (hroom : e.compiler.assembler.offset + instructionRoom * n ≤ e.compiler.assembler.capacity)
    (hsizeable : e.compiler.assembler.capacity ≤ sizeMax)
    (hhalts : g'.pc = engineSentinel)
    (hsteps : stepN (programNext program access) n e.cpu = some g') :
    (∃ status e', CallReturns ((a.emitAll calls).guest table size) .compareExchange e status e') ∧
      ∀ {status e'},
        CallReturns ((a.emitAll calls).guest table size) .compareExchange e status e' →
          e'.cpu = g' ∧ e'.status = e.status ∧ status = e.status := by
  have hheld := ArmAssembler.emitAll_holds hlive hsuccess
  rw [hempty] at hheld
  have hassembled : (a.emitAll calls).Assembled calls program size := ⟨hheld, hinstrs, hsize⟩
  have hready := hquiet.ready hsession hroom hsizeable
  obtain ⟨⟨codes, e', hfinishes⟩, hunique⟩ := hready.completes hgenerated
    (hassembled.small hprogram hready.continuous hhalts hsteps) hhalts
    (stepN_mono hassembled.next hsteps)
  obtain ⟨status, hreturns⟩ := hfinishes.returns
  exact ⟨⟨status, e', hreturns⟩, hunique⟩

end Assembled

end Programs

/-! ### A skipped instruction -/

/-- `MOVZ X0, #5`, `B` over `MOVZ X0, #7`, `SUB X0, X0, #1` and `RET`. -/
def skipCalls : List ArmCall := [.movz 0 5 0, .b 8, .movz 0 7 0, .subImmediate 0 0 1 0, .ret 30]

def skipProgram : List A64.Instr :=
  [.moveWide true 2 0 5 0, .branch 2, .moveWide true 2 0 7 0, .addSubImm true true false false 1 0 0,
    .ret 30]

theorem skipProgram_small : SmallProgram skipProgram where
  instrs := by decide
  few := by
    have hnamed : ∀ i ∈ skipProgram, isInteger i = true → namedRegisters i ⊆ {0} := by decide
    intro body hsub hbody
    have hlength : body.length ≤ 5 := hsub.length_le
    exact ⟨hlength.trans_lt (by decide), {0}, by decide,
      fun i hi => hnamed i (hsub.subset hi) (hbody i hi)⟩

def skipStart : A64.State := ⟨fun a => if a = 30 then engineSentinel else 0, 0, 0, 0, 0, 0⟩

theorem assembled_finishes_skip :
    let a := (ArmAssembler.balAssemblerInit (some fun _ => 0) true 5).emitAll skipCalls
    ∃ status e', CallReturns (a.guest generatedTable 20) .compareExchange
      (.init skipStart (.fresh (2 ^ 24))) status e' ∧ e'.cpu.x 0 = 4 ∧ status = .success := by
  have hpc : (stepN (programNext skipProgram ⟨false, 0⟩) 4 skipStart).map (·.pc) =
      some engineSentinel := by decide
  have hx : (stepN (programNext skipProgram ⟨false, 0⟩) 4 skipStart).map (·.x 0) = some 4 := by decide
  obtain ⟨g', hsteps, hhalts⟩ := Option.map_eq_some_iff.mp hpc
  rw [hsteps, Option.map_some, Option.some.injEq] at hx
  intro a
  let e : Engine Nat := .init skipStart (.fresh (2 ^ 24))
  have hlive : (ArmAssembler.balAssemblerInit (some fun _ => 0) true 5).Live := ⟨rfl, rfl⟩
  have hsuccess : a.status = .success := by decide
  have hsession : EngineSession (a.guest generatedTable 20) skipStart .outside e :=
    .init skipStart (Compiler.fresh_reachable (by decide))
  have hquiet : e.Quiet := ⟨rfl, rfl, rfl, by decide, ⟨rfl, rfl⟩⟩
  obtain ⟨⟨status, e', hreturns⟩, hunique⟩ := assembled_finishes generatedTable_generated hlive rfl
    hsuccess (by decide) skipProgram_small (by decide) hsession hquiet (by decide) (by decide) hhalts
    hsteps
  obtain ⟨hcpu, -, hstatus⟩ := hunique hreturns
  refine ⟨status, e', hreturns, ?_, hstatus⟩
  rw [hcpu]
  exact hx

end Ballistic
