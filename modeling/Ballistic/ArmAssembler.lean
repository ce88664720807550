import Ballistic.Types

/-!
# The A64 assembler

`bal_assembler.c`, which writes guest code for tests and tools. An emitter makes its checks in order,
and the first one that fails ends the call; the orders differ from emitter to emitter.
-/

namespace Ballistic

/-- `bal_assembler_t`; the buffer is none when its pointer is `NULL`, and `alive` says that the magic
number is that of a live assembler. -/
structure ArmAssembler where
  buffer : Option (Nat → BitVec 32)
  capacity : Nat
  offset : Nat
  status : BalError
  alive : Bool

/-- A check of an emitter: whether it fails, and the status it then sets, if it sets one. -/
abbrev ArmCheck := Bool × Option BalError

/-- The check that a register index is in range. -/
def checkRegister (r : BitVec 32) : ArmCheck := (decide (31 < r), some .invalidArgument)

namespace ArmAssembler

variable (a : ArmAssembler)

/-- `BAL_CHECK_MAGIC_VOID`. -/
def checkMagic : ArmCheck := (!a.alive, some .structCorrupted)

def checkBuffer : ArmCheck := (a.buffer.isNone, some .invalidArgument)

def checkStatus : ArmCheck := (decide (a.status ≠ .success), none)

def canEmit : ArmCheck := (decide (a.capacity ≤ a.offset), some .instructionOverflow)

/-- The store of the instruction at the end of every emitter. -/
def write (instruction : BitVec 32) : ArmAssembler :=
  { a with
    buffer := a.buffer.map fun buffer i => if i = a.offset then instruction else buffer i
    offset := a.offset + 1 }

/-- `bal_assembler_init`, by whether the buffer is aligned to four bytes; the status is the result. -/
def balAssemblerInit (buffer : Option (Nat → BitVec 32)) (aligned : Bool) (size : Nat) :
    ArmAssembler :=
  let refused (status : BalError) : ArmAssembler :=
    { buffer := none, capacity := 0, offset := 0, status := status, alive := false }
  if buffer.isNone then refused .invalidArgument
  else if size = 0 then refused .invalidArgument
  else if !aligned then refused .memoryAlignment
  else if (2 ^ 64 - 1) / 4 < size then refused .capacityTooBig
  else { buffer := buffer, capacity := size, offset := 0, status := .success, alive := true }

def emitChecked (checks : List ArmCheck) (instruction : BitVec 32) : ArmAssembler :=
  match checks.find? Prod.fst with
  | some (_, some status) => { a with status := status }
  | some (_, none) => a
  | none => a.write instruction

/-- The word of an addition or subtraction with an immediate. -/
def immediateWord (hardCodedBits rd rn : BitVec 32) (imm12 : BitVec 16) (shift : BitVec 8) :
    BitVec 32 :=
  1 <<< 31 ||| hardCodedBits <<< 23 ||| shift.setWidth 32 <<< 22 ||| imm12.setWidth 32 <<< 10 |||
    rn <<< 5 ||| rd

def checkImm12 (imm12 : BitVec 16) : ArmCheck := (decide (0xFFF < imm12), some .invalidArgument)

def checkImmediateShift (shift : BitVec 8) : ArmCheck :=
  (decide (shift ≠ 0 ∧ shift ≠ 1), some .invalidArgument)

def balEmitAddImmediate (rd rn : BitVec 32) (imm12 : BitVec 16) (shift : BitVec 8) : ArmAssembler :=
  a.emitChecked [a.checkMagic, a.checkStatus, a.checkBuffer, checkRegister rd, checkRegister rn,
    checkImm12 imm12, checkImmediateShift shift, a.canEmit] (immediateWord 0x22 rd rn imm12 shift)

def balEmitSubImmediate (rd rn : BitVec 32) (imm12 : BitVec 16) (shift : BitVec 8) : ArmAssembler :=
  a.emitChecked [a.checkMagic, a.checkBuffer, a.checkStatus, checkRegister rd, checkRegister rn,
    checkImm12 imm12, checkImmediateShift shift, a.canEmit] (immediateWord 0xA2 rd rn imm12 shift)

def shiftedRegisterWord (rd rn rm : BitVec 32) (shift shiftType : BitVec 8) : BitVec 32 :=
  1 <<< 31 ||| 0x0B <<< 24 ||| shiftType.setWidth 32 <<< 22 ||| rm <<< 16 |||
    shift.setWidth 32 <<< 10 ||| rn <<< 5 ||| rd

def balEmitAddShiftedRegister (rd rn rm : BitVec 32) (shift shiftType : BitVec 8) : ArmAssembler :=
  a.emitChecked [a.checkMagic, a.checkBuffer, a.checkStatus, checkRegister rd, checkRegister rn,
    checkRegister rm, (decide (63 < shift), some .invalidArgument),
    (decide (2 < shiftType), some .invalidArgument), a.canEmit]
    (shiftedRegisterWord rd rn rm shift shiftType)

/-- `bal_emit_b`. The status is looked at last. -/
def balEmitB (offset : BitVec 32) : ArmAssembler :=
  let imm26Signed := offset.sdiv 4
  a.emitChecked [a.checkMagic, a.checkBuffer,
    (decide (offset &&& 0x3 ≠ 0), some .pcAlignment),
    (imm26Signed.slt (-33554432) || (33554431 : BitVec 32).slt imm26Signed,
      some .branchOffsetOverflow),
    a.canEmit, a.checkStatus] (0x14000000 ||| imm26Signed &&& 0x03FFFFFF)

def balEmitBr (rn : BitVec 32) : ArmAssembler :=
  a.emitChecked [a.checkMagic, a.checkBuffer, a.checkStatus, checkRegister rn, a.canEmit]
    (0xD61F0000 ||| rn <<< 5)

def balEmitRet (rn : BitVec 32) : ArmAssembler :=
  a.emitChecked [a.checkMagic, a.checkBuffer, checkRegister rn, a.checkStatus, a.canEmit]
    (0xD65F0000 ||| rn <<< 5)

def movWord (rd : BitVec 32) (imm : BitVec 16) (shift : BitVec 8) (opcode : BitVec 32) : BitVec 32 :=
  1 <<< 31 ||| (opcode &&& 0x7) <<< 29 ||| 0x25 <<< 23 ||| (shift.setWidth 32).udiv 16 <<< 21 |||
    imm.setWidth 32 <<< 5 ||| rd

def emitMov (rd : BitVec 32) (imm : BitVec 16) (shift : BitVec 8) (opcode : BitVec 32) :
    ArmAssembler :=
  a.emitChecked [a.checkMagic, a.checkBuffer, a.checkStatus, checkRegister rd,
    (decide (shift ≠ 0 ∧ shift ≠ 16 ∧ shift ≠ 32 ∧ shift ≠ 48), some .invalidArgument), a.canEmit]
    (movWord rd imm shift opcode)

def balEmitMovz (rd : BitVec 32) (imm : BitVec 16) (shift : BitVec 8) : ArmAssembler :=
  a.emitMov rd imm shift 0x2

def balEmitMovk (rd : BitVec 32) (imm : BitVec 16) (shift : BitVec 8) : ArmAssembler :=
  a.emitMov rd imm shift 0x3

def balEmitMovn (rd : BitVec 32) (imm : BitVec 16) (shift : BitVec 8) : ArmAssembler :=
  a.emitMov rd imm shift 0x0

end ArmAssembler

/-- A call of an emitter. -/
inductive ArmCall where
  | addImmediate (rd rn : BitVec 32) (imm12 : BitVec 16) (shift : BitVec 8)
  | subImmediate (rd rn : BitVec 32) (imm12 : BitVec 16) (shift : BitVec 8)
  | addShiftedRegister (rd rn rm : BitVec 32) (shift shiftType : BitVec 8)
  | movz (rd : BitVec 32) (imm : BitVec 16) (shift : BitVec 8)
  | movk (rd : BitVec 32) (imm : BitVec 16) (shift : BitVec 8)
  | movn (rd : BitVec 32) (imm : BitVec 16) (shift : BitVec 8)
  | b (offset : BitVec 32)
  | br (rn : BitVec 32)
  | ret (rn : BitVec 32)
  deriving DecidableEq, Repr

def ArmCall.apply (a : ArmAssembler) : ArmCall → ArmAssembler
  | addImmediate rd rn imm12 shift => a.balEmitAddImmediate rd rn imm12 shift
  | subImmediate rd rn imm12 shift => a.balEmitSubImmediate rd rn imm12 shift
  | addShiftedRegister rd rn rm shift shiftType =>
      a.balEmitAddShiftedRegister rd rn rm shift shiftType
  | movz rd imm shift => a.balEmitMovz rd imm shift
  | movk rd imm shift => a.balEmitMovk rd imm shift
  | movn rd imm shift => a.balEmitMovn rd imm shift
  | b offset => a.balEmitB offset
  | br rn => a.balEmitBr rn
  | ret rn => a.balEmitRet rn

end Ballistic
