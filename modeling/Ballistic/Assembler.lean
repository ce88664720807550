import Ballistic.Types
import Ballistic.Machine.X86

/-!
# The x86-64 assembler

`bal_x86_assembler.c`. Every emitter has the same frame: look at the status, check the operands,
ask `can_emit` for room and write the bytes. `Assembler.emit` is that frame; an emitter is the frame
applied to its own bytes, the size it asks room for, and whether it *poisons*: whether a call on a
failed assembler replaces the status by `invalidArgument` or leaves it alone.

The size asked for is not always the number of bytes written: `push`, `pop` and `jmp` ask for their
short form and add a `REX` prefix after the check.
-/

namespace Ballistic

open Machine Machine.X86

/-- `bal_x86_assembler_t`. The buffer is what both of its pointers refer to. -/
structure Assembler where
  buffer : Nat → Byte
  capacity : Nat
  offset : Nat
  status : BalError

/-- `bal_x86_register_t`, with none for `BAL_X86_INVALID`. -/
abbrev X86Register := Option Reg

def sizeMax : Nat := 2 ^ 64 - 1

/-- A buffer with `bytes` stored from `start` on. -/
def storeBytes (buffer : Nat → Byte) (start : Nat) (bytes : List Byte) : Nat → Byte := fun i =>
  if start ≤ i then bytes.getD (i - start) (buffer i) else buffer i

/-- What an emitter writes once its operands are checked. -/
structure Encoding where
  instructionSizeBytes : Nat
  bytes : List Byte

namespace Assembler

/-- `bal_x86_assembler_init`; none when an argument is refused. -/
def init (buffer : Nat → Byte) (size : Nat) : Option Assembler :=
  if size = 0 then none
  else some { buffer := buffer, capacity := size, offset := 0, status := .success }

/-- `bal_x86_assembler_reset`, its executable mapping taken as writable: one of its two calls of `memset`
goes through `rx_buffer`. -/
def reset (a : Assembler) : Assembler :=
  { a with
    buffer := fun i => if i < a.capacity then 0 else a.buffer i
    offset := 0
    status := .success }

/-- `bal_x86_assembler_reset` on a buffer whose executable mapping may not be writable, as with the
repository's own allocators on Linux and Windows. The `memset` through it then faults, and there is no
result. -/
def resetThrough (a : Assembler) (rxWritable : Bool) : Option Assembler :=
  if rxWritable then some a.reset else none

/-- `can_emit`, on an assembler whose status is success. -/
def canEmit (a : Assembler) (size : Nat) : Bool :=
  !decide (sizeMax - a.offset < size) && !decide (a.capacity < a.offset + size)

/-- The calls of `emit8`, `emit32` and `emit64` in a row. -/
def write (a : Assembler) (bytes : List Byte) : Assembler :=
  { a with buffer := storeBytes a.buffer a.offset bytes, offset := a.offset + bytes.length }

/-- The frame of an emitter; no encoding when an operand is refused. -/
def emit (a : Assembler) (poisons : Bool) (encoding : Option Encoding) : Assembler :=
  if a.status ≠ .success then if poisons then { a with status := .invalidArgument } else a
  else
    match encoding with
    | none => { a with status := .invalidArgument }
    | some e =>
        if a.canEmit e.instructionSizeBytes then a.write e.bytes
        else { a with status := .instructionOverflow }

end Assembler

/-! ### Pieces of encodings -/

/-- `emit_rex`. -/
def rex (w r b : Nat) : Byte :=
  0x40 ||| BitVec.ofNat 8 (w % 2) <<< 3 ||| BitVec.ofNat 8 (r % 2) <<< 2 ||| BitVec.ofNat 8 (b % 2)

/-- `emit_modrm_register`. -/
def modrmRegister (reg rm : Nat) : Byte :=
  0xC0 ||| BitVec.ofNat 8 (reg % 8) <<< 3 ||| BitVec.ofNat 8 (rm % 8)

/-- `emit_modrm_memory_disp32_rbp`. -/
def modrmMemoryDisp32Rbp (reg : Nat) : Byte := 0x80 ||| BitVec.ofNat 8 (reg % 8) <<< 3 ||| 0x05

def bytes32 (value : BitVec 32) : List Byte :=
  [value.extractLsb' 0 8, value.extractLsb' 8 8, value.extractLsb' 16 8, value.extractLsb' 24 8]

def bytes64 (value : BitVec 64) : List Byte :=
  [value.extractLsb' 0 8, value.extractLsb' 8 8, value.extractLsb' 16 8, value.extractLsb' 24 8,
    value.extractLsb' 32 8, value.extractLsb' 40 8, value.extractLsb' 48 8, value.extractLsb' 56 8]

/-- The test of the emitters of `add` and `sub` for the sign-extended 8-bit form. -/
def fitIn8Bits (immediate : BitVec 32) : Bool :=
  decide (-128 ≤ immediate.toInt) && decide (immediate.toInt < 127)

/-! ### Emitters -/

namespace Assembler

variable (a : Assembler)

def emitAddMem64RbpOffsetImm (offset immediate : BitVec 32) : Assembler :=
  let fits := decide (-128 ≤ immediate.toInt) && decide (immediate.toInt ≤ 127)
  a.emit false <| some
    { instructionSizeBytes := if fits then 8 else 11
      bytes := [rex 1 0 0, if fits then 0x83 else 0x81, modrmMemoryDisp32Rbp 0] ++ bytes32 offset ++
        if fits then [immediate.setWidth 8] else bytes32 immediate }

/-- The three-byte register form: `opcode reg, rm`. -/
def registerForm (opcode : Byte) (reg rm : X86Register) : Option Encoding :=
  reg.bind fun reg => rm.map fun rm =>
    { instructionSizeBytes := 3
      bytes := [rex 1 (reg.number / 8) (rm.number / 8), opcode, modrmRegister reg.number rm.number] }

def emitAndR64R64 (destination source : X86Register) : Assembler :=
  a.emit false (registerForm 0x23 destination source)

def emitMovR64R64 (destination source : X86Register) : Assembler :=
  a.emit true (registerForm 0x8B destination source)

def emitOrR64R64 (destination source : X86Register) : Assembler :=
  a.emit true (registerForm 0x0B destination source)

def emitAddR64R64 (destination source : X86Register) : Assembler :=
  a.emit true (registerForm 0x03 destination source)

def emitSubR64R64 (destination source : X86Register) : Assembler :=
  a.emit true (registerForm 0x2B destination source)

def emitXorR64R64 (destination source : X86Register) : Assembler :=
  a.emit true (registerForm 0x33 destination source)

/-- `test` has its operands the other way round in the `ModRM` byte. -/
def emitTestR64R64 (destination source : X86Register) : Assembler :=
  a.emit false (registerForm 0x85 source destination)

def emitJmpR64 (reg : X86Register) : Assembler :=
  a.emit false <| reg.map fun reg =>
    { instructionSizeBytes := 2
      bytes := (if 7 < reg.number then [rex 0 0 (reg.number / 8)] else []) ++
        [0xFF, modrmRegister 4 reg.number] }

def emitJmpRel32 (offset : BitVec 32) : Assembler :=
  a.emit false (some { instructionSizeBytes := 5, bytes := 0xE9 :: bytes32 offset })

/-- The seven-byte form with a `[rbp + disp32]` operand. -/
def frameForm (opcode : Byte) (reg : X86Register) (offset : BitVec 32) : Option Encoding :=
  reg.map fun reg =>
    { instructionSizeBytes := 7
      bytes := [rex 1 (reg.number / 8) 0, opcode, modrmMemoryDisp32Rbp reg.number] ++
        bytes32 offset }

def emitLoadR64RbpOffset (destination : X86Register) (offset : BitVec 32) : Assembler :=
  a.emit false (frameForm 0x8B destination offset)

def emitStoreR64RbpOffset (source : X86Register) (offset : BitVec 32) : Assembler :=
  a.emit false (frameForm 0x89 source offset)

def emitLoadR64FromR64 (destination base : X86Register) : Assembler :=
  a.emit false <| destination.bind fun destination => base.map fun base =>
    let low := base.number % 8
    let opcode := [rex 1 (destination.number / 8) (base.number / 8), 0x8B]
    let reg := BitVec.ofNat 8 (destination.number % 8) <<< 3
    if low = 4 then { instructionSizeBytes := 4, bytes := opcode ++ [reg ||| 4, 0x24] }
    else if low = 5 then { instructionSizeBytes := 4, bytes := opcode ++ [0x40 ||| reg ||| 5, 0x00] }
    else { instructionSizeBytes := 3, bytes := opcode ++ [reg ||| BitVec.ofNat 8 low] }

def emitMovR64Imm64 (destination : X86Register) (immediate : BitVec 64) : Assembler :=
  a.emit true <| destination.map fun destination =>
    let b := destination.number / 8
    let opcode : Byte := 0xB8 + BitVec.ofNat 8 (destination.number % 8)
    if immediate.toNat ≤ 0xFFFFFFFF then
      { instructionSizeBytes := if 0 < b then 6 else 5
        bytes := (if 0 < b then [rex 0 0 b] else []) ++ opcode :: bytes32 (immediate.setWidth 32) }
    else { instructionSizeBytes := 10, bytes := rex 1 0 b :: opcode :: bytes64 immediate }

def emitRet : Assembler := a.emit true (some { instructionSizeBytes := 1, bytes := [0xC3] })

def emitShiftR64Imm8 (destination : X86Register) (immediate : Byte) (opcodeExtension : Nat) :
    Assembler :=
  a.emit false <| destination.bind fun destination =>
    if 63 < immediate.toNat ∨ 7 < opcodeExtension then none
    else some
      { instructionSizeBytes := 4
        bytes := [rex 1 0 (destination.number / 8), 0xC1,
          modrmRegister opcodeExtension destination.number, immediate] }

def emitRorR64Imm8 (destination : X86Register) (immediate : Byte) : Assembler :=
  a.emitShiftR64Imm8 destination immediate 1

def emitSarR64Imm8 (destination : X86Register) (immediate : Byte) : Assembler :=
  a.emitShiftR64Imm8 destination immediate 7

def emitShlR64Imm8 (destination : X86Register) (immediate : Byte) : Assembler :=
  a.emitShiftR64Imm8 destination immediate 4

def emitShrR64Imm8 (destination : X86Register) (immediate : Byte) : Assembler :=
  a.emitShiftR64Imm8 destination immediate 5

/-- The one-byte form of `push` and `pop`: room for one byte, and a prefix for `r8` to `r15`. -/
def stackForm (opcode : Byte) (reg : X86Register) : Option Encoding :=
  reg.map fun reg =>
    { instructionSizeBytes := 1
      bytes := (if 7 < reg.number then [rex 0 0 (reg.number / 8)] else []) ++
        [opcode + BitVec.ofNat 8 (reg.number % 8)] }

def emitPushR64 (reg : X86Register) : Assembler := a.emit true (stackForm 0x50 reg)

def emitPopR64 (reg : X86Register) : Assembler := a.emit true (stackForm 0x58 reg)

def emitSetccMem8RbpOffset (condition : Condition) (offset : BitVec 32) : Assembler :=
  a.emit true <| some
    { instructionSizeBytes := 7
      bytes := [0x0F, 0x90 + BitVec.ofNat 8 condition.number, modrmMemoryDisp32Rbp 0] ++
        bytes32 offset }

def emitJccRel32 (condition : Condition) (offset : BitVec 32) : Assembler :=
  a.emit true <| some
    { instructionSizeBytes := 6
      bytes := [0x0F, 0x80 + BitVec.ofNat 8 condition.number] ++ bytes32 offset }

/-- The register form with an immediate, by the opcode extension in the `reg` field. -/
def immediateForm (opcodeExtension : Nat) (destination : X86Register) (immediate : BitVec 32) :
    Option Encoding :=
  destination.map fun destination =>
    { instructionSizeBytes := if fitIn8Bits immediate then 4 else 7
      bytes := [rex 1 0 (destination.number / 8), if fitIn8Bits immediate then 0x83 else 0x81,
          modrmRegister opcodeExtension destination.number] ++
        if fitIn8Bits immediate then [immediate.setWidth 8] else bytes32 immediate }

def emitAddR64Imm32 (destination : X86Register) (immediate : BitVec 32) : Assembler :=
  a.emit true (immediateForm 0 destination immediate)

def emitSubR64Imm32 (destination : X86Register) (immediate : BitVec 32) : Assembler :=
  a.emit false (immediateForm 5 destination immediate)

def emitCmpMem8RbpOffsetImm (offset : BitVec 32) (immediate : Byte) : Assembler :=
  a.emit false <| some
    { instructionSizeBytes := 8
      bytes := [rex 0 0 0, 0x80, modrmMemoryDisp32Rbp 7] ++ bytes32 offset ++ [immediate] }

def emitUd2 : Assembler :=
  a.emit false (some { instructionSizeBytes := 2, bytes := [0x0F, 0x0B] })

end Assembler

end Ballistic
