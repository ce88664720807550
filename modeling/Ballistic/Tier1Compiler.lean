import Ballistic.Decoder
import Ballistic.SlidingWindow

/-!
# The tier 1 compiler

`bal_x86_tier1_compiler.c`: the greedy register allocator, the translators of single instructions
and the two nested loops that translate a guest block. Pointer checks against `NULL` and logging
have no counterpart here.
-/

namespace Ballistic

open Machine Machine.X86

/-! ### State -/

/-- The register allocator's fields of `bal_tier1_compiler_t`, with none for `-1`. -/
structure RegisterAllocator where
  armToX86 : Fin 32 → Option Reg
  x86ToArm : Reg → Option (Fin 32)
  isDirty : BitVec 32
  evictionCursor : BitVec 8

/-- `bal_tier1_compiler_t`. Of the debug context only the test of `translate` is kept: whether it
and its entries are there. -/
structure Compiler where
  assembler : Assembler
  window : SlidingWindow
  allocator : RegisterAllocator
  hasDebugEntries : Bool
  status : BalError

def scratchRegisters : List Reg := [.rax, .rcx, .rdx, .r8, .r9, .r10, .r12, .r14, .r15]

/-- `BAL_X86_REGISTER_DISCARD_RESULT`. -/
def registerDiscardResult : X86Register := some .r11

/-- `BAL_X86_ABI_ARG1` on the System V platforms. -/
def abiArg1 : X86Register := some .rdi

namespace RegisterAllocator

/-- `reset_register_allocator`. -/
def reset : RegisterAllocator :=
  { armToX86 := fun _ => none, x86ToArm := fun _ => none, isDirty := 0, evictionCursor := 0 }

/-- `is_dirty & (1U << arm_register)`. -/
def dirty (r : RegisterAllocator) (armRegister : Nat) : Bool :=
  r.isDirty &&& 1#32 <<< armRegister != 0

/-- `is_dirty |= 1U << arm_register`. -/
def setDirty (r : RegisterAllocator) (armRegister : Nat) : RegisterAllocator :=
  { r with isDirty := r.isDirty ||| 1#32 <<< armRegister }

/-- `is_dirty &= ~(1U << arm_register)`. -/
def clearDirty (r : RegisterAllocator) (armRegister : Nat) : RegisterAllocator :=
  { r with isDirty := r.isDirty &&& ~~~(1#32 <<< armRegister) }

/-- The first scratch register that holds no guest register. -/
def freeRegister (r : RegisterAllocator) : Option Reg :=
  scratchRegisters.find? fun x => r.x86ToArm x == none

/-- The registers that the search for a clean one looks at: as many as there are scratch
registers, but by their own numbers, from zero on. -/
def cleanCandidates : List Reg := [.rax, .rcx, .rdx, .rbx, .rsp, .rbp, .rsi, .rdi, .r8]

/-- The last candidate that holds a guest register without unsaved changes. -/
def cleanRegister (r : RegisterAllocator) : Option Reg :=
  cleanCandidates.foldl
    (fun free x =>
      match r.x86ToArm x with
      | none => free
      | some armVictim => if r.dirty armVictim then free else some x)
    none

/-- The scratch register under the eviction cursor. -/
def cursorRegister (r : RegisterAllocator) : Reg :=
  scratchRegisters.getD (r.evictionCursor.toNat % scratchRegisters.length) .rax

def advanceCursor (r : RegisterAllocator) : RegisterAllocator :=
  { r with evictionCursor := r.evictionCursor + 1 }

def unmap (r : RegisterAllocator) (armVictim : Fin 32) (x86Register : Reg) : RegisterAllocator :=
  { r with
    armToX86 := Function.update r.armToX86 armVictim none
    x86ToArm := Function.update r.x86ToArm x86Register none }

def map (r : RegisterAllocator) (armRegister : Fin 32) (x86Register : Reg) : RegisterAllocator :=
  { r with
    armToX86 := Function.update r.armToX86 armRegister (some x86Register)
    x86ToArm := Function.update r.x86ToArm x86Register (some armRegister) }

end RegisterAllocator

/-! ### Macros -/

def loadMacro (destination : X86Register) (offset : Nat) : Macro :=
  { opcode := .load, destination := destination, immediateOrOffset := BitVec.ofNat 64 offset }

def storeMacro (source : X86Register) (offset : Nat) : Macro :=
  { opcode := .store, source := source, immediateOrOffset := BitVec.ofNat 64 offset }

def registerMacro (opcode : MacroOpcode) (destination source : X86Register) : Macro :=
  { opcode := opcode, destination := destination, source := source }

def immediateMacro (opcode : MacroOpcode) (destination : X86Register) (immediate : BitVec 64) :
    Macro :=
  { opcode := opcode, destination := destination, immediateOrOffset := immediate }

def setccMacro (condition : Condition) (offset : Nat) : Macro :=
  { opcode := .setcc, condition := condition, immediateOrOffset := BitVec.ofNat 64 offset }

namespace Compiler

/-- `bal_tier1_compiler_init` on a compiler whose other fields are zero. -/
def init (buffer : Nat → Byte) (bufferSize : Nat) (hasDebugEntries : Bool) : Option Compiler :=
  (Assembler.init buffer bufferSize).map fun assembler =>
    { assembler := assembler, window := .empty, allocator := .reset
      hasDebugEntries := hasDebugEntries, status := .success }

/-- `bal_tier1_compiler_reset`. -/
def reset (c : Compiler) : Compiler :=
  { c with
    assembler := c.assembler.reset, window := .empty, allocator := .reset, status := .success }

def push (c : Compiler) (m : Macro) : Compiler :=
  let p := slidingWindowPush c.assembler c.window m
  { c with assembler := p.1, window := p.2 }

def pushAll (c : Compiler) (macros : List Macro) : Compiler := macros.foldl push c

def flushAll (c : Compiler) : Compiler :=
  let p := slidingWindowFlushAll c.assembler c.window
  { c with assembler := p.1, window := p.2 }

def setDirty (c : Compiler) (armRegister : Nat) : Compiler :=
  { c with allocator := c.allocator.setDirty armRegister }

/-! ### Register allocation -/

def evictX86Register (c : Compiler) (x86Register : Reg) : Compiler :=
  match c.allocator.x86ToArm x86Register with
  | none => c
  | some armVictim =>
      let c :=
        if c.allocator.dirty armVictim then
          let c := c.push (storeMacro (some x86Register) (offsetX armVictim))
          { c with allocator := c.allocator.clearDirty armVictim }
        else c
      { c with allocator := c.allocator.unmap armVictim x86Register }

/-- The part of `allocate_x86_register` that finds a register for a guest register that has none,
evicting another one where needed. -/
def takeRegister (c : Compiler) : Reg × Compiler :=
  match c.allocator.freeRegister with
  | some free => (free, c)
  | none =>
      match c.allocator.cleanRegister with
      | some clean => (clean, c.evictX86Register clean)
      | none =>
          let victim := c.allocator.cursorRegister
          (victim, { c with allocator := c.allocator.advanceCursor }.evictX86Register victim)

def allocateX86Register (c : Compiler) (armRegister : Nat) (skipLoadInstruction : Bool) :
    X86Register × Compiler :=
  if c.status ≠ .success then (none, c)
  else if c.assembler.status ≠ .success then (none, c)
  else if hrange : armRegister < 32 then
    let arm : Fin 32 := ⟨armRegister, hrange⟩
    match c.allocator.armToX86 arm with
    | some cached =>
        if Reg.number .r15 ≤ cached.number then
          (none,
            { c with
              allocator :=
                { c.allocator with armToX86 := Function.update c.allocator.armToX86 arm none }
              status := .registerAllocatorCorrupted })
        else if c.allocator.x86ToArm cached ≠ some arm then
          (none,
            { c with
              allocator := c.allocator.unmap arm cached
              status := .registerAllocatorCorrupted })
        else (some cached, c)
    | none =>
        let taken := c.takeRegister
        let c := { taken.2 with allocator := taken.2.allocator.map arm taken.1 }
        (some taken.1,
          if skipLoadInstruction then c else c.push (loadMacro (some taken.1) (offsetX armRegister)))
  else (none, { c with status := .invalidArgument })

/-- The macros of `flush_dirty_registers`. -/
def dirtyStores (r : RegisterAllocator) : List Macro :=
  (List.finRange 32).filterMap fun arm : Fin 32 =>
    if r.dirty arm then some (storeMacro (r.armToX86 arm) (offsetX arm)) else none

def flushDirtyRegisters (c : Compiler) : Compiler := c.pushAll (dirtyStores c.allocator)

/-! ### Block ends -/

def onAssembler (c : Compiler) (f : Assembler → Assembler) : Compiler :=
  { c with assembler := f c.assembler }

end Compiler

namespace Assembler

/-- The emits that store a constant in `cpu->pc`. -/
def emitStorePc (a : Assembler) (pc : Address) : Assembler :=
  (a.emitMovR64Imm64 (some .rax) pc).emitStoreR64RbpOffset (some .rax) (BitVec.ofNat 32 offsetPc)

/-- The emits at the start of every block. -/
def emitPrologue (a : Assembler) : Assembler :=
  let a := a.emitPushR64 (some .rbp)
  let a := a.emitPushR64 (some .r12)
  let a := a.emitPushR64 (some .r13)
  let a := a.emitPushR64 (some .r14)
  let a := a.emitPushR64 (some .r15)
  a.emitMovR64R64 (some .rbp) abiArg1

/-- The emits that restore all callee-saved registers and return. -/
def emitEpilogue (a : Assembler) : Assembler :=
  let a := a.emitPopR64 (some .r15)
  let a := a.emitPopR64 (some .r14)
  let a := a.emitPopR64 (some .r13)
  let a := a.emitPopR64 (some .r12)
  let a := a.emitPopR64 (some .rbp)
  a.emitRet

/-- The emits that restore `RBP` alone and return. -/
def emitShortEpilogue (a : Assembler) : Assembler := (a.emitPopR64 (some .rbp)).emitRet

end Assembler

namespace Compiler

def terminateBlock (c : Compiler) (nextPc : Address) (isPcDynamic : Bool)
    (armInstructionCount : Nat) (engineFlags : EngineFlags) : Compiler :=
  let c :=
    if engineFlags.has EngineFlags.instructionCounting then
      c.push (immediateMacro .addCpuIcount (some .rbp) (BitVec.ofNat 64 armInstructionCount))
    else c
  let c := c.flushDirtyRegisters.flushAll
  let c := if isPcDynamic then c else c.onAssembler (·.emitStorePc nextPc)
  c.onAssembler Assembler.emitEpilogue

/-- The size that `terminate_block_conditional` computes for its first arm. -/
def epilogueSize (r : RegisterAllocator) (fallthroughPc : Address) : Nat :=
  let dirtyCount := (List.finRange 32).countP fun arm : Fin 32 => r.dirty arm
  let movFallthroughSize := if fallthroughPc.toNat ≤ 0xFFFFFFFF then 5 else 10
  dirtyCount * 7 + movFallthroughSize + 7 + 8 + 1 + 1

def terminateBlockConditional (c : Compiler) (condition : Condition)
    (fallthroughPc takenPc : Address) : Compiler :=
  let c := c.flushAll
  let jumpOffset := BitVec.ofNat 32 (epilogueSize c.allocator fallthroughPc)
  let c := c.onAssembler (·.emitJccRel32 condition jumpOffset)
  let c := c.flushDirtyRegisters.flushAll
  let c := c.onAssembler fun a => (a.emitStorePc fallthroughPc).emitEpilogue
  let c := c.flushDirtyRegisters.flushAll
  c.onAssembler fun a => (a.emitStorePc takenPc).emitShortEpilogue

/-! ### Translators of single instructions -/

/-- The four `setcc` macros of the flag-setting forms. The carry of a subtraction is inverted
between the two architectures. -/
def setFlagsMacros (isSub : Bool) : List Macro :=
  [setccMacro .s offsetFlagN, setccMacro .e offsetFlagZ, setccMacro .o offsetFlagV,
    setccMacro (if isSub then .ae else .b) offsetFlagC]

/-- `extract_operand_value` cast to `uint8_t`, as registers are read. -/
def registerOperand (metadata : Metadata) (instruction : BitVec 32) (i : Nat) : Nat :=
  extractOperandValue instruction (metadata.operand i) % 256

def isSettingFlags (metadata : Metadata) : Bool :=
  metadata.irOpcode == .cmp || metadata.nameAt 3 == 'S' || metadata.nameAt 2 == 'N'

/-- The destination of an addition or subtraction, with the first operand copied into it: a
throwaway register if the result is discarded. -/
def prepareDestination (c : Compiler) (rd : Nat) (x86Rn : X86Register) (isDiscardedResult : Bool) :
    X86Register × Compiler :=
  if isDiscardedResult then
    (registerDiscardResult, c.push (registerMacro .movRegisterRegister registerDiscardResult x86Rn))
  else
    let d := c.allocateX86Register rd true
    (d.1, if d.1 ≠ x86Rn then d.2.push (registerMacro .movRegisterRegister d.1 x86Rn) else d.2)

/-- The end of `translate_add_sub_imm` and `translate_add_sub_reg`: the arithmetic macro, the flag
macros and the dirty bit. -/
def finishAddSub (c : Compiler) (metadata : Metadata) (rd : Nat) (isSub : Bool) (arithmetic : Macro) :
    Compiler :=
  let setsFlags := isSettingFlags metadata
  let c := c.push arithmetic
  let c := if setsFlags then c.pushAll (setFlagsMacros isSub) else c
  if setsFlags && rd == 31 then c else c.setDirty rd

def translateAddSubImm (c : Compiler) (metadata : Metadata) (instruction : BitVec 32)
    (isSub : Bool) : Compiler :=
  let rd := registerOperand metadata instruction 0
  let rn := registerOperand metadata instruction 1
  let imm12 := extractOperandValue instruction (metadata.operand 2)
  let shift := extractOperandValue instruction (metadata.operand 3)
  let value := BitVec.ofNat 64 imm12 <<< (if shift = 1 then 12 else 0)
  let n := c.allocateX86Register rn false
  let d := n.2.prepareDestination rd n.1 (isSettingFlags metadata && rd == 31)
  d.2.finishAddSub metadata rd isSub
    (immediateMacro (if isSub then .subRegisterImmediate else .addRegisterImmediate) d.1 value)

def translateAddSubReg (c : Compiler) (metadata : Metadata) (instruction : BitVec 32)
    (isSub : Bool) : Compiler :=
  let rd := registerOperand metadata instruction 0
  let rn := registerOperand metadata instruction 1
  let shiftAmount := extractOperandValue instruction (metadata.operand 2)
  let rm := registerOperand metadata instruction 3
  if shiftAmount ≠ 0 then { c with status := .unknownInstruction }
  else
    let n := c.allocateX86Register rn false
    let m := n.2.allocateX86Register rm false
    let d := m.2.prepareDestination rd n.1 (isSettingFlags metadata && rd == 31)
    d.2.finishAddSub metadata rd isSub
      (registerMacro (if isSub then .subRegisterRegister else .addRegisterRegister) d.1 m.1)

/-- The flag byte that a condition of `B.cond` tests, and whether it branches on zero; none for the
conditions that look at more than one flag. -/
def conditionFlag (cond : BitVec 32) : Option (Nat × Bool) :=
  if cond = 0x0 then some (offsetFlagZ, false)
  else if cond = 0x1 then some (offsetFlagZ, true)
  else if cond = 0x2 then some (offsetFlagC, false)
  else if cond = 0x3 then some (offsetFlagC, true)
  else if cond = 0x4 then some (offsetFlagN, false)
  else if cond = 0x5 then some (offsetFlagN, true)
  else if cond = 0x6 then some (offsetFlagV, false)
  else if cond = 0x7 then some (offsetFlagV, true)
  else none

def translateBCond (c : Compiler) (instruction : BitVec 32) (guestAddress : Address) : Compiler :=
  let cond := instruction &&& 0xF
  let imm19 := instruction >>> 5 &&& 0x7FFFF
  let signedImm := (imm19 ^^^ 0x40000) - 0x40000
  let takenPc := guestAddress + signedImm.signExtend 64 * 4
  let fallthroughPc := guestAddress + 4
  if cond = 0xE then
    c.flushDirtyRegisters.flushAll.onAssembler fun a => (a.emitStorePc takenPc).emitShortEpilogue
  else
    match conditionFlag cond with
    | none => { c with status := .unknownInstruction }
    | some (flagOffset, testForZero) =>
        let c := c.flushAll
        let c := c.onAssembler (·.emitCmpMem8RbpOffsetImm (BitVec.ofNat 32 flagOffset) 0)
        c.terminateBlockConditional (if testForZero then .e else .ne) fallthroughPc takenPc

/-- A branch offset operand: sign-extended from its width and scaled by four. -/
def branchOffset (metadata : Metadata) (instruction : BitVec 32) (i : Nat) : BitVec 64 :=
  let immediate := BitVec.ofNat 32 (extractOperandValue instruction (metadata.operand i))
  let shift := 32 - (metadata.operand i).bitWidth
  ((immediate <<< shift).sshiftRight shift).signExtend 64 * 4

def translateCbzCbnz (c : Compiler) (metadata : Metadata) (instruction : BitVec 32)
    (guestAddress : Address) (isCbnz : Bool) : Compiler :=
  let rn := registerOperand metadata instruction 0
  let takenPc := guestAddress + branchOffset metadata instruction 1
  let fallthroughPc := guestAddress + 4
  let n := c.allocateX86Register rn false
  let c := n.2.push (registerMacro .testRegisterRegister n.1 n.1)
  c.terminateBlockConditional (if isCbnz then .ne else .e) fallthroughPc takenPc

def translateJump (metadata : Metadata) (instruction : BitVec 32) (guestAddress : Address) :
    Address :=
  guestAddress + branchOffset metadata instruction 0

def translateAnd (c : Compiler) (metadata : Metadata) (instruction : BitVec 32) : Compiler :=
  let rd := registerOperand metadata instruction 0
  let rn := registerOperand metadata instruction 1
  let shiftAmount := extractOperandValue instruction (metadata.operand 2)
  let rm := registerOperand metadata instruction 3
  if metadata.nameAt 3 = 'S' then { c with status := .unknownInstruction }
  else if shiftAmount ≠ 0 then { c with status := .unknownInstruction }
  else
    let n := c.allocateX86Register rn false
    let m := n.2.allocateX86Register rm false
    let d := m.2.allocateX86Register rd true
    if d.1 = none ∨ n.1 = none ∨ m.1 = none then { d.2 with status := .incorrectRegisterType }
    else
      let c :=
        if rd = 31 then d.2.push (immediateMacro .movRegisterImmediate d.1 0)
        else if d.1 = m.1 then d.2
        else if d.1 ≠ n.1 then d.2.push (registerMacro .movRegisterRegister d.1 n.1)
        else d.2
      let andSource := if rd ≠ 31 ∧ d.1 = m.1 then n.1 else m.1
      (c.push (registerMacro .andRegisterRegister d.1 andSource)).setDirty rd

def translateMovImmediate (c : Compiler) (metadata : Metadata) (instruction : BitVec 32) :
    Compiler :=
  let rd := registerOperand metadata instruction 0
  let imm16 := BitVec.ofNat 64 (extractOperandValue instruction (metadata.operand 1))
  let shift := extractOperandValue instruction (metadata.operand 2) * 16
  let mask : BitVec 64 :=
    if (metadata.operand 0).type = .register32 then 0xFFFFFFFF else 0xFFFFFFFFFFFFFFFF
  let variant := metadata.nameAt 3
  if variant = 'Z' then
    let d := c.allocateX86Register rd true
    (d.2.push (immediateMacro .movRegisterImmediate d.1 (imm16 <<< shift &&& mask))).setDirty rd
  else if variant = 'N' then
    let d := c.allocateX86Register rd true
    (d.2.push (immediateMacro .movRegisterImmediate d.1 (~~~(imm16 <<< shift) &&& mask))).setDirty rd
  else
    let d := c.allocateX86Register rd false
    let c := d.2.push (immediateMacro .andRegisterImmediate d.1 (~~~(0xFFFF#64 <<< shift) &&& mask))
    (c.push (immediateMacro .orRegisterImmediate d.1 (imm16 <<< shift &&& mask))).setDirty rd

def translateMovRegister (c : Compiler) (metadata : Metadata) (instruction : BitVec 32) :
    Compiler :=
  if c.status ≠ .success then c
  else
    let rd := registerOperand metadata instruction 0
    let rm := registerOperand metadata instruction 1
    let m := c.allocateX86Register rm false
    let d := m.2.allocateX86Register rd true
    (d.2.push (registerMacro .movRegisterRegister d.1 m.1)).setDirty rd

end Compiler

/-! ### Translation of a block -/

/-- What a translation reads besides the compiler and the start address. -/
structure TranslateInput where
  table : DecoderTable
  memory : MemoryInterface
  maxInstructions : Nat
  engineFlags : EngineFlags

/-- The local variables of `bal_tier1_compiler_translate` that its loops change. -/
structure LoopState where
  compiler : Compiler
  guestAddress : Address
  isBlockTerminated : Bool
  isPcDynamic : Bool
  armInstructionCount : Nat
  /-- `mappings`: offsets into the block's host code and guest code. -/
  mappings : List (BitVec 32 × BitVec 32)

/-- Where the loops stand: at the test of the `while`, or of the `for` over the words of one
readable range. -/
inductive LoopPoint where
  | whileTest
  | forTest (i maxReadableInstructions : Nat)
  deriving DecidableEq, Repr

inductive LoopStep where
  | next (point : LoopPoint) (s : LoopState)
  | exit (s : LoopState)

def isRegister (operand : Operand) : Bool :=
  operand.type == .register64 || operand.type == .register32

/-- The flag checks before the opcode switch: the instruction ends the block and is left to the
host. -/
def isTrapped (engineFlags : EngineFlags) (metadata : Metadata) : Bool :=
  (engineFlags.has EngineFlags.trapSvc && metadata.nameStarts ['S', 'V', 'C']) ||
    (engineFlags.has EngineFlags.trapSmcHvc &&
      (metadata.nameStarts ['S', 'M', 'C'] || metadata.nameStarts ['H', 'V', 'C'])) ||
    (engineFlags.has EngineFlags.wfiYieldsHost && metadata.nameStarts ['W', 'F', 'I'])

namespace LoopState

def withCompiler (s : LoopState) (c : Compiler) : LoopState := { s with compiler := c }

def terminate (s : LoopState) : LoopState := { s with isBlockTerminated := true }

/-- The case `OPCODE_MOV`. After `translate_mov_register` the code goes on to the error below it. -/
def translateMov (s : LoopState) (metadata : Metadata) (instruction : BitVec 32) : LoopState :=
  let variant := metadata.nameAt 3
  if variant = 'N' ∨ variant = 'K' ∨ variant = 'Z' then
    s.withCompiler (s.compiler.translateMovImmediate metadata instruction)
  else if isRegister (metadata.operand 1) then
    (s.withCompiler (s.compiler.translateMovRegister metadata instruction)).terminate
  else s.terminate

/-- The cases `OPCODE_ADD`, `OPCODE_SUB` and `OPCODE_CMP`. -/
def translateAddSub (s : LoopState) (metadata : Metadata) (instruction : BitVec 32) : LoopState :=
  let isSub := metadata.irOpcode == .sub || metadata.irOpcode == .cmp
  if isRegister (metadata.operand 3) then
    s.withCompiler (s.compiler.translateAddSubReg metadata instruction isSub)
  else if (metadata.operand 2).type = .immediate then
    s.withCompiler (s.compiler.translateAddSubImm metadata instruction isSub)
  else s.terminate

/-- The case `OPCODE_RETURN`. -/
def translateReturn (s : LoopState) (metadata : Metadata) (instruction : BitVec 32) : LoopState :=
  let rn := Compiler.registerOperand metadata instruction 0
  let n := s.compiler.allocateX86Register rn false
  { s with
    compiler := n.2.push (storeMacro n.1 offsetPc)
    isPcDynamic := true
    isBlockTerminated := true }

/-- The switch over the opcode. -/
def translateOpcode (s : LoopState) (metadata : Metadata) (instruction : BitVec 32) : LoopState :=
  match metadata.irOpcode with
  | .mov => s.translateMov metadata instruction
  | .add | .sub | .cmp => s.translateAddSub metadata instruction
  | .jump =>
      { s with
        guestAddress := Compiler.translateJump metadata instruction s.guestAddress
        isBlockTerminated := true }
  | .branchZero =>
      (s.withCompiler
        (s.compiler.translateCbzCbnz metadata instruction s.guestAddress false)).terminate
  | .branchNotZero =>
      (s.withCompiler
        (s.compiler.translateCbzCbnz metadata instruction s.guestAddress true)).terminate
  | .branchConditional =>
      (s.withCompiler (s.compiler.translateBCond instruction s.guestAddress)).terminate
  | .return => s.translateReturn metadata instruction
  | .trap =>
      let c := s.compiler.flushAll.push { opcode := .ud2 }
      (s.withCompiler { c with status := .unknownInstruction }).terminate
  | .and => s.withCompiler (s.compiler.translateAnd metadata instruction)
  | .load | .store | .xor | .mul | .div | .callHost =>
      (s.withCompiler { s.compiler with status := .unknownInstruction }).terminate

/-- The status check after the switch: a failure ends the block, and the first failure of the
assembler becomes the compiler's. -/
def failed (s : LoopState) : Bool :=
  s.compiler.status != .success || s.compiler.assembler.status != .success

def recordFailure (s : LoopState) : LoopState :=
  { s with
    compiler :=
      { s.compiler with
        status := if s.compiler.status = .success then s.compiler.assembler.status
          else s.compiler.status }
    isBlockTerminated := true }

end LoopState

/-- The largest number of entries in `mappings`. -/
def mappingsCapacity : Nat := 2048

section Translate

variable (input : TranslateInput)

def debugEnabled (c : Compiler) : Bool :=
  input.engineFlags.has EngineFlags.jitDebug && c.hasDebugEntries

/-- The body of the `for` loop: the state after it and whether it ends by `break`. -/
def translateInstruction (guestAddressBase : Address) (startX86BlockOffset i : Nat)
    (s : LoopState) : LoopState × Bool :=
  let instruction := input.memory.word s.guestAddress
  match balDecodeArm64 input.table instruction with
  | none => ({ s with isBlockTerminated := false }, true)
  | some metadata =>
      if isTrapped input.engineFlags metadata then (s.terminate, true)
      else
        let startX86InstructionOffset := s.compiler.assembler.offset
        let s := s.translateOpcode metadata instruction
        if s.failed then (s.recordFailure, true)
        else
          let s :=
            if debugEnabled input s.compiler ∧ s.mappings.length < mappingsCapacity then
              { s with
                mappings := s.mappings ++
                  [(BitVec.ofNat 32 (startX86InstructionOffset - startX86BlockOffset),
                    (s.guestAddress - guestAddressBase).setWidth 32)] }
            else s
          let s := { s with armInstructionCount := s.armInstructionCount + 1 }
          if i + 1 = input.maxInstructions then (s.terminate, true)
          else if s.isBlockTerminated then (s, true)
          else ({ s with guestAddress := s.guestAddress + 4 }, false)

/-- One move of the two loops. -/
def loopStep (guestAddressBase : Address) (startX86BlockOffset : Nat) :
    LoopPoint → LoopState → LoopStep
  | .whileTest, s =>
      if s.isBlockTerminated then .exit s
      else
        match input.memory.translate s.guestAddress with
        | none => .exit (s.withCompiler { s.compiler with status := .memoryFault })
        | some maxReadableInstructionsBytes =>
            let maxReadableInstructions := maxReadableInstructionsBytes / 4
            if maxReadableInstructions = 0 then
              .exit (s.withCompiler { s.compiler with status := .pcAlignment })
            else if input.engineFlags.has EngineFlags.strictAlignment ∧
                s.guestAddress.toNat % 4 ≠ 0 then
              .exit (s.withCompiler { s.compiler with status := .pcAlignment })
            else .next (.forTest 0 (min maxReadableInstructions input.maxInstructions)) s
  | .forTest i maxReadableInstructions, s =>
      if i < maxReadableInstructions then
        let r := translateInstruction input guestAddressBase startX86BlockOffset i s
        if r.2 then .next .whileTest r.1 else .next (.forTest (i + 1) maxReadableInstructions) r.1
      else .next .whileTest s

/-- The two loops, cut off after `fuel` moves. -/
def runLoops (guestAddressBase : Address) (startX86BlockOffset : Nat) :
    Nat → LoopPoint → LoopState → Option LoopState
  | 0, _, _ => none
  | fuel + 1, point, s =>
      match loopStep input guestAddressBase startX86BlockOffset point s with
      | .exit s' => some s'
      | .next point' s' => runLoops guestAddressBase startX86BlockOffset fuel point' s'

/-- The arguments of `bal_jit_debug_add_block`. -/
structure DebugBlock where
  rxStart : Nat
  rxSize : BitVec 32
  guestAddressBase : Address
  mappings : List (BitVec 32 × BitVec 32)
  deriving DecidableEq, Repr

/-- What `bal_tier1_compiler_translate` leaves behind: the compiler, the entry it returns as a
position in the code buffer (none for `NULL`), and the block it hands to the debugger. -/
structure Translation where
  compiler : Compiler
  entry : Option Nat
  debugBlock : Option DebugBlock

/-- The state in which the loops are entered. -/
def startState (c : Compiler) (guestAddress : Address) : LoopState :=
  { compiler := { c with allocator := .reset, assembler := c.assembler.emitPrologue }
    guestAddress := guestAddress
    isBlockTerminated := false
    isPcDynamic := false
    armInstructionCount := 0
    mappings := [] }

/-- The part of `bal_tier1_compiler_translate` after the loops. -/
def finishTranslation (guestAddressBase : Address) (startX86BlockOffset : Nat) (s : LoopState) :
    Translation :=
  let c := s.compiler.terminateBlock s.guestAddress s.isPcDynamic s.armInstructionCount
    input.engineFlags
  if c.status ≠ .success ∨ c.assembler.status ≠ .success then
    { compiler := c, entry := none, debugBlock := none }
  else
    { compiler := c
      entry := some startX86BlockOffset
      debugBlock :=
        if debugEnabled input c ∧ 0 < s.mappings.length then
          some
            { rxStart := startX86BlockOffset
              rxSize := BitVec.ofNat 32 (c.assembler.offset - startX86BlockOffset)
              guestAddressBase := guestAddressBase
              mappings := s.mappings }
        else none }

/-- `bal_tier1_compiler_translate`, cut off after `fuel` moves of its loops. -/
def balTier1CompilerTranslate (c : Compiler) (guestAddress : Address) (fuel : Nat) :
    Option Translation :=
  if input.maxInstructions = 0 then
    some { compiler := { c with status := .invalidArgument }, entry := none, debugBlock := none }
  else
    (runLoops input guestAddress c.assembler.offset fuel .whileTest
      (startState c guestAddress)).map
      (finishTranslation input guestAddress c.assembler.offset)

/-- A call of `bal_tier1_compiler_translate` terminates, with `t`. -/
def Translates (c : Compiler) (guestAddress : Address) (t : Translation) : Prop :=
  ∃ fuel, balTier1CompilerTranslate input c guestAddress fuel = some t

end Translate

/-- The compilers that the entry points of the compiler lead to, in any order of calls. -/
inductive Compiler.Reachable : Compiler → Prop
  | init {buffer : Nat → Byte} {bufferSize : Nat} {hasDebugEntries : Bool} {c : Compiler}
      (h : Compiler.init buffer bufferSize hasDebugEntries = some c) : Reachable c
  | reset {c : Compiler} (hreachable : Reachable c) : Reachable c.reset
  | translate {input : TranslateInput} {c : Compiler} {guestAddress : Address} {t : Translation}
      (hreachable : Reachable c) (h : Translates input c guestAddress t) : Reachable t.compiler

end Ballistic
