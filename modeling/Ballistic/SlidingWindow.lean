import Ballistic.Assembler

/-!
# The sliding window

`bal_x86_sliding_window.c`: up to four macros wait between the compiler and the assembler. A push
into a full window lowers all four first; a peephole pass looks at the last one or two macros after
every push.
-/

namespace Ballistic

open Machine Machine.X86

/-- `bal_x86_macro_opcode_t`. -/
inductive MacroOpcode where
  | nop
  | addCpuIcount
  | addRegisterImmediate
  | addRegisterRegister
  | andRegisterImmediate
  | andRegisterRegister
  | jccRelative
  | jmpRegister
  | jmpRelative
  | load
  | movRegisterImmediate
  | movRegisterRegister
  | orRegisterImmediate
  | orRegisterRegister
  | ret
  | rorRegisterImmediate
  | sarRegisterImmediate
  | setcc
  | shlRegisterImmediate
  | shrRegisterImmediate
  | store
  | subRegisterImmediate
  | subRegisterRegister
  | testRegisterRegister
  | ud2
  | xorRegisterRegister
  deriving DecidableEq, Repr

/-- `bal_x86_macro_t`. A field that an initialiser leaves out is zero, and the zero of a register
is `RAX`. -/
structure Macro where
  opcode : MacroOpcode
  destination : X86Register := some .rax
  source : X86Register := some .rax
  immediateOrOffset : BitVec 64 := 0
  condition : Condition := .o
  deriving DecidableEq, Repr

def slidingWindowCapacity : Nat := 4

def assemblerTemporaryRegister : X86Register := some .r11

/-- `bal_sliding_window_t`: the queued macros, oldest first. -/
structure SlidingWindow where
  macros : List Macro
  count_le : macros.length ≤ slidingWindowCapacity
  deriving DecidableEq

namespace SlidingWindow

def empty : SlidingWindow := ⟨[], by simp⟩

end SlidingWindow

/-- The check of the relative jumps: an offset above `INT32_MAX` is refused. -/
def checkBranchOffset (a : Assembler) (offset : BitVec 64) (emit : BitVec 32 → Assembler) :
    Assembler :=
  if offset.toNat ≤ 2 ^ 31 - 1 then emit (offset.setWidth 32)
  else { a with status := .branchOffsetOverflow }

/-- `flush_single_macro`. The macros for `ret` and `test` have no case in the switch. -/
def flushSingleMacro (a : Assembler) (m : Macro) : Assembler :=
  if a.status ≠ .success then a
  else
    let immediate := m.immediateOrOffset
    let destination := m.destination
    let source := m.source
    match m.opcode with
    | .nop => a
    | .addCpuIcount =>
        a.emitAddMem64RbpOffsetImm (BitVec.ofNat 32 offsetInstructionCount) (immediate.setWidth 32)
    | .addRegisterImmediate => a.emitAddR64Imm32 destination (immediate.setWidth 32)
    | .addRegisterRegister => a.emitAddR64R64 destination source
    | .andRegisterImmediate =>
        (a.emitMovR64Imm64 assemblerTemporaryRegister immediate).emitAndR64R64 destination
          assemblerTemporaryRegister
    | .andRegisterRegister => a.emitAndR64R64 destination source
    | .jccRelative => checkBranchOffset a immediate (a.emitJccRel32 m.condition)
    | .jmpRegister => a.emitJmpR64 destination
    | .jmpRelative => checkBranchOffset a immediate a.emitJmpRel32
    | .load => a.emitLoadR64RbpOffset destination (immediate.setWidth 32)
    | .movRegisterImmediate => a.emitMovR64Imm64 destination immediate
    | .movRegisterRegister => a.emitMovR64R64 destination source
    | .orRegisterImmediate =>
        (a.emitMovR64Imm64 assemblerTemporaryRegister immediate).emitOrR64R64 destination
          assemblerTemporaryRegister
    | .orRegisterRegister => a.emitOrR64R64 destination source
    | .rorRegisterImmediate => a.emitRorR64Imm8 destination (immediate.setWidth 8)
    | .sarRegisterImmediate => a.emitSarR64Imm8 destination (immediate.setWidth 8)
    | .setcc => a.emitSetccMem8RbpOffset m.condition (immediate.setWidth 32)
    | .shlRegisterImmediate => a.emitShlR64Imm8 destination (immediate.setWidth 8)
    | .shrRegisterImmediate => a.emitShrR64Imm8 destination (immediate.setWidth 8)
    | .store => a.emitStoreR64RbpOffset source (immediate.setWidth 32)
    | .subRegisterImmediate => a.emitSubR64Imm32 destination (immediate.setWidth 32)
    | .subRegisterRegister => a.emitSubR64R64 destination source
    | .ud2 => a.emitUd2
    | .xorRegisterRegister => a.emitXorR64R64 destination source
    | .ret | .testRegisterRegister => a

/-- The loop over the queued macros. -/
def flushMacros (a : Assembler) (macros : List Macro) : Assembler := macros.foldl flushSingleMacro a

/-- `run_peephole_optimizer` on an assembler whose status is success, with the last macro and the
macros before it. -/
def runPeepholeOptimizer (before : List Macro) (macro1 : Macro) : List Macro :=
  if macro1.opcode = .movRegisterRegister ∧ macro1.destination = macro1.source then
    before ++ [{ macro1 with opcode := .nop }]
  else
    match before.getLast? with
    | none => before ++ [macro1]
    | some macro2 =>
        if macro1.opcode = .movRegisterRegister ∧ macro2.opcode = .movRegisterRegister ∧
            macro1.destination = macro2.destination ∧ macro1.source = macro2.source then
          before.dropLast ++ [{ macro2 with opcode := .nop }, macro1]
        else before ++ [macro1]

theorem runPeepholeOptimizer_length (before : List Macro) (m : Macro) :
    (runPeepholeOptimizer before m).length = before.length + 1 := by
  unfold runPeepholeOptimizer
  split
  · simp
  · split
    · simp
    · next macro2 hlast =>
        split
        · have hpos : 0 < before.length := by
            cases before with
            | nil => simp at hlast
            | cons m before => simp
          simp only [List.length_append, List.length_dropLast, List.length_cons, List.length_nil]
          omega
        · simp

/-- `bal_sliding_window_push`: the assembler and the window after it. -/
def slidingWindowPush (a : Assembler) (w : SlidingWindow) (m : Macro) : Assembler × SlidingWindow :=
  if hfull : w.macros.length = slidingWindowCapacity then
    let a' := flushMacros a w.macros
    (a', { macros := if a'.status ≠ .success then [m] else runPeepholeOptimizer [] m
           count_le := by split <;> simp [runPeepholeOptimizer_length, slidingWindowCapacity] })
  else
    (a, { macros := if a.status ≠ .success then w.macros ++ [m] else runPeepholeOptimizer w.macros m
          count_le := by
            have hle := w.count_le
            split <;> simp only [runPeepholeOptimizer_length, List.length_append, List.length_cons,
              List.length_nil] <;> omega })

def slidingWindowFlushAll (a : Assembler) (w : SlidingWindow) : Assembler × SlidingWindow :=
  (flushMacros a w.macros, .empty)

end Ballistic
