import Ballistic.Types

/-!
# The instruction decoder

`bal_decode_arm64` and the part of the generated decoder table (`decoder_table.c`) that belongs to
the instruction classes the compiler translates. The table itself is a parameter: a table of 2048
buckets, each a list of candidates in order. `DecoderTable.Generated` says that it holds what the
generated file holds in the buckets written out here.
-/

namespace Ballistic

/-- `bal_opcode_t`, the opcodes that occur in the generated table; the compiler does not tell the
last six apart. -/
inductive IrOpcode where
  | mov | add | sub | cmp | jump | branchZero | branchNotZero | branchConditional | return | trap
  | and | load | store | xor | mul | div | callHost
  deriving DecidableEq, Repr

/-- `bal_decoder_operand_type_t`. -/
inductive OperandType where
  | none | register32 | register64 | register128 | immediate | condition
  deriving DecidableEq, Repr

/-- `bal_decoder_operand_t`. -/
structure Operand where
  type : OperandType
  bitPosition : Nat
  bitWidth : Nat
  deriving DecidableEq, Repr

/-- `bal_decoder_instruction_metadata_t`. The name is the C string without its terminator. -/
structure Metadata where
  name : List Char
  mask : BitVec 32
  expected : BitVec 32
  irOpcode : IrOpcode
  operands : List Operand
  deriving DecidableEq, Repr

def Operand.absent : Operand := ⟨.none, 0, 0⟩

namespace Metadata

/-- `metadata->operands[i]`. -/
def operand (m : Metadata) (i : Nat) : Operand := m.operands.getD i Operand.absent

/-- `metadata->name[i]`, which is the terminator right after the last character. -/
def nameAt (m : Metadata) (i : Nat) : Char := m.name.getD i '\x00'

/-- `0 == strncmp(metadata->name, word, 3)` for a three-letter `word`. -/
def nameStarts (m : Metadata) (word : List Char) : Bool := m.name.take 3 == word

end Metadata

structure DecoderTable where
  bucket : BitVec 11 → List Metadata

/-- `bal_decode_arm64`: the first candidate of the bucket of the top eleven bits that matches. -/
def balDecodeArm64 (table : DecoderTable) (instruction : BitVec 32) : Option Metadata :=
  (table.bucket (instruction.extractLsb' 21 11)).find? fun m => instruction &&& m.mask == m.expected

def extractOperandValue (instruction : BitVec 32) (operand : Operand) : Nat :=
  match operand.type with
  | .none => 0
  | _ => (instruction >>> operand.bitPosition &&& (1#32 <<< operand.bitWidth) - 1#32).toNat

/-! ### The generated table -/

def registerType (sf : Bool) : OperandType := if sf then .register64 else .register32

def bit (b : Bool) (position : Nat) : BitVec 32 := if b then 1 <<< position else 0

/-- The mnemonic of an addition or subtraction. -/
def addSubName (op s : Bool) : List Char :=
  (if op then ['S', 'U', 'B'] else ['A', 'D', 'D']) ++ if s then ['S'] else []

def addSubOpcode (op : Bool) : IrOpcode := if op then .sub else .add

/-- Bits 31 to 29 of the encodings of additions and subtractions. -/
def addSubBits (sf op s : Bool) : BitVec 32 := bit sf 31 ||| bit op 30 ||| bit s 29

def addSubImmMetadata (sf op s : Bool) : Metadata :=
  { name := addSubName op s, mask := 0xFF800000, expected := 0x11000000 ||| addSubBits sf op s,
    irOpcode := addSubOpcode op,
    operands := [⟨registerType sf, 0, 5⟩, ⟨registerType sf, 5, 5⟩, ⟨.immediate, 10, 12⟩,
      ⟨.immediate, 22, 1⟩, .absent] }

/-- The entry of `CMN` and `CMP` (immediate), which the entry above hides. -/
def compareImmMetadata (sf op : Bool) : Metadata :=
  { name := addSubName op true, mask := 0xFF80001F,
    expected := 0x1100001F ||| addSubBits sf op true, irOpcode := addSubOpcode op,
    operands := [⟨registerType sf, 5, 5⟩, ⟨.immediate, 10, 12⟩, ⟨.immediate, 22, 1⟩, .absent,
      .absent] }

/-- The entry of `MOV` to and from the stack pointer. -/
def movStackMetadata (sf : Bool) : Metadata :=
  { name := ['A', 'D', 'D'], mask := 0xFFFFFC00, expected := 0x11000000 ||| bit sf 31,
    irOpcode := .add,
    operands := [⟨registerType sf, 0, 5⟩, ⟨registerType sf, 5, 5⟩, .absent, .absent, .absent] }

def addSubShiftedMetadata (sf op s : Bool) : Metadata :=
  { name := addSubName op s, mask := 0xFF200000, expected := 0x0B000000 ||| addSubBits sf op s,
    irOpcode := addSubOpcode op,
    operands := [⟨registerType sf, 0, 5⟩, ⟨registerType sf, 5, 5⟩, ⟨.immediate, 10, 6⟩,
      ⟨registerType sf, 16, 5⟩, ⟨.immediate, 22, 2⟩] }

def compareShiftedMetadata (sf op : Bool) : Metadata :=
  { name := addSubName op true, mask := 0xFF20001F,
    expected := 0x0B00001F ||| addSubBits sf op true, irOpcode := addSubOpcode op,
    operands := [⟨registerType sf, 5, 5⟩, ⟨.immediate, 10, 6⟩, ⟨registerType sf, 16, 5⟩,
      ⟨.immediate, 22, 2⟩, .absent] }

/-- The entry of `NEG`. -/
def negMetadata (sf : Bool) : Metadata :=
  { name := ['S', 'U', 'B'], mask := 0xFF2003E0, expected := 0x4B0003E0 ||| bit sf 31,
    irOpcode := .sub,
    operands := [⟨registerType sf, 0, 5⟩, ⟨.immediate, 10, 6⟩, ⟨registerType sf, 16, 5⟩,
      ⟨.immediate, 22, 2⟩, .absent] }

def addSubExtendedMetadata (op s : Bool) : Metadata :=
  { name := addSubName op s, mask := 0xFFE00000, expected := 0x0B200000 ||| addSubBits true op s,
    irOpcode := addSubOpcode op,
    operands := [⟨.register64, 0, 5⟩, ⟨.register64, 5, 5⟩, ⟨.immediate, 10, 3⟩,
      ⟨.immediate, 13, 3⟩, ⟨.condition, 16, 5⟩] }

def compareExtendedMetadata (op : Bool) : Metadata :=
  { name := addSubName op true, mask := 0xFFE0001F,
    expected := 0x0B20001F ||| addSubBits true op true, irOpcode := addSubOpcode op,
    operands := [⟨.register64, 5, 5⟩, ⟨.immediate, 10, 3⟩, ⟨.immediate, 13, 3⟩,
      ⟨.condition, 16, 5⟩, .absent] }

/-- `ADDG` and `SUBG`. -/
def addSubTagsMetadata (op : Bool) : Metadata :=
  { name := (if op then ['S', 'U', 'B'] else ['A', 'D', 'D']) ++ ['G'], mask := 0xFFC04800,
    expected := 0x91800000 ||| bit op 30, irOpcode := addSubOpcode op,
    operands := [⟨.register64, 0, 5⟩, ⟨.register64, 5, 5⟩, ⟨.immediate, 10, 4⟩,
      ⟨.immediate, 16, 6⟩, .absent] }

def moveWideLetter (opc : BitVec 2) : Char := if opc = 0 then 'N' else if opc = 2 then 'Z' else 'K'

def moveWideMetadata (sf : Bool) (opc : BitVec 2) : Metadata :=
  { name := ['M', 'O', 'V', moveWideLetter opc], mask := if sf then 0xFF800000 else 0xFFC00000,
    expected := 0x12800000 ||| bit sf 31 ||| opc.setWidth 32 <<< 29, irOpcode := .mov,
    operands := [⟨registerType sf, 0, 5⟩, ⟨.immediate, 5, 16⟩, ⟨.immediate, 21, 2⟩, .absent,
      .absent] }

def andImmMetadata : Metadata :=
  { name := ['A', 'N', 'D'], mask := 0xFF800000, expected := 0x92000000, irOpcode := .and,
    operands := [⟨.register64, 0, 5⟩, ⟨.register64, 5, 5⟩, ⟨.immediate, 10, 6⟩,
      ⟨.immediate, 16, 6⟩, ⟨.immediate, 22, 1⟩] }

def andShiftedMetadata (sf : Bool) : Metadata :=
  { name := ['A', 'N', 'D'], mask := 0xFF200000, expected := 0x0A000000 ||| bit sf 31,
    irOpcode := .and,
    operands := [⟨registerType sf, 0, 5⟩, ⟨registerType sf, 5, 5⟩, ⟨.immediate, 10, 6⟩,
      ⟨registerType sf, 16, 5⟩, ⟨.immediate, 22, 2⟩] }

def orrImmMetadata : Metadata :=
  { name := ['O', 'R', 'R'], mask := 0xFF800000, expected := 0xB2000000, irOpcode := .mov,
    operands := [⟨.register64, 0, 5⟩, ⟨.register64, 5, 5⟩, ⟨.immediate, 10, 6⟩,
      ⟨.immediate, 16, 6⟩, ⟨.immediate, 22, 1⟩] }

/-- The entry of `MOV` (bitmask immediate). -/
def movBitmaskMetadata : Metadata :=
  { name := ['O', 'R', 'R'], mask := 0xFF8003E0, expected := 0xB20003E0, irOpcode := .mov,
    operands := [⟨.register64, 0, 5⟩, ⟨.immediate, 10, 6⟩, ⟨.immediate, 16, 6⟩,
      ⟨.immediate, 22, 1⟩, .absent] }

def orrShiftedMetadata : Metadata :=
  { name := ['O', 'R', 'R'], mask := 0xFF200000, expected := 0xAA000000, irOpcode := .mov,
    operands := [⟨.register64, 0, 5⟩, ⟨.register64, 5, 5⟩, ⟨.immediate, 10, 6⟩,
      ⟨.register64, 16, 5⟩, ⟨.immediate, 22, 2⟩] }

/-- The entry of `MOV` (register). -/
def movRegisterMetadata : Metadata :=
  { name := ['O', 'R', 'R'], mask := 0xFFE0FFE0, expected := 0xAA0003E0, irOpcode := .mov,
    operands := [⟨.register64, 0, 5⟩, ⟨.register64, 16, 5⟩, .absent, .absent, .absent] }

def branchMetadata : Metadata :=
  { name := ['B'], mask := 0xFC000000, expected := 0x14000000, irOpcode := .jump,
    operands := [⟨.immediate, 0, 26⟩, .absent, .absent, .absent, .absent] }

def branchCondMetadata : Metadata :=
  { name := ['B', '.', 'c', 'o', 'n', 'd'], mask := 0xFF000010, expected := 0x54000000,
    irOpcode := .branchConditional,
    operands := [⟨.condition, 0, 4⟩, ⟨.immediate, 5, 19⟩, .absent, .absent, .absent] }

def branchConsistentMetadata : Metadata :=
  { name := ['B', 'C'], mask := 0xFF000010, expected := 0x54000010, irOpcode := .trap,
    operands := [⟨.condition, 0, 4⟩, ⟨.immediate, 5, 19⟩, .absent, .absent, .absent] }

def retMetadata : Metadata :=
  { name := ['R', 'E', 'T'], mask := 0xFFFFFC1F, expected := 0xD65F0000, irOpcode := .return,
    operands := [⟨.register64, 5, 5⟩, .absent, .absent, .absent, .absent] }

def retAuthMetadata (keyB : Bool) : Metadata :=
  { name := ['R', 'E', 'T', 'A'] ++ [if keyB then 'B' else 'A'], mask := 0xFFFFFFFF,
    expected := if keyB then 0xD65F0FFF else 0xD65F0BFF, irOpcode := .trap,
    operands := [.absent, .absent, .absent, .absent, .absent] }

def brMetadata : Metadata :=
  { name := ['B', 'R'], mask := 0xFFFFFC1F, expected := 0xD61F0000, irOpcode := .trap,
    operands := [⟨.register64, 5, 5⟩, .absent, .absent, .absent, .absent] }

/-- `BRAAZ` and `BRABZ`. -/
def brAuthMetadata (keyB : Bool) : Metadata :=
  { name := ['B', 'R', 'A', if keyB then 'B' else 'A', 'Z'], mask := 0xFFFFFC1F,
    expected := if keyB then 0xD61F0C1F else 0xD61F081F, irOpcode := .trap,
    operands := [⟨.register64, 5, 5⟩, .absent, .absent, .absent, .absent] }

/-- `SVC`, `HVC` and `SMC`. -/
def exceptionMetadata (name : List Char) (ll : BitVec 32) : Metadata :=
  { name := name, mask := 0xFFE0001F, expected := 0xD4000000 ||| ll, irOpcode := .trap,
    operands := [⟨.immediate, 5, 16⟩, .absent, .absent, .absent, .absent] }

/-- The buckets of the generated table for the classes above, by the top eleven bits; none for a
bucket that is not written out. -/
def generatedBucket (index : BitVec 11) : Option (List Metadata) :=
  let sf := index.getLsbD 10
  let op := index.getLsbD 9
  let s := index.getLsbD 8
  let opc := index.extractLsb' 8 2
  if index.extractLsb' 2 6 = 0x22 then
    some (addSubImmMetadata sf op s ::
      if s then [compareImmMetadata sf op]
      else if op = false ∧ index.extractLsb' 0 2 = 0 then [movStackMetadata sf]
      else [])
  else if index.extractLsb' 1 7 = 0x46 ∧ sf = true ∧ s = false then some [addSubTagsMetadata op]
  else if index.extractLsb' 2 6 = 0x24 ∧ sf = true ∧ opc = 0 then some [andImmMetadata]
  else if index.extractLsb' 2 6 = 0x24 ∧ sf = true ∧ opc = 1 then
    some [orrImmMetadata, movBitmaskMetadata]
  else if index.extractLsb' 2 6 = 0x25 ∧ opc ≠ 1 then
    if sf = false ∧ index.getLsbD 1 = true then some []
    else if opc = 3 then some [moveWideMetadata sf opc]
    else some [moveWideMetadata sf opc, moveWideMetadata sf opc]
  else if index.extractLsb' 3 5 = 0x0A ∧ index.getLsbD 0 = false ∧ opc = 0 then
    some [andShiftedMetadata sf]
  else if index.extractLsb' 3 5 = 0x0A ∧ index.getLsbD 0 = false ∧ sf = true ∧ opc = 1 then
    some (if index.extractLsb' 1 2 = 0 then [orrShiftedMetadata, movRegisterMetadata]
      else [orrShiftedMetadata])
  else if index.extractLsb' 3 5 = 0x0B ∧ index.getLsbD 0 = false then
    some (addSubShiftedMetadata sf op s ::
      if s then [compareShiftedMetadata sf op] else if op then [negMetadata sf] else [])
  else if index.extractLsb' 0 8 = 0x59 ∧ sf = true then
    some (addSubExtendedMetadata op s :: if s then [compareExtendedMetadata op] else [])
  else if index.extractLsb' 3 8 = 0x54 then some [branchCondMetadata, branchConsistentMetadata]
  else if index.extractLsb' 5 6 = 0x05 then some [branchMetadata]
  else if index = 0x6B2 then some [retMetadata, retAuthMetadata false, retAuthMetadata true]
  else if index = 0x6B0 then some [brMetadata, brAuthMetadata false, brAuthMetadata true]
  else if index = 0x6A0 then
    some [exceptionMetadata ['S', 'V', 'C'] 1, exceptionMetadata ['H', 'V', 'C'] 2,
      exceptionMetadata ['S', 'M', 'C'] 3]
  else none

/-- The table holds the generated buckets where they are written out above. -/
structure DecoderTable.Generated (table : DecoderTable) : Prop where
  bucket_eq : ∀ {index entries}, generatedBucket index = some entries →
    table.bucket index = entries

/-- The written-out buckets as a table of their own. -/
def generatedTable : DecoderTable := ⟨fun index => (generatedBucket index).getD []⟩

theorem generatedTable_generated : generatedTable.Generated :=
  ⟨fun h => by simp only [generatedTable, h, Option.getD_some]⟩

end Ballistic
