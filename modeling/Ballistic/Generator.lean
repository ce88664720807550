import Ballistic.Decoder

/-!
# The generator of the decoder table

`tools/scripts/generate_decoder_tables.lua`, from the boxes of a register diagram to the two arrays
that `bal_decode_arm64` reads. The bit operations of LuaJIT work on 32 bits and give signed results:
a number that comes out of one is a `BitVec 32` here, and `toInt` where the script looks at its sign
or prints it.
-/

namespace Ballistic

/-! ### Register diagrams -/

/-- A `c` element: its text and the columns it takes. -/
structure Cell where
  text : List Char
  colspan : Nat
  deriving DecidableEq, Repr

/-- A `box` element with its attributes. -/
structure Box where
  hibit : Option Nat
  width : Option Nat
  cells : List Cell
  deriving DecidableEq, Repr

/-- `content` in `process_box`: the texts of the cells, with an `x` for no text, filled up to the
width on the left. -/
def Box.content (box : Box) : List Char :=
  let content := (box.cells.map fun c => if c.text = [] then ['x'] else c.text).flatten
  let width := box.width.getD 1
  if content.length < width then List.replicate (width - content.length) 'x' ++ content else content

/-- The loop of `process_box` from the character at index `i` on; none below bit 0. -/
def processContent (hibit : Nat) :
    Nat → List Char → BitVec 32 → BitVec 32 → Option (BitVec 32 × BitVec 32)
  | _, [], mask, value => some (mask, value)
  | i, char :: content, mask, value =>
      if hibit < i then none
      else
        let position := 1#32 <<< (hibit - i)
        if char = '1' then
          processContent hibit (i + 1) content (mask ||| position) (value ||| position)
        else if char = '0' then processContent hibit (i + 1) content (mask ||| position) value
        else processContent hibit (i + 1) content mask value

def processBox (box : Box) (mask value : BitVec 32) : Option (BitVec 32 × BitVec 32) :=
  match box.hibit with
  | none => some (mask, value)
  | some hibit => if 32 ≤ hibit then none else processContent hibit 0 box.content mask value

/-- The fold of `parse_xml_file` over the boxes of a diagram or of an encoding. -/
def processBoxes : List Box → BitVec 32 → BitVec 32 → Option (BitVec 32 × BitVec 32)
  | [], mask, value => some (mask, value)
  | box :: boxes, mask, value => (processBox box mask value).bind fun p => processBoxes boxes p.1 p.2

/-! ### Descriptors -/

structure Descriptor where
  mnemonic : List Char
  mask : BitVec 32
  value : BitVec 32
  priority : Nat
  operands : List Operand
  deriving DecidableEq, Repr

/-- The loop that computes the priority: `while tmp > 0`, on a signed number. -/
def countPriority (tmp : BitVec 32) (priority : Nat) : Nat :=
  if 0 < tmp.toInt then countPriority (tmp >>> 1) (priority + (tmp &&& 1#32).toNat) else priority
termination_by tmp.toNat
decreasing_by
  have hpos : 0 < tmp.toNat := by
    have heq := BitVec.toInt_eq_toNat_cond tmp
    split at heq <;> omega
  rw [BitVec.toNat_ushiftRight, Nat.shiftRight_one]
  omega

/-- The descriptor `parse_xml_file` makes of an encoding: the boxes of the class, then those of the
encoding. -/
def extractInstruction (mnemonic : List Char) (operands : List Operand)
    (classBoxes encodingBoxes : List Box) : Option Descriptor :=
  (processBoxes classBoxes 0 0).bind fun c =>
    (processBoxes encodingBoxes c.1 c.2).map fun e =>
      { mnemonic := mnemonic, mask := e.1, value := e.2, priority := countPriority e.1 0,
        operands := operands }

def deriveOpcode (mnemonic : List Char) : IrOpcode :=
  let m := mnemonic.map Char.toUpper
  if m = "MOVZ".toList ∨ m = "MOVN".toList ∨ m = "MOVK".toList ∨ m = "ORR".toList ∨
    m = "MOV".toList then .mov
  else if m.take 3 = "ADD".toList then .add
  else if m.take 3 = "SUB".toList then .sub
  else if m.take 3 = "MUL".toList ∨ m.take 4 = "MADD".toList then .mul
  else if m.take 4 = "SDIV".toList ∨ m.take 4 = "UDIV".toList then .div
  else if m.take 3 = "AND".toList then .and
  else if m.take 3 = "EOR".toList then .xor
  else if m.take 3 = "LDR".toList ∨ m.take 3 = "LDP".toList then .load
  else if m.take 3 = "STR".toList ∨ m.take 3 = "STP".toList then .store
  else if m = "B".toList then .jump
  else if m.take 2 = "B.".toList then .branchConditional
  else if m = "BL".toList then .callHost
  else if m = "RET".toList then .return
  else if m.take 3 = "CMP".toList then .cmp
  else .trap

namespace Descriptor

/-- The entry of the instruction array that is written for a descriptor. -/
def metadata (d : Descriptor) : Metadata :=
  { name := d.mnemonic, mask := d.mask, expected := d.value, irOpcode := deriveOpcode d.mnemonic,
    operands := (d.operands ++ List.replicate 5 Operand.absent).take 5 }

def unsigned (n : BitVec 32) : Int := if n.toInt < 0 then n.toInt + 4294967296 else n.toInt

/-- The comparison that a bucket is sorted by. -/
def precedes (a b : Descriptor) : Bool :=
  if a.priority = b.priority then
    if unsigned a.value = unsigned b.value then decide (unsigned a.mask < unsigned b.mask)
    else decide (unsigned a.value < unsigned b.value)
  else decide (b.priority < a.priority)

def matchesWord (d : Descriptor) (w : BitVec 32) : Bool := w &&& d.mask == d.value

end Descriptor

/-- A sorting function as `table.sort` promises it: a permutation in which nothing stands behind an
element it precedes. It need not be stable. -/
structure TableSort {α : Type} (before : α → α → Bool) where
  sort : List α → List α
  perm : ∀ l, (sort l).Perm l
  ordered : ∀ l, (sort l).Pairwise fun a b => before b a = false

/-! ### Buckets -/

def decoderHashTableSize : Nat := 2048

def decoderHashBitsMask : BitVec 32 := 0xFFE00000

def probes (i : Nat) (d : Descriptor) : Bool :=
  BitVec.ofNat 32 i <<< 21 &&& (d.mask &&& decoderHashBitsMask) == d.value &&& decoderHashBitsMask

section Tables

variable (table : TableSort Descriptor.precedes) (instructions : List Descriptor)

def generateHashTable (i : Nat) : List Descriptor := table.sort (instructions.filter (probes i))

/-- A number as Lua prints it. -/
def luaNumber (n : Int) : List Char :=
  if n < 0 then '-' :: Nat.toDigits 10 n.natAbs else Nat.toDigits 10 n.natAbs

/-- What a candidate adds to the key of its sequence. -/
def Descriptor.keyPart (d : Descriptor) : List Char :=
  d.mnemonic ++ '_' :: luaNumber d.mask.toInt ++ '_' :: luaNumber d.value.toInt ++ [';']

def sequenceKey (candidates : List Descriptor) : List Char :=
  (candidates.map Descriptor.keyPart).flatten

/-- The variables of the loop that flattens the buckets. -/
structure Flattened where
  flatCandidates : List Descriptor
  sequenceMap : List Char → Option Nat
  bucketDescriptors : List (Nat × Nat)

def Flattened.start : Flattened := ⟨[], fun _ => none, []⟩

/-- One iteration: a bucket whose key was seen shares the candidates of that key. -/
def Flattened.add (f : Flattened) (candidates : List Descriptor) : Flattened :=
  let count := candidates.length
  if count = 0 then { f with bucketDescriptors := f.bucketDescriptors ++ [(0, 0)] }
  else
    let key := sequenceKey candidates
    match f.sequenceMap key with
    | some index => { f with bucketDescriptors := f.bucketDescriptors ++ [(index, count)] }
    | none =>
        let startIndex := f.flatCandidates.length
        { flatCandidates := f.flatCandidates ++ candidates
          sequenceMap := fun k => if k = key then some startIndex else f.sequenceMap k
          bucketDescriptors := f.bucketDescriptors ++ [(startIndex, count)] }

def flatten (size : Nat) : Flattened :=
  ((List.range size).map (generateHashTable table instructions)).foldl Flattened.add Flattened.start

/-- The arrays of the generated file. The fields of a bucket are a `uint16_t` and a `uint8_t`. -/
structure DecoderArrays where
  candidates : List Descriptor
  lookup : List (BitVec 16 × BitVec 8)

def generateFiles : DecoderArrays :=
  let f := flatten table instructions decoderHashTableSize
  { candidates := f.flatCandidates
    lookup := f.bucketDescriptors.map fun b => (BitVec.ofNat 16 b.1, BitVec.ofNat 8 b.2) }

/-- The candidates that the decoder goes through for an index. -/
def DecoderArrays.candidatesOf (arrays : DecoderArrays) (i : BitVec 11) : List Descriptor :=
  let bucket := arrays.lookup.getD i.toNat (0, 0)
  (arrays.candidates.drop bucket.1.toNat).take bucket.2.toNat

/-- The arrays as the decoder sees them. -/
def DecoderArrays.decoderTable (arrays : DecoderArrays) : DecoderTable where
  bucket i := (arrays.candidatesOf i).map Descriptor.metadata

end Tables

end Ballistic
