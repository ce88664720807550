import Ballistic.Machine.Memory

/-!
# The A64 reference machine

The A64 integer instructions a translator is compared with, as the architecture's pseudocode
(`spec/arm64_xml`) gives them. The register file is the one a translator sees: 32 registers, with
the stack pointer at index 31. Reading index 31 as a general register gives zero and writing it
does nothing. The condition flags are bytes, so that a guest whose flag bytes were never written
keeps whatever they held.
-/

namespace Machine.A64

abbrev Register := Fin 32

instance neZeroRegisters : NeZero 32 := ⟨by decide⟩

structure Nzcv where
  n : Bool
  z : Bool
  c : Bool
  v : Bool
  deriving DecidableEq, Repr

structure State where
  x : Register → BitVec 64
  flagN : Byte
  flagZ : Byte
  flagC : Byte
  flagV : Byte
  pc : Address

@[ext]
theorem State.ext {s t : State} (hx : s.x = t.x) (hn : s.flagN = t.flagN) (hz : s.flagZ = t.flagZ)
    (hc : s.flagC = t.flagC) (hv : s.flagV = t.flagV) (hpc : s.pc = t.pc) : s = t := by
  cases s
  cases t
  simp_all

/-! ### Instructions -/

/-- Instruction classes, with the fields of their encodings. `sf` selects the 64-bit form, `op` is
set for subtraction and `s` for the forms that set the flags. -/
inductive Instr where
  | addSubImm (sf op s sh : Bool) (imm12 : BitVec 12) (rn rd : Register)
  | addSubTags (op : Bool) (uimm6 : BitVec 6) (uimm4 : BitVec 4) (rn rd : Register)
  | logicalImm (sf : Bool) (opc : BitVec 2) (n : Bool) (immr imms : BitVec 6) (rn rd : Register)
  | moveWide (sf : Bool) (opc hw : BitVec 2) (imm16 : BitVec 16) (rd : Register)
  | logicalShifted (sf : Bool) (opc shift : BitVec 2) (n : Bool) (rm : Register) (imm6 : BitVec 6)
      (rn rd : Register)
  | addSubShifted (sf op s : Bool) (shift : BitVec 2) (rm : Register) (imm6 : BitVec 6)
      (rn rd : Register)
  | addSubExtended (sf op s : Bool) (rm : Register) (option imm3 : BitVec 3) (rn rd : Register)
  | branchCond (imm19 : BitVec 19) (cond : BitVec 4)
  | branch (imm26 : BitVec 26)
  | ret (rn : Register)
  deriving DecidableEq, Repr

/-- A five-bit register field. -/
def registerAt (w : BitVec 32) (position : Nat) : Register := (w.extractLsb' position 5).toFin

/-- The instruction classes by the fixed bits of their encodings. -/
def decode (w : BitVec 32) : Option Instr :=
  let sf := w.getLsbD 31
  let op := w.getLsbD 30
  let s := w.getLsbD 29
  let opc := w.extractLsb' 29 2
  let rd := registerAt w 0
  let rn := registerAt w 5
  let rm := registerAt w 16
  if w.extractLsb' 23 6 = 0x22 then
    some (.addSubImm sf op s (w.getLsbD 22) (w.extractLsb' 10 12) rn rd)
  else if w.extractLsb' 22 7 = 0x46 ∧ sf = true ∧ s = false then
    some (.addSubTags op (w.extractLsb' 16 6) (w.extractLsb' 10 4) rn rd)
  else if w.extractLsb' 23 6 = 0x24 then
    some (.logicalImm sf opc (w.getLsbD 22) (w.extractLsb' 16 6) (w.extractLsb' 10 6) rn rd)
  else if w.extractLsb' 23 6 = 0x25 then
    some (.moveWide sf opc (w.extractLsb' 21 2) (w.extractLsb' 5 16) rd)
  else if w.extractLsb' 24 5 = 0x0A then
    some (.logicalShifted sf opc (w.extractLsb' 22 2) (w.getLsbD 21) rm (w.extractLsb' 10 6) rn rd)
  else if w.extractLsb' 24 5 = 0x0B ∧ w.getLsbD 21 = false then
    some (.addSubShifted sf op s (w.extractLsb' 22 2) rm (w.extractLsb' 10 6) rn rd)
  else if w.extractLsb' 21 8 = 0x59 then
    some (.addSubExtended sf op s rm (w.extractLsb' 13 3) (w.extractLsb' 10 3) rn rd)
  else if w.extractLsb' 24 8 = 0x54 ∧ w.getLsbD 4 = false then
    some (.branchCond (w.extractLsb' 5 19) (w.extractLsb' 0 4))
  else if w.extractLsb' 26 6 = 0x05 then some (.branch (w.extractLsb' 0 26))
  else if w &&& 0xFFFFFC1F = 0xD65F0000 then some (.ret rn)
  else none

/-- The fields of a decoded instruction, read back from the word. -/
def Instr.Fields (w : BitVec 32) : Instr → Prop
  | .addSubImm sf op s sh imm12 rn rd =>
      w.extractLsb' 23 6 = 0x22 ∧ sf = w.getLsbD 31 ∧ op = w.getLsbD 30 ∧ s = w.getLsbD 29 ∧
        sh = w.getLsbD 22 ∧ imm12 = w.extractLsb' 10 12 ∧ rn = registerAt w 5 ∧ rd = registerAt w 0
  | .addSubTags op uimm6 uimm4 rn rd =>
      w.extractLsb' 22 7 = 0x46 ∧ w.getLsbD 31 = true ∧ op = w.getLsbD 30 ∧ w.getLsbD 29 = false ∧
        uimm6 = w.extractLsb' 16 6 ∧ uimm4 = w.extractLsb' 10 4 ∧ rn = registerAt w 5 ∧
        rd = registerAt w 0
  | .logicalImm sf opc n immr imms rn rd =>
      w.extractLsb' 23 6 = 0x24 ∧ sf = w.getLsbD 31 ∧ opc = w.extractLsb' 29 2 ∧ n = w.getLsbD 22 ∧
        immr = w.extractLsb' 16 6 ∧ imms = w.extractLsb' 10 6 ∧ rn = registerAt w 5 ∧
        rd = registerAt w 0
  | .moveWide sf opc hw imm16 rd =>
      w.extractLsb' 23 6 = 0x25 ∧ sf = w.getLsbD 31 ∧ opc = w.extractLsb' 29 2 ∧
        hw = w.extractLsb' 21 2 ∧ imm16 = w.extractLsb' 5 16 ∧ rd = registerAt w 0
  | .logicalShifted sf opc shift n rm imm6 rn rd =>
      w.extractLsb' 24 5 = 0x0A ∧ sf = w.getLsbD 31 ∧ opc = w.extractLsb' 29 2 ∧
        shift = w.extractLsb' 22 2 ∧ n = w.getLsbD 21 ∧ rm = registerAt w 16 ∧
        imm6 = w.extractLsb' 10 6 ∧ rn = registerAt w 5 ∧ rd = registerAt w 0
  | .addSubShifted sf op s shift rm imm6 rn rd =>
      w.extractLsb' 24 5 = 0x0B ∧ w.getLsbD 21 = false ∧ sf = w.getLsbD 31 ∧ op = w.getLsbD 30 ∧
        s = w.getLsbD 29 ∧ shift = w.extractLsb' 22 2 ∧ rm = registerAt w 16 ∧
        imm6 = w.extractLsb' 10 6 ∧ rn = registerAt w 5 ∧ rd = registerAt w 0
  | .addSubExtended sf op s rm option imm3 rn rd =>
      w.extractLsb' 21 8 = 0x59 ∧ sf = w.getLsbD 31 ∧ op = w.getLsbD 30 ∧ s = w.getLsbD 29 ∧
        rm = registerAt w 16 ∧ option = w.extractLsb' 13 3 ∧ imm3 = w.extractLsb' 10 3 ∧
        rn = registerAt w 5 ∧ rd = registerAt w 0
  | .branchCond imm19 cond =>
      w.extractLsb' 24 8 = 0x54 ∧ w.getLsbD 4 = false ∧ imm19 = w.extractLsb' 5 19 ∧
        cond = w.extractLsb' 0 4
  | .branch imm26 => w.extractLsb' 26 6 = 0x05 ∧ imm26 = w.extractLsb' 0 26
  | .ret rn => w &&& 0xFFFFFC1F = 0xD65F0000 ∧ rn = registerAt w 5

theorem some_of_ite {α : Type} {c : Prop} [Decidable c] {a b : α} {o : Option α}
    (h : (if c then some a else o) = some b) : c ∧ a = b ∨ o = some b := by
  by_cases hc : c
  · rw [if_pos hc] at h
    exact .inl ⟨hc, Option.some.inj h⟩
  · rw [if_neg hc] at h
    exact .inr h

theorem decode_fields {w : BitVec 32} {i : Instr} (h : decode w = some i) : i.Fields w := by
  simp only [decode] at h
  obtain ⟨hclass, rfl⟩ | h := some_of_ite h
  · exact ⟨hclass, rfl, rfl, rfl, rfl, rfl, rfl, rfl⟩
  obtain ⟨hclass, rfl⟩ | h := some_of_ite h
  · exact ⟨hclass.1, hclass.2.1, rfl, hclass.2.2, rfl, rfl, rfl, rfl⟩
  obtain ⟨hclass, rfl⟩ | h := some_of_ite h
  · exact ⟨hclass, rfl, rfl, rfl, rfl, rfl, rfl, rfl⟩
  obtain ⟨hclass, rfl⟩ | h := some_of_ite h
  · exact ⟨hclass, rfl, rfl, rfl, rfl, rfl⟩
  obtain ⟨hclass, rfl⟩ | h := some_of_ite h
  · exact ⟨hclass, rfl, rfl, rfl, rfl, rfl, rfl, rfl, rfl⟩
  obtain ⟨hclass, rfl⟩ | h := some_of_ite h
  · exact ⟨hclass.1, hclass.2, rfl, rfl, rfl, rfl, rfl, rfl, rfl, rfl⟩
  obtain ⟨hclass, rfl⟩ | h := some_of_ite h
  · exact ⟨hclass, rfl, rfl, rfl, rfl, rfl, rfl, rfl, rfl⟩
  obtain ⟨hclass, rfl⟩ | h := some_of_ite h
  · exact ⟨hclass.1, hclass.2, rfl, rfl⟩
  obtain ⟨hclass, rfl⟩ | h := some_of_ite h
  · exact ⟨hclass, rfl⟩
  obtain ⟨hclass, rfl⟩ | h := some_of_ite h
  · exact ⟨hclass, rfl⟩
  cases h

/-! ### Arithmetic -/

/-- `AddWithCarry`: the sum and its flags. -/
def addWithCarry {n : Nat} (x y : BitVec n) (carryIn : Bool) : BitVec n × Nzcv :=
  let unsignedSum := x.toNat + y.toNat + carryIn.toNat
  let signedSum := x.toInt + y.toInt + carryIn.toNat
  let result := BitVec.ofNat n unsignedSum
  (result,
    { n := result.msb, z := result == 0, c := decide (result.toNat ≠ unsignedSum),
      v := decide (result.toInt ≠ signedSum) })

/-- Addition, or subtraction as the addition of the complement. -/
def addSub {n : Nat} (op : Bool) (x y : BitVec n) : BitVec n × Nzcv :=
  if op then addWithCarry x (~~~y) true else addWithCarry x y false

theorem addSub_false {n : Nat} (x y : BitVec n) :
    addSub false x y =
      (x + y, { n := (x + y).msb, z := x + y == 0, c := decide (2 ^ n ≤ x.toNat + y.toNat),
                v := decide ((x + y).toInt ≠ x.toInt + y.toInt) }) := by
  have hresult : BitVec.ofNat n (x.toNat + y.toNat) = x + y := by
    apply BitVec.eq_of_toNat_eq
    simp
  simp only [addSub, addWithCarry, Bool.false_eq_true, if_false, Bool.toNat_false, Nat.add_zero,
    Nat.cast_zero, Int.add_zero, hresult, Prod.mk.injEq, true_and, Nzcv.mk.injEq, and_true]
  rw [decide_eq_decide, BitVec.toNat_add]
  constructor
  · intro hcarry
    by_contra hsmall
    exact hcarry (Nat.mod_eq_of_lt (by omega))
  · intro hlarge heq
    have hlt := Nat.mod_lt (x.toNat + y.toNat) (Nat.two_pow_pos n)
    omega

section Signed

variable {n : Nat} (hn : 0 < n) (x y : BitVec n)

include hn

theorem two_pow_eq_double : 2 ^ n = 2 * 2 ^ (n - 1) := by
  rw [← Nat.pow_succ', Nat.succ_eq_add_one, Nat.sub_add_cancel hn]

theorem toInt_not : (~~~y).toInt = -y.toInt - 1 := by
  have hy := y.isLt
  have hdouble := two_pow_eq_double hn
  rw [BitVec.toInt_eq_toNat_cond, BitVec.toInt_eq_toNat_cond, BitVec.toNat_not]
  generalize 2 ^ n = top at *
  split <;> split <;> omega

omit hn in
theorem toNat_sub_eq : (x - y).toNat =
    if y.toNat ≤ x.toNat then x.toNat - y.toNat else 2 ^ n - y.toNat + x.toNat := by
  have hx := x.isLt
  have hy := y.isLt
  rw [BitVec.toNat_sub]
  split
  · rw [show 2 ^ n - y.toNat + x.toNat = x.toNat - y.toNat + 2 ^ n by omega, Nat.add_mod_right,
      Nat.mod_eq_of_lt (by omega)]
  · exact Nat.mod_eq_of_lt (by omega)

omit hn in
theorem toNat_add_eq : (x + y).toNat =
    if x.toNat + y.toNat < 2 ^ n then x.toNat + y.toNat else x.toNat + y.toNat - 2 ^ n := by
  have hx := x.isLt
  have hy := y.isLt
  rw [BitVec.toNat_add]
  split
  · exact Nat.mod_eq_of_lt (by assumption)
  · rw [Nat.mod_eq_sub_mod (by omega), Nat.mod_eq_of_lt (by omega)]

theorem addSub_true :
    addSub true x y =
      (x - y, { n := (x - y).msb, z := x - y == 0, c := decide (y.toNat ≤ x.toNat),
                v := decide ((x - y).toInt ≠ x.toInt - y.toInt) }) := by
  have hx := x.isLt
  have hy := y.isLt
  have hresult : BitVec.ofNat n (x.toNat + (~~~y).toNat + 1) = x - y := by
    apply BitVec.eq_of_toNat_eq
    simp only [BitVec.toNat_ofNat, BitVec.toNat_not, BitVec.toNat_sub]
    congr 1
    omega
  have hsigned : x.toInt + (~~~y).toInt + 1 = x.toInt - y.toInt := by
    rw [toInt_not hn]
    omega
  simp only [addSub, addWithCarry, if_true, Bool.toNat_true, Nat.cast_one, hresult, hsigned,
    Prod.mk.injEq, true_and, Nzcv.mk.injEq, and_true]
  rw [decide_eq_decide, toNat_sub_eq, BitVec.toNat_not]
  split <;> omega

/-- The signed overflow of a sum, by the signs. -/
theorem toInt_add_ne :
    (x + y).toInt ≠ x.toInt + y.toInt ↔ x.msb = y.msb ∧ (x + y).msb ≠ x.msb := by
  have hx := x.isLt
  have hy := y.isLt
  have hdouble := two_pow_eq_double hn
  simp only [BitVec.toInt_eq_toNat_cond, BitVec.msb_eq_decide, toNat_add_eq, ne_eq, decide_eq_decide]
  generalize 2 ^ n = top at *
  generalize 2 ^ (n - 1) = half at *
  split <;> split <;> split <;> omega

/-- The signed overflow of a difference, by the signs. -/
theorem toInt_sub_ne :
    (x - y).toInt ≠ x.toInt - y.toInt ↔ x.msb ≠ y.msb ∧ (x - y).msb ≠ x.msb := by
  have hx := x.isLt
  have hy := y.isLt
  have hdouble := two_pow_eq_double hn
  simp only [BitVec.toInt_eq_toNat_cond, BitVec.msb_eq_decide, toNat_sub_eq, ne_eq, decide_eq_decide]
  generalize 2 ^ n = top at *
  generalize 2 ^ (n - 1) = half at *
  split <;> split <;> split <;> omega

end Signed

/-- `addSub` in the operand size `sf` selects, with the result extended to the register. -/
def addSubSized (sf op : Bool) (x y : BitVec 64) : BitVec 64 × Nzcv :=
  if sf then addSub op x y
  else
    let r := addSub op (x.setWidth 32) (y.setWidth 32)
    (r.1.setWidth 64, r.2)

/-- The register operand truncated to the operand size. -/
def sized (sf : Bool) (x : BitVec 64) : BitVec 64 := if sf then x else (x.setWidth 32).setWidth 64

/-- `DecodeBitMasks` for a logical immediate; none where the encoding is undefined. An element of
`2 ^ len` bits holds `s + 1` ones rotated right by `r`, and fills the register. -/
def decodeBitMasks (n : Bool) (imms immr : BitVec 6) : Option (BitVec 64) :=
  let selector := (BitVec.ofBool n ++ ~~~imms).toNat
  let len := Nat.log2 selector
  if selector = 0 ∨ len < 1 then none
  else
    let size := 2 ^ len
    let s := imms.toNat % size
    let r := immr.toNat % size
    if s = size - 1 then none
    else
      let ones := 2 ^ (s + 1) - 1
      let element := ones / 2 ^ r + (ones % 2 ^ r) * 2 ^ (size - r)
      some (BitVec.ofNat 64 ((List.range (64 / size)).map fun k => element * 2 ^ (k * size)).sum)

/-- `ExtendReg`: the low bits of a register, extended and shifted left. -/
def extendReg (option : BitVec 3) (shift : Nat) (x : BitVec 64) : BitVec 64 :=
  let length := min (8 * 2 ^ (option.extractLsb' 0 2).toNat) (64 - shift)
  let low := x.extractLsb' 0 length
  (if option.getLsbD 2 then low.signExtend 64 else low.setWidth 64) <<< shift

def shiftReg (shift : BitVec 2) (amount : Nat) {n : Nat} (x : BitVec n) : BitVec n :=
  if shift = 0 then x <<< amount
  else if shift = 1 then x >>> amount
  else if shift = 2 then x.sshiftRight amount
  else x.rotateRight amount

def shiftRegSized (sf : Bool) (shift : BitVec 2) (amount : Nat) (x : BitVec 64) : BitVec 64 :=
  if sf then shiftReg shift amount x else (shiftReg shift amount (x.setWidth 32)).setWidth 64

def logical (opc : BitVec 2) (x y : BitVec 64) : BitVec 64 :=
  if opc = 1 then x ||| y else if opc = 2 then x ^^^ y else x &&& y

/-- The value a wide move writes into the bits at `16 * hw`. -/
def moveWideValue (sf : Bool) (opc hw : BitVec 2) (imm16 : BitVec 16) (old : BitVec 64) :
    BitVec 64 :=
  let position := 16 * hw.toNat
  let kept := if opc = 3 then old &&& ~~~(0xFFFF#64 <<< position) else 0
  let inserted := kept ||| imm16.setWidth 64 <<< position
  sized sf (if opc = 0 then ~~~inserted else inserted)

/-! ### Memory tagging -/

/-- What `ADDG` and `SUBG` read of the system registers. -/
structure TagAccess where
  enabled : Bool
  exclude : BitVec 16

/-- The first tag from `tag` on that is not excluded. -/
def skipExcluded (exclude : BitVec 16) : Nat → BitVec 4 → BitVec 4
  | 0, tag => tag
  | fuel + 1, tag =>
      if exclude.getLsbD tag.toNat then skipExcluded exclude fuel (tag + 1) else tag

def chooseNonExcludedTag (exclude : BitVec 16) (tag offset : BitVec 4) : BitVec 4 :=
  if exclude = BitVec.allOnes 16 then 0
  else if offset = 0 then skipExcluded exclude 16 tag
  else (List.range offset.toNat).foldl (fun tag _ => skipExcluded exclude 16 (tag + 1)) tag

def withAllocationTag (address : BitVec 64) (tag : BitVec 4) : BitVec 64 :=
  address.extractLsb' 60 4 ++ tag ++ address.extractLsb' 0 56

def addSubTagged (access : TagAccess) (op : Bool) (uimm6 : BitVec 6) (uimm4 : BitVec 4)
    (x : BitVec 64) : BitVec 64 :=
  let tag := if access.enabled then
      chooseNonExcludedTag access.exclude (x.extractLsb' 56 4) uimm4
    else 0
  withAllocationTag (addSub op x (uimm6.setWidth 64 <<< 4)).1 tag

/-! ### Execution -/

def flagByte (b : Bool) : Byte := if b then 1 else 0

namespace State

/-- The two states agree up to the program counter. -/
structure SameRegisters (s t : State) : Prop where
  x : s.x = t.x
  flagN : s.flagN = t.flagN
  flagZ : s.flagZ = t.flagZ
  flagC : s.flagC = t.flagC
  flagV : s.flagV = t.flagV

/-- A general register read: index 31 is the zero register. -/
def general (s : State) (a : Register) : BitVec 64 := if a = 31 then 0 else s.x a

/-- A write to the register at `a`, the stack pointer included. -/
def setX (s : State) (a : Register) (value : BitVec 64) : State :=
  { s with x := Function.update s.x a value }

/-- A general register write: index 31 discards the value. -/
def setGeneral (s : State) (a : Register) (value : BitVec 64) : State :=
  if a = 31 then s else s.setX a value

def setNzcv (s : State) (f : Nzcv) : State :=
  { s with flagN := flagByte f.n, flagZ := flagByte f.z, flagC := flagByte f.c,
           flagV := flagByte f.v }

def advance (s : State) : State := { s with pc := s.pc + 4 }

/-- The writes of an addition or subtraction whose destination may be the stack pointer. -/
def writeSum (s : State) (setFlags : Bool) (rd : Register) (r : BitVec 64 × Nzcv) : State :=
  if setFlags then (s.setGeneral rd r.1).setNzcv r.2 else s.setX rd r.1

/-- The same for the forms in which index 31 is the zero register. -/
def writeSumGeneral (s : State) (setFlags : Bool) (rd : Register) (r : BitVec 64 × Nzcv) : State :=
  if setFlags then (s.setGeneral rd r.1).setNzcv r.2 else s.setGeneral rd r.1

@[simp]
theorem setX_self (s : State) (a : Register) (value : BitVec 64) : (s.setX a value).x a = value :=
  Function.update_self ..

theorem setX_of_ne (s : State) {a b : Register} (value : BitVec 64) (h : b ≠ a) :
    (s.setX a value).x b = s.x b := Function.update_of_ne h ..

@[simp]
theorem setNzcv_x (s : State) (f : Nzcv) : (s.setNzcv f).x = s.x := rfl

theorem setGeneral_pc (s : State) (a : Register) (value : BitVec 64) :
    (s.setGeneral a value).pc = s.pc := by
  unfold setGeneral
  split <;> rfl

theorem writeSum_pc (s : State) (setFlags : Bool) (rd : Register) (r : BitVec 64 × Nzcv) :
    (s.writeSum setFlags rd r).pc = s.pc := by
  unfold writeSum
  split
  · exact setGeneral_pc s rd r.1
  · rfl

theorem sameRegisters_advance {s t : State} : s.SameRegisters t.advance ↔ s.SameRegisters t :=
  ⟨fun h => ⟨h.x, h.flagN, h.flagZ, h.flagC, h.flagV⟩,
    fun h => ⟨h.x, h.flagN, h.flagZ, h.flagC, h.flagV⟩⟩

theorem SameRegisters.refl (s : State) : s.SameRegisters s := ⟨rfl, rfl, rfl, rfl, rfl⟩

theorem SameRegisters.trans {s t u : State} (h : s.SameRegisters t) (h' : t.SameRegisters u) :
    s.SameRegisters u :=
  ⟨h.x.trans h'.x, h.flagN.trans h'.flagN, h.flagZ.trans h'.flagZ, h.flagC.trans h'.flagC,
    h.flagV.trans h'.flagV⟩

theorem SameRegisters.symm {s t : State} (h : s.SameRegisters t) : t.SameRegisters s :=
  ⟨h.x.symm, h.flagN.symm, h.flagZ.symm, h.flagC.symm, h.flagV.symm⟩

theorem sameRegisters_setX (s : State) (rd : Register) (v w : BitVec 64) :
    (s.setX rd v).SameRegisters (s.setX rd w) ↔ v = w := by
  constructor
  · intro h
    simpa [setX] using congrFun h.x rd
  · rintro rfl
    exact .refl _

theorem writeSum_x (s : State) (setFlags : Bool) {rd : Register} (hrd : rd ≠ 31)
    (r : BitVec 64 × Nzcv) : (s.writeSum setFlags rd r).x rd = r.1 := by
  cases setFlags <;> simp [writeSum, setGeneral, hrd]

theorem flagByte_inj {b c : Bool} : flagByte b = flagByte c ↔ b = c := by
  cases b <;> cases c <;> decide

/-- A sum is in the destination and, where it is asked for, in the flags. -/
theorem sameRegisters_writeSum (s : State) {setFlags : Bool} {rd : Register} (hrd : rd ≠ 31)
    (r r' : BitVec 64 × Nzcv) :
    (s.writeSum setFlags rd r).SameRegisters (s.writeSum setFlags rd r') ↔
      r.1 = r'.1 ∧ (setFlags = true → r.2 = r'.2) := by
  cases setFlags with
  | false =>
      simp only [writeSum, Bool.false_eq_true, if_false, false_implies, and_true]
      exact sameRegisters_setX s rd r.1 r'.1
  | true =>
      simp only [writeSum, setGeneral, hrd, if_true, if_false, forall_const]
      constructor
      · intro h
        refine ⟨by simpa [setX] using congrFun h.x rd, ?_⟩
        have hn := flagByte_inj.mp h.flagN
        have hz := flagByte_inj.mp h.flagZ
        have hc := flagByte_inj.mp h.flagC
        have hv := flagByte_inj.mp h.flagV
        obtain ⟨_, ⟨n, z, c, v⟩⟩ := r
        obtain ⟨_, ⟨n', z', c', v'⟩⟩ := r'
        simp only at hn hz hc hv
        rw [hn, hz, hc, hv]
      · rintro ⟨hvalue, hflags⟩
        rw [hvalue, hflags]
        exact .refl _

end State

def conditionHolds (s : State) (cond : BitVec 4) : Bool :=
  let n := s.flagN ≠ 0
  let z := s.flagZ ≠ 0
  let c := s.flagC ≠ 0
  let v := s.flagV ≠ 0
  let base : Bool := match (cond.extractLsb' 1 3).toNat with
    | 0 => z
    | 1 => c
    | 2 => n
    | 3 => v
    | 4 => c && !z
    | 5 => n == v
    | 6 => n == v && !z
    | _ => true
  if cond.getLsbD 0 ∧ cond ≠ 0xF then !base else base

theorem State.SameRegisters.conditionHolds_eq {s t : State} (h : s.SameRegisters t) (cond : BitVec 4) :
    conditionHolds s cond = conditionHolds t cond := by
  simp only [conditionHolds, h.flagN, h.flagZ, h.flagC, h.flagV]

/-- The effect of an instruction; none where the encoding is undefined. -/
def Instr.exec (access : TagAccess) (s : State) : Instr → Option State
  | .addSubImm sf op setFlags sh imm12 rn rd =>
      let operand2 : BitVec 64 := if sh then imm12.setWidth 64 <<< 12 else imm12.setWidth 64
      some (s.writeSum setFlags rd (addSubSized sf op (s.x rn) operand2)).advance
  | .addSubTags op uimm6 uimm4 rn rd =>
      some (s.setX rd (addSubTagged access op uimm6 uimm4 (s.x rn))).advance
  | .logicalImm sf opc n immr imms rn rd =>
      if !sf && n then none
      else (decodeBitMasks n imms immr).map fun mask =>
        let result := sized sf (logical opc (s.general rn) mask)
        if opc = 3 then
          ((s.setGeneral rd result).setNzcv
            { n := if sf then result.msb else result.getLsbD 31, z := result == 0, c := false,
              v := false }).advance
        else (s.setX rd result).advance
  | .moveWide sf opc hw imm16 rd =>
      if opc = 1 ∨ (!sf && hw.getLsbD 1) then none
      else some (s.setGeneral rd (moveWideValue sf opc hw imm16 (s.general rd))).advance
  | .logicalShifted sf opc shift n rm imm6 rn rd =>
      if !sf && imm6.getLsbD 5 then none
      else
        let shifted := shiftRegSized sf shift imm6.toNat (s.general rm)
        let operand2 := if n then ~~~shifted else shifted
        let result := sized sf (logical opc (s.general rn) operand2)
        if opc = 3 then
          some ((s.setGeneral rd result).setNzcv
            { n := if sf then result.msb else result.getLsbD 31, z := result == 0, c := false,
              v := false }).advance
        else some (s.setGeneral rd result).advance
  | .addSubShifted sf op setFlags shift rm imm6 rn rd =>
      if shift = 3 ∨ (!sf && imm6.getLsbD 5) then none
      else
        let operand2 := shiftRegSized sf shift imm6.toNat (s.general rm)
        some (s.writeSumGeneral setFlags rd (addSubSized sf op (s.general rn) operand2)).advance
  | .addSubExtended sf op setFlags rm option imm3 rn rd =>
      if 4 < imm3.toNat then none
      else
        let operand2 := extendReg option imm3.toNat (s.general rm)
        some (s.writeSum setFlags rd (addSubSized sf op (s.x rn) operand2)).advance
  | .branchCond imm19 cond =>
      if conditionHolds s cond then some { s with pc := s.pc + (imm19 ++ 0#2).signExtend 64 }
      else some s.advance
  | .branch imm26 => some { s with pc := s.pc + (imm26 ++ 0#2).signExtend 64 }
  | .ret rn => some { s with pc := s.general rn }

/-- Sequential execution of a list of instructions. -/
def execAll (access : TagAccess) (s : State) : List Instr → Option State
  | [] => some s
  | i :: is => (i.exec access s).bind fun s' => execAll access s' is

theorem execAll_append (access : TagAccess) (s : State) (is js : List Instr) :
    execAll access s (is ++ js) =
      (execAll access s is).bind fun s' => execAll access s' js := by
  induction is generalizing s with
  | nil => rfl
  | cons i is ih =>
      rw [List.cons_append, execAll, execAll, Option.bind_assoc]
      congr 1
      funext s'
      exact ih s'

theorem execAll_eq_foldlM (access : TagAccess) (s : State) (is : List Instr) :
    execAll access s is = is.foldlM (fun s i => i.exec access s) s := by
  induction is generalizing s with
  | nil => rfl
  | cons i is ih =>
      rw [execAll, List.foldlM_cons]
      exact congrArg _ (funext ih)

end Machine.A64
