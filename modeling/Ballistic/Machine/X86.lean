import Ballistic.Machine.Memory

/-!
# The x86-64 reference machine

The subset of x86-64 that a simple code generator needs: 64-bit moves, two-operand arithmetic,
`[rbp + disp32]` accesses, the stack, `setcc`, `jcc` and `ret`. Straight-line instructions are a
function on machine states; control transfers are separate, because what they do depends on where
the instruction lies in the code.
-/

namespace Machine.X86

inductive Reg where
  | rax | rcx | rdx | rbx | rsp | rbp | rsi | rdi
  | r8 | r9 | r10 | r11 | r12 | r13 | r14 | r15
  deriving DecidableEq, Repr

/-- The register's number in instruction encodings. -/
def Reg.number : Reg → Nat
  | .rax => 0 | .rcx => 1 | .rdx => 2 | .rbx => 3 | .rsp => 4 | .rbp => 5 | .rsi => 6 | .rdi => 7
  | .r8 => 8 | .r9 => 9 | .r10 => 10 | .r11 => 11 | .r12 => 12 | .r13 => 13 | .r14 => 14
  | .r15 => 15

def Reg.ofNumber : Nat → Option Reg
  | 0 => some .rax | 1 => some .rcx | 2 => some .rdx | 3 => some .rbx
  | 4 => some .rsp | 5 => some .rbp | 6 => some .rsi | 7 => some .rdi
  | 8 => some .r8 | 9 => some .r9 | 10 => some .r10 | 11 => some .r11
  | 12 => some .r12 | 13 => some .r13 | 14 => some .r14 | 15 => some .r15
  | _ => none

@[simp]
theorem Reg.ofNumber_number (r : Reg) : Reg.ofNumber r.number = some r := by
  cases r <;> rfl

/-- Condition codes of `setcc` and `jcc`, in encoding order. -/
inductive Condition where
  | o | no | b | ae | e | ne | be | a | s | ns | p | np | l | ge | le | g
  deriving DecidableEq, Repr

def Condition.number : Condition → Nat
  | .o => 0 | .no => 1 | .b => 2 | .ae => 3 | .e => 4 | .ne => 5 | .be => 6 | .a => 7
  | .s => 8 | .ns => 9 | .p => 10 | .np => 11 | .l => 12 | .ge => 13 | .le => 14 | .g => 15

def Condition.ofNumber : Nat → Option Condition
  | 0 => some .o | 1 => some .no | 2 => some .b | 3 => some .ae
  | 4 => some .e | 5 => some .ne | 6 => some .be | 7 => some .a
  | 8 => some .s | 9 => some .ns | 10 => some .p | 11 => some .np
  | 12 => some .l | 13 => some .ge | 14 => some .le | 15 => some .g
  | _ => none

inductive ShiftOp where
  | ror | shl | shr | sar
  deriving DecidableEq, Repr

/-- Two-operand arithmetic on 64-bit registers. -/
inductive AluOp where
  | add | or | and | sub | xor
  deriving DecidableEq, Repr

/-- Instructions, with 64-bit operand size unless the name says otherwise. Displacements and
immediates are kept as encoded and extended when the instruction executes. -/
inductive Instr where
  | alu (op : AluOp) (destination source : Reg)
  | addImm (destination : Reg) (immediate : BitVec 32)
  | subImm (destination : Reg) (immediate : BitVec 32)
  | addMemImm (displacement immediate : BitVec 32)
  | test (destination source : Reg)
  | cmpMem8 (displacement : BitVec 32) (immediate : Byte)
  | mov (destination source : Reg)
  | movImm (destination : Reg) (immediate : BitVec 64)
  | load (destination : Reg) (displacement : BitVec 32)
  | loadFrom (destination base : Reg)
  | store (source : Reg) (displacement : BitVec 32)
  | shift (op : ShiftOp) (destination : Reg) (amount : Byte)
  | setcc (condition : Condition) (displacement : BitVec 32)
  | push (source : Reg)
  | pop (destination : Reg)
  | jmp (target : Reg)
  | jmpRel (offset : BitVec 32)
  | jcc (condition : Condition) (offset : BitVec 32)
  | ret
  | ud2
  deriving DecidableEq, Repr

/-- Whether execution continues with the next instruction, whatever the machine state. -/
def Instr.straight : Instr → Bool
  | .jmp _ | .jmpRel _ | .jcc _ _ | .ret | .ud2 => false
  | _ => true

structure Flags where
  cf : Bool
  pf : Bool
  zf : Bool
  sf : Bool
  of : Bool
  deriving DecidableEq, Repr

structure State where
  regs : Reg → BitVec 64
  flags : Flags
  memory : Memory
  rip : Nat

/-! ### Flags -/

/-- Set when the low byte has an even number of ones. -/
def parity (result : BitVec 64) : Bool :=
  ((List.range 8).countP fun i => result.getLsbD i) % 2 == 0

def resultFlags (cf of : Bool) (result : BitVec 64) : Flags :=
  { cf := cf, pf := parity result, zf := result == 0, sf := result.msb, of := of }

/-- `CF` is the carry out of bit 63 and `OF` the signed overflow. -/
def addFlags (x y : BitVec 64) : Flags :=
  resultFlags (decide (2 ^ 64 ≤ x.toNat + y.toNat))
    (decide ((x + y).toInt ≠ x.toInt + y.toInt)) (x + y)

/-- `CF` is the borrow and `OF` the signed overflow. -/
def subFlags (x y : BitVec 64) : Flags :=
  resultFlags (decide (x.toNat < y.toNat)) (decide ((x - y).toInt ≠ x.toInt - y.toInt)) (x - y)

def logicFlags (result : BitVec 64) : Flags := resultFlags false false result

/-- The flags of an 8-bit compare. -/
def cmp8Flags (x y : Byte) : Flags :=
  { cf := decide (x.toNat < y.toNat), pf := parity ((x - y).setWidth 64), zf := x - y == 0,
    sf := (x - y).msb, of := decide ((x - y).toInt ≠ x.toInt - y.toInt) }

def Flags.holds (f : Flags) : Condition → Bool
  | .o => f.of | .no => !f.of
  | .b => f.cf | .ae => !f.cf
  | .e => f.zf | .ne => !f.zf
  | .be => f.cf || f.zf | .a => !(f.cf || f.zf)
  | .s => f.sf | .ns => !f.sf
  | .p => f.pf | .np => !f.pf
  | .l => f.sf != f.of | .ge => f.sf == f.of
  | .le => f.zf || f.sf != f.of | .g => !f.zf && f.sf == f.of

def AluOp.result : AluOp → BitVec 64 → BitVec 64 → BitVec 64
  | .add, x, y => x + y
  | .or, x, y => x ||| y
  | .and, x, y => x &&& y
  | .sub, x, y => x - y
  | .xor, x, y => x ^^^ y

def AluOp.flags : AluOp → BitVec 64 → BitVec 64 → Flags
  | .add, x, y => addFlags x y
  | .sub, x, y => subFlags x y
  | op, x, y => logicFlags (op.result x y)

def ShiftOp.result : ShiftOp → BitVec 64 → Nat → BitVec 64
  | .ror, x, n => x.rotateRight n
  | .shl, x, n => x <<< n
  | .shr, x, n => x >>> n
  | .sar, x, n => x.sshiftRight n

/-- A rotation changes `CF` and `OF` only; `OF` follows the one-bit rule at every amount. -/
def ShiftOp.flags (f : Flags) : ShiftOp → BitVec 64 → Nat → Flags
  | .ror, x, n =>
      let result := x.rotateRight n
      { f with cf := result.msb, of := result.msb != result.getLsbD 62 }
  | .shl, x, n =>
      let result := x <<< n
      resultFlags (x.getLsbD (64 - n)) (result.msb != x.getLsbD (64 - n)) result
  | .shr, x, n => resultFlags (x.getLsbD (n - 1)) x.msb (x >>> n)
  | .sar, x, n => resultFlags (x.getLsbD (n - 1)) false (x.sshiftRight n)

/-! ### Straight-line execution -/

namespace State

def set (s : State) (r : Reg) (value : BitVec 64) : State :=
  { s with regs := Function.update s.regs r value }

/-- The address `[rbp + disp32]`. -/
def frameAddress (s : State) (displacement : BitVec 32) : Address :=
  s.regs .rbp + displacement.signExtend 64

@[simp]
theorem set_self (s : State) (r : Reg) (value : BitVec 64) : (s.set r value).regs r = value :=
  Function.update_self ..

theorem set_of_ne (s : State) {r q : Reg} (value : BitVec 64) (h : q ≠ r) :
    (s.set r value).regs q = s.regs q := Function.update_of_ne h ..

@[simp]
theorem set_memory (s : State) (r : Reg) (value : BitVec 64) : (s.set r value).memory = s.memory :=
  rfl

end State

def setccByte (holds : Bool) : Byte := if holds then 1 else 0

/-- What a straight-line instruction does to registers, flags and memory. Control transfers do
nothing here. -/
def Instr.exec (s : State) : Instr → State
  | .alu op d r =>
      { s.set d (op.result (s.regs d) (s.regs r)) with flags := op.flags (s.regs d) (s.regs r) }
  | .addImm d i =>
      { s.set d (s.regs d + i.signExtend 64) with flags := addFlags (s.regs d) (i.signExtend 64) }
  | .subImm d i =>
      { s.set d (s.regs d - i.signExtend 64) with flags := subFlags (s.regs d) (i.signExtend 64) }
  | .addMemImm disp i =>
      let a := s.frameAddress disp
      let x := s.memory.read64 a
      { s with
        memory := s.memory.write64 a (x + i.signExtend 64)
        flags := addFlags x (i.signExtend 64) }
  | .test d r => { s with flags := logicFlags (s.regs d &&& s.regs r) }
  | .cmpMem8 disp i => { s with flags := cmp8Flags (s.memory (s.frameAddress disp)) i }
  | .mov d r => s.set d (s.regs r)
  | .movImm d i => s.set d i
  | .load d disp => s.set d (s.memory.read64 (s.frameAddress disp))
  | .loadFrom d b => s.set d (s.memory.read64 (s.regs b))
  | .store r disp => { s with memory := s.memory.write64 (s.frameAddress disp) (s.regs r) }
  | .shift op d n =>
      let amount := n.toNat % 64
      if amount = 0 then s
      else { s.set d (op.result (s.regs d) amount) with
        flags := op.flags s.flags (s.regs d) amount }
  | .setcc c disp =>
      { s with memory := s.memory.write8 (s.frameAddress disp) (setccByte (s.flags.holds c)) }
  | .push r =>
      let top := s.regs .rsp - 8
      { s.set .rsp top with memory := s.memory.write64 top (s.regs r) }
  | .pop r =>
      (s.set .rsp (s.regs .rsp + 8)).set r (s.memory.read64 (s.regs .rsp))
  | .jmp _ | .jmpRel _ | .jcc _ _ | .ret | .ud2 => s

/-- Straight-line execution of a list of instructions. -/
def execAll (s : State) (is : List Instr) : State := is.foldl Instr.exec s

@[simp]
theorem execAll_nil (s : State) : execAll s [] = s := rfl

@[simp]
theorem execAll_cons (s : State) (i : Instr) (is : List Instr) :
    execAll s (i :: is) = execAll (i.exec s) is := rfl

@[simp]
theorem execAll_append (s : State) (is js : List Instr) :
    execAll s (is ++ js) = execAll (execAll s is) js := List.foldl_append ..

/-- Execution does not look at the instruction pointer. -/
theorem exec_rip (s : State) (i : Instr) (rip : Nat) :
    i.exec { s with rip := rip } = { i.exec s with rip := rip } := by
  cases i with
  | shift op d n => simp only [Instr.exec, State.set]; split <;> rfl
  | _ => rfl

theorem execAll_rip (s : State) (is : List Instr) (rip : Nat) :
    execAll { s with rip := rip } is = { execAll s is with rip := rip } := by
  induction is generalizing s with
  | nil => rfl
  | cons i is ih => rw [execAll_cons, exec_rip, ih, execAll_cons]

@[simp]
theorem exec_rip_eq (s : State) (i : Instr) : (i.exec s).rip = s.rip := by
  cases i with
  | shift op d n => simp only [Instr.exec, State.set]; split <;> rfl
  | _ => rfl

end Machine.X86
