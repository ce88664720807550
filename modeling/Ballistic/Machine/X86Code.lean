import Ballistic.Machine.X86

/-!
# Machine code of the x86-64 subset

A reference decoder from bytes to instructions, and execution of the bytes in a code buffer. The
code buffer is apart from data memory: executing code never changes it. Positions in the buffer are
natural numbers, and a run stops at the first `ret` it reaches.

`CodeAt` lists the instructions whose encodings fill an interval of the buffer. It only looks at
the bytes of that interval, so code stays in place when bytes outside it are written, and
`CodeAt.append` splits a run along the list of instructions.
-/

namespace Machine.X86

/-! ### Decoding -/

/-- A little-endian 32-bit immediate. -/
def word32 (b0 b1 b2 b3 : Byte) : BitVec 32 := b3 ++ b2 ++ b1 ++ b0

def word64 (b0 b1 b2 b3 b4 b5 b6 b7 : Byte) : BitVec 64 :=
  b7 ++ b6 ++ b5 ++ b4 ++ b3 ++ b2 ++ b1 ++ b0

/-- The register named by a three-bit field and a `REX` extension bit. -/
def regOf (extension : Bool) (field : BitVec 3) : Option Reg :=
  Reg.ofNumber (field.toNat + if extension then 8 else 0)

def rexW (rex : Byte) : Bool := rex.getLsbD 3

def rexR (rex : Byte) : Bool := rex.getLsbD 2

def rexX (rex : Byte) : Bool := rex.getLsbD 1

def rexB (rex : Byte) : Bool := rex.getLsbD 0

/-- The `reg` operand of a `ModRM` byte. -/
def regOperand (rex modrm : Byte) : Option Reg := regOf (rexR rex) (modrm.extractLsb' 3 3)

/-- The register `rm` operand of a `ModRM` byte; none if it names memory. -/
def rmOperand (rex modrm : Byte) : Option Reg :=
  if modrm.extractLsb' 6 2 = 3 then regOf (rexB rex) (modrm.extractLsb' 0 3) else none

/-- Whether the `rm` operand is `[rbp + disp32]`. -/
def isFrameOperand (rex modrm : Byte) : Bool :=
  modrm.extractLsb' 6 2 == 2 && modrm.extractLsb' 0 3 == 5 && !rexB rex

def AluOp.ofOpcode (opcode : Byte) : Option AluOp :=
  if opcode = 0x03 then some .add
  else if opcode = 0x0B then some .or
  else if opcode = 0x23 then some .and
  else if opcode = 0x2B then some .sub
  else if opcode = 0x33 then some .xor
  else none

def ShiftOp.ofExtension (extension : BitVec 3) : Option ShiftOp :=
  if extension = 1 then some .ror
  else if extension = 4 then some .shl
  else if extension = 5 then some .shr
  else if extension = 7 then some .sar
  else none

/-- Group 1 arithmetic with an immediate already extended to 32 bits. -/
def decodeImmediate (rex modrm : Byte) (immediate : BitVec 32) : Option Instr := do
  let register ← rmOperand rex modrm
  if modrm.extractLsb' 3 3 = 0 then some (.addImm register immediate)
  else if modrm.extractLsb' 3 3 = 5 then some (.subImm register immediate)
  else none

/-- `mov r64, r/m64`. The memory forms are `[rbp + disp32]` and a base register without
displacement. -/
def decodeLoad (rex : Byte) : List Byte → Option (Instr × Nat)
  | modrm :: rest => do
      let destination ← regOperand rex modrm
      if modrm.extractLsb' 6 2 = 3 then
        let source ← rmOperand rex modrm
        some (.mov destination source, 2)
      else if isFrameOperand rex modrm then
        match rest with
        | d0 :: d1 :: d2 :: d3 :: _ => some (.load destination (word32 d0 d1 d2 d3), 6)
        | _ => none
      else
        let base ← regOf (rexB rex) (modrm.extractLsb' 0 3)
        if modrm.extractLsb' 6 2 = 0 then
          if modrm.extractLsb' 0 3 = 4 then
            match rest with
            | sib :: _ =>
                if sib = 0x24 ∧ rexX rex = false then some (.loadFrom destination base, 3) else none
            | _ => none
          else if modrm.extractLsb' 0 3 = 5 then none
          else some (.loadFrom destination base, 2)
        else if modrm.extractLsb' 6 2 = 1 ∧ modrm.extractLsb' 0 3 = 5 then
          match rest with
          | d :: _ => if d = 0 then some (.loadFrom destination base, 3) else none
          | _ => none
        else none
  | _ => none

/-- Opcodes `0F xx`. -/
def decodeTwoByte (rex : Byte) : List Byte → Option (Instr × Nat)
  | opcode :: rest =>
      if opcode = 0x0B then some (.ud2, 2)
      else if opcode.extractLsb' 4 4 = 8 then
        match rest with
        | o0 :: o1 :: o2 :: o3 :: _ => do
            let condition ← Condition.ofNumber (opcode.extractLsb' 0 4).toNat
            some (.jcc condition (word32 o0 o1 o2 o3), 6)
        | _ => none
      else if opcode.extractLsb' 4 4 = 9 then
        match rest with
        | modrm :: d0 :: d1 :: d2 :: d3 :: _ => do
            let condition ← Condition.ofNumber (opcode.extractLsb' 0 4).toNat
            if isFrameOperand rex modrm then some (.setcc condition (word32 d0 d1 d2 d3), 7)
            else none
        | _ => none
      else none
  | _ => none

/-- The instruction after the prefixes, with its length. -/
def decodeOpcode (rex : Byte) : List Byte → Option (Instr × Nat)
  | [] => none
  | opcode :: rest =>
      if opcode = 0x0F then decodeTwoByte rex rest
      else if opcode = 0xC3 then some (.ret, 1)
      else if opcode.extractLsb' 3 5 = 0x0A then do
        let register ← regOf (rexB rex) (opcode.extractLsb' 0 3)
        some (.push register, 1)
      else if opcode.extractLsb' 3 5 = 0x0B then do
        let register ← regOf (rexB rex) (opcode.extractLsb' 0 3)
        some (.pop register, 1)
      else if opcode.extractLsb' 3 5 = 0x17 then do
        let register ← regOf (rexB rex) (opcode.extractLsb' 0 3)
        if rexW rex then
          match rest with
          | i0 :: i1 :: i2 :: i3 :: i4 :: i5 :: i6 :: i7 :: _ =>
              some (.movImm register (word64 i0 i1 i2 i3 i4 i5 i6 i7), 9)
          | _ => none
        else
          match rest with
          | i0 :: i1 :: i2 :: i3 :: _ =>
              some (.movImm register ((word32 i0 i1 i2 i3).setWidth 64), 5)
          | _ => none
      else if opcode = 0xE9 then
        match rest with
        | o0 :: o1 :: o2 :: o3 :: _ => some (.jmpRel (word32 o0 o1 o2 o3), 5)
        | _ => none
      else if opcode = 0xFF then
        match rest with
        | modrm :: _ => do
            let target ← rmOperand rex modrm
            if modrm.extractLsb' 3 3 = 4 then some (.jmp target, 2) else none
        | _ => none
      else if opcode = 0x80 then
        match rest with
        | modrm :: d0 :: d1 :: d2 :: d3 :: i :: _ =>
            if isFrameOperand rex modrm ∧ modrm.extractLsb' 3 3 = 7 then
              some (.cmpMem8 (word32 d0 d1 d2 d3) i, 7)
            else none
        | _ => none
      else if !rexW rex then none
      else if opcode = 0x8B then decodeLoad rex rest
      else if opcode = 0x89 then
        match rest with
        | modrm :: d0 :: d1 :: d2 :: d3 :: _ => do
            let source ← regOperand rex modrm
            if isFrameOperand rex modrm then some (.store source (word32 d0 d1 d2 d3), 6) else none
        | _ => none
      else if opcode = 0x85 then
        match rest with
        | modrm :: _ => do
            let source ← regOperand rex modrm
            let destination ← rmOperand rex modrm
            some (.test destination source, 2)
        | _ => none
      else if opcode = 0xC1 then
        match rest with
        | modrm :: i :: _ => do
            let destination ← rmOperand rex modrm
            let op ← ShiftOp.ofExtension (modrm.extractLsb' 3 3)
            some (.shift op destination i, 3)
        | _ => none
      else if opcode = 0x81 then
        match rest with
        | modrm :: i0 :: i1 :: i2 :: i3 :: more =>
            if isFrameOperand rex modrm then
              match more with
              | j0 :: j1 :: j2 :: j3 :: _ =>
                  if modrm.extractLsb' 3 3 = 0 then
                    some (.addMemImm (word32 i0 i1 i2 i3) (word32 j0 j1 j2 j3), 10)
                  else none
              | _ => none
            else (decodeImmediate rex modrm (word32 i0 i1 i2 i3)).map fun i => (i, 6)
        | _ => none
      else if opcode = 0x83 then
        match rest with
        | modrm :: more =>
            if isFrameOperand rex modrm then
              match more with
              | d0 :: d1 :: d2 :: d3 :: i :: _ =>
                  if modrm.extractLsb' 3 3 = 0 then
                    some (.addMemImm (word32 d0 d1 d2 d3) (i.signExtend 32), 7)
                  else none
              | _ => none
            else
              match more with
              | i :: _ => (decodeImmediate rex modrm (i.signExtend 32)).map fun i => (i, 3)
              | _ => none
        | _ => none
      else
        match rest with
        | modrm :: _ => do
            let op ← AluOp.ofOpcode opcode
            let destination ← regOperand rex modrm
            let source ← rmOperand rex modrm
            some (.alu op destination source, 2)
        | _ => none

theorem decodeOpcode_load {p : Byte} (hwide : rexW p = true) (rest : List Byte) :
    decodeOpcode p (0x8B :: rest) = decodeLoad p rest := by
  simp only [decodeOpcode, hwide]
  rfl

/-- The instruction at the head of a byte sequence and its length in bytes. -/
def decode : List Byte → Option (Instr × Nat)
  | [] => none
  | b :: rest =>
      if b.extractLsb' 4 4 = 4 then (decodeOpcode b rest).map fun p => (p.1, p.2 + 1)
      else decodeOpcode 0x40 (b :: rest)

/-- `bytes` is an encoding of `i`: whatever follows, the decoder finds `i` and nothing more. -/
def Encodes (i : Instr) (bytes : List Byte) : Prop :=
  bytes.length ≤ 15 ∧ ∀ rest, decode (bytes ++ rest) = some (i, bytes.length)

/-! ### Code in a buffer -/

/-- The bytes the processor looks at to decode the instruction at `rip`. -/
def fetch (code : Nat → Byte) (rip : Nat) : List Byte := (List.range 15).map fun k => code (rip + k)

/-- The buffer holds `bytes` from position `start` on. -/
def BytesAt (code : Nat → Byte) (start : Nat) (bytes : List Byte) : Prop :=
  ∀ k (h : k < bytes.length), code (start + k) = bytes.get ⟨k, h⟩

/-- The interval from `start` to `stop` holds encodings of the instructions `is`, in order. -/
def CodeAt (code : Nat → Byte) (start : Nat) : List Instr → Nat → Prop
  | [], stop => start = stop
  | i :: is, stop =>
      ∃ bytes, Encodes i bytes ∧ BytesAt code start bytes ∧ CodeAt code (start + bytes.length) is stop

/-- A position moved by a signed 32-bit offset. -/
def jumpTarget (next : Nat) (offset : BitVec 32) : Nat := ((next : Int) + offset.toInt).toNat

/-- One instruction: `none` where the machine does not continue inside the code (`ret`, `ud2`, an
indirect jump, or bytes outside the subset). -/
def step (code : Nat → Byte) (s : State) : Option State :=
  match decode (fetch code s.rip) with
  | none => none
  | some (i, length) =>
      match i with
      | .ret | .ud2 | .jmp _ => none
      | .jmpRel offset => some { s with rip := jumpTarget (s.rip + length) offset }
      | .jcc condition offset =>
          if s.flags.holds condition then some { s with rip := jumpTarget (s.rip + length) offset }
          else some { s with rip := s.rip + length }
      | i => some { i.exec s with rip := s.rip + length }

/-- Whether the next instruction is a `ret`. -/
def atRet (code : Nat → Byte) (s : State) : Bool :=
  match decode (fetch code s.rip) with
  | some (.ret, _) => true
  | _ => false

/-- Execute until the first `ret`; the result is the state in which that `ret` is reached. -/
def runToRet (code : Nat → Byte) : Nat → State → Option State
  | 0, _ => none
  | fuel + 1, s => if atRet code s then some s else (step code s).bind (runToRet code fuel)

/-- One step of a control path: as `step`, but a conditional jump may go either way. -/
def controlSteps (code : Nat → Byte) (s : State) : List State :=
  match decode (fetch code s.rip) with
  | some (.jcc _ offset, length) =>
      [{ s with rip := jumpTarget (s.rip + length) offset }, { s with rip := s.rip + length }]
  | _ => (step code s).toList

/-- `t` is reached from `s` along a control path on which no `ret` is executed. -/
inductive ControlPath (code : Nat → Byte) : State → State → Prop
  | refl (s : State) : ControlPath code s s
  | step {s t u : State} (hnext : t ∈ controlSteps code s) (hpath : ControlPath code t u) :
      ControlPath code s u

/-! ### Lemmas about code in a buffer -/

theorem BytesAt.congr {code code' : Nat → Byte} {start : Nat} {bytes : List Byte}
    (h : BytesAt code start bytes)
    (hsame : ∀ k, start ≤ k → k < start + bytes.length → code' k = code k) :
    BytesAt code' start bytes := by
  intro k hk
  rw [hsame (start + k) (by omega) (by omega)]
  exact h k hk

theorem Encodes.length_pos {i : Instr} {bytes : List Byte} (h : Encodes i bytes) :
    0 < bytes.length := by
  rw [List.length_pos_iff]
  intro hnil
  have hdecode := h.2 []
  rw [hnil] at hdecode
  cases hdecode

theorem CodeAt.length_le {code : Nat → Byte} {start stop : Nat} {is : List Instr}
    (h : CodeAt code start is stop) : start + is.length ≤ stop := by
  induction is generalizing start with
  | nil => exact Nat.le_of_eq h
  | cons i is ih =>
      obtain ⟨bytes, hencodes, -, hrest⟩ := h
      have hle := ih hrest
      have hpos := hencodes.length_pos
      rw [List.length_cons]
      omega

theorem CodeAt.le {code : Nat → Byte} {start stop : Nat} {is : List Instr}
    (h : CodeAt code start is stop) : start ≤ stop :=
  Nat.le_of_add_right_le h.length_le

/-- Code depends on the bytes of its own interval only. -/
theorem CodeAt.congr {code code' : Nat → Byte} {start stop : Nat} {is : List Instr}
    (h : CodeAt code start is stop) (hsame : ∀ k, start ≤ k → k < stop → code' k = code k) :
    CodeAt code' start is stop := by
  induction is generalizing start with
  | nil => exact h
  | cons i is ih =>
      obtain ⟨bytes, hencodes, hbytes, hrest⟩ := h
      have hle := hrest.le
      refine ⟨bytes, hencodes, hbytes.congr fun k hlo hhi => hsame k hlo (by omega), ?_⟩
      exact ih hrest fun k hlo hhi => hsame k (by omega) hhi

theorem CodeAt.append {code : Nat → Byte} {start middle stop : Nat} {is js : List Instr}
    (his : CodeAt code start is middle) (hjs : CodeAt code middle js stop) :
    CodeAt code start (is ++ js) stop := by
  induction is generalizing start with
  | nil =>
      obtain rfl : start = middle := his
      exact hjs
  | cons i is ih =>
      obtain ⟨bytes, hencodes, hbytes, hrest⟩ := his
      exact ⟨bytes, hencodes, hbytes, ih hrest⟩

theorem CodeAt.split {code : Nat → Byte} {start stop : Nat} {is js : List Instr}
    (h : CodeAt code start (is ++ js) stop) :
    ∃ middle stop', CodeAt code start is middle ∧ CodeAt code middle js stop' := by
  induction is generalizing start with
  | nil => exact ⟨start, stop, rfl, h⟩
  | cons i is ih =>
      obtain ⟨bytes, hencodes, hbytes, hrest⟩ := h
      obtain ⟨middle, stop', his, hjs⟩ := ih hrest
      exact ⟨middle, stop', ⟨bytes, hencodes, hbytes, his⟩, hjs⟩

theorem decode_fetch {code : Nat → Byte} {start : Nat} {i : Instr} {bytes : List Byte}
    (hencodes : Encodes i bytes) (hbytes : BytesAt code start bytes) :
    decode (fetch code start) = some (i, bytes.length) := by
  have hsplit : fetch code start = bytes ++ (fetch code start).drop bytes.length := by
    refine List.ext_getElem ?_ fun k hk hk' => ?_
    · have hlength := hencodes.1
      simp [fetch]
      omega
    · by_cases hlt : k < bytes.length
      · rw [List.getElem_append_left hlt]
        simpa [fetch] using hbytes k hlt
      · rw [List.getElem_append_right (by omega), List.getElem_drop]
        congr 1
        omega
  rw [hsplit]
  exact hencodes.2 _

/-- A straight-line instruction executes and moves to the instruction after it. -/
theorem step_straight {code : Nat → Byte} {s : State} {i : Instr} {bytes : List Byte}
    (hencodes : Encodes i bytes) (hbytes : BytesAt code s.rip bytes) (hstraight : i.straight) :
    step code s = some { i.exec s with rip := s.rip + bytes.length } := by
  simp only [step, decode_fetch hencodes hbytes]
  cases i with
  | ret | ud2 | jmp | jmpRel | jcc => exact nomatch hstraight
  | _ => rfl

theorem atRet_straight {code : Nat → Byte} {s : State} {i : Instr} {bytes : List Byte}
    (hencodes : Encodes i bytes) (hbytes : BytesAt code s.rip bytes) (hne : i ≠ .ret) :
    atRet code s = false := by
  simp only [atRet, decode_fetch hencodes hbytes]
  cases i with
  | ret => exact absurd rfl hne
  | _ => rfl

/-- A run through straight-line code: as many steps as instructions, then the rest of the run. -/
theorem runToRet_straight {code : Nat → Byte} {start stop : Nat} {is : List Instr} {s : State}
    (hcode : CodeAt code start is stop) (hstraight : ∀ i ∈ is, i.straight) (hrip : s.rip = start)
    (fuel : Nat) :
    runToRet code (is.length + fuel) s =
      runToRet code fuel { execAll s is with rip := stop } := by
  induction is generalizing start s with
  | nil =>
      obtain rfl : start = stop := hcode
      subst hrip
      simp
  | cons i is ih =>
      obtain ⟨bytes, hencodes, hbytes, hrest⟩ := hcode
      subst hrip
      have hi : i.straight := hstraight i (by simp)
      have hne : i ≠ .ret := by
        rintro rfl
        exact nomatch hi
      have hfuel : (i :: is).length + fuel = (is.length + fuel) + 1 := by
        simp only [List.length_cons]
        omega
      rw [hfuel, runToRet, atRet_straight hencodes hbytes hne, step_straight hencodes hbytes hi]
      simp only [Bool.false_eq_true, if_false, Option.bind_some]
      rw [ih hrest (fun j hj => hstraight j (by simp [hj])) rfl, execAll_cons, execAll_rip]

theorem runToRet_atRet {code : Nat → Byte} {stop : Nat} {s : State}
    (hcode : CodeAt code s.rip [.ret] stop) (fuel : Nat) : runToRet code (fuel + 1) s = some s := by
  obtain ⟨bytes, hencodes, hbytes, -⟩ := hcode
  rw [runToRet, atRet, decode_fetch hencodes hbytes]
  rfl

theorem runToRet_jcc {code : Nat → Byte} {next : Nat} {s : State} {condition : Condition}
    {offset : BitVec 32} (hcode : CodeAt code s.rip [.jcc condition offset] next) (fuel : Nat) :
    runToRet code (fuel + 1) s = runToRet code fuel
      { s with rip := if s.flags.holds condition then jumpTarget next offset else next } := by
  obtain ⟨bytes, hencodes, hbytes, hnext⟩ := hcode
  obtain rfl : s.rip + bytes.length = next := hnext
  rw [runToRet, atRet_straight hencodes hbytes nofun]
  simp only [step, decode_fetch hencodes hbytes, Bool.false_eq_true, if_false]
  split <;> rfl

theorem runToRet_unique {code : Nat → Byte} {fuel fuel' : Nat} {s u u' : State}
    (h : runToRet code fuel s = some u) (h' : runToRet code fuel' s = some u') : u = u' := by
  induction fuel generalizing fuel' s with
  | zero => cases h
  | succ fuel ih =>
      cases fuel' with
      | zero => cases h'
      | succ fuel' =>
          rw [runToRet] at h h'
          split at h
          · next hret =>
              rw [if_pos hret] at h'
              exact Option.some.inj (h.symm.trans h')
          · next hret =>
              rw [if_neg hret] at h'
              obtain ⟨t, hstep, hrun⟩ := Option.bind_eq_some_iff.mp h
              obtain ⟨t', hstep', hrun'⟩ := Option.bind_eq_some_iff.mp h'
              obtain rfl : t = t' := Option.some.inj (hstep.symm.trans hstep')
              exact ih hrun hrun'

/-! ### Control paths -/

theorem ControlPath.trans {code : Nat → Byte} {s t u : State} (hst : ControlPath code s t)
    (htu : ControlPath code t u) : ControlPath code s u := by
  induction hst with
  | refl => exact htu
  | step hnext _ ih => exact .step hnext (ih htu)

theorem controlSteps_straight {code : Nat → Byte} {s : State} {i : Instr} {bytes : List Byte}
    (hencodes : Encodes i bytes) (hbytes : BytesAt code s.rip bytes) (hstraight : i.straight) :
    controlSteps code s = [{ i.exec s with rip := s.rip + bytes.length }] := by
  simp only [controlSteps, decode_fetch hencodes hbytes, step_straight hencodes hbytes hstraight]
  cases i with
  | ret | ud2 | jmp | jmpRel | jcc => exact nomatch hstraight
  | _ => rfl

theorem controlPath_execAll {code : Nat → Byte} {start stop : Nat} {is : List Instr} {s : State}
    (hcode : CodeAt code start is stop) (hstraight : ∀ i ∈ is, i.straight) (hrip : s.rip = start) :
    ControlPath code s { execAll s is with rip := stop } := by
  induction is generalizing start s with
  | nil =>
      obtain rfl : start = stop := hcode
      subst hrip
      exact .refl s
  | cons i is ih =>
      obtain ⟨bytes, hencodes, hbytes, hrest⟩ := hcode
      subst hrip
      have hhead := controlSteps_straight hencodes hbytes (hstraight i (by simp))
      have hpath := ih hrest (fun j hj => hstraight j (by simp [hj]))
        (s := { i.exec s with rip := s.rip + bytes.length }) rfl
      rw [execAll_rip] at hpath
      exact .step (by rw [hhead]; exact List.mem_singleton_self _) hpath

/-- Every control path to a `ret` goes through straight-line code to its end. -/
theorem ControlPath.straight {code : Nat → Byte} {start stop : Nat} {is : List Instr} {s u : State}
    (hpath : ControlPath code s u) (hret : atRet code u = true) (hcode : CodeAt code start is stop)
    (hstraight : ∀ i ∈ is, i.straight) (hrip : s.rip = start) :
    ControlPath code { execAll s is with rip := stop } u := by
  induction is generalizing start s with
  | nil =>
      obtain rfl : start = stop := hcode
      subst hrip
      exact hpath
  | cons i is ih =>
      obtain ⟨bytes, hencodes, hbytes, hrest⟩ := hcode
      subst hrip
      have hi := hstraight i (by simp)
      cases hpath with
      | refl =>
          rw [atRet_straight hencodes hbytes (by rintro rfl; exact nomatch hi)] at hret
          cases hret
      | step hnext hpath =>
          rw [controlSteps_straight hencodes hbytes hi, List.mem_singleton] at hnext
          subst hnext
          have hrest' := ih hpath hrest (fun j hj => hstraight j (by simp [hj])) rfl
          rw [execAll_rip] at hrest'
          exact hrest'

theorem ControlPath.eq_of_ret {code : Nat → Byte} {stop : Nat} {s u : State}
    (hpath : ControlPath code s u) (hcode : CodeAt code s.rip [.ret] stop) : u = s := by
  obtain ⟨bytes, hencodes, hbytes, -⟩ := hcode
  cases hpath with
  | refl => rfl
  | step hnext =>
      simp only [controlSteps, X86.step, decode_fetch hencodes hbytes] at hnext
      exact absurd hnext (by simp)

theorem atRet_of_codeAt {code : Nat → Byte} {stop : Nat} {s : State}
    (hcode : CodeAt code s.rip [.ret] stop) : atRet code s = true := by
  obtain ⟨bytes, hencodes, hbytes, -⟩ := hcode
  rw [atRet, decode_fetch hencodes hbytes]

theorem controlPath_jcc {code : Nat → Byte} {stop : Nat} {s : State} {condition : Condition}
    {offset : BitVec 32} (hcode : CodeAt code s.rip [.jcc condition offset] stop) :
    ControlPath code s { s with rip := jumpTarget stop offset } := by
  obtain ⟨bytes, hencodes, hbytes, hstop⟩ := hcode
  obtain rfl : s.rip + bytes.length = stop := hstop
  refine .step ?_ (.refl _)
  rw [controlSteps, decode_fetch hencodes hbytes]
  exact List.mem_cons_self

theorem mem_controlSteps {code : Nat → Byte} {s t : State} (h : step code s = some t) :
    t ∈ controlSteps code s := by
  unfold controlSteps
  split
  · next condition offset length hdecode =>
      simp only [step, hdecode] at h
      split at h
      · cases h
        exact List.mem_cons_self
      · cases h
        exact List.mem_cons_of_mem _ List.mem_cons_self
  · simp [h]

theorem controlPath_of_runToRet {code : Nat → Byte} {fuel : Nat} {s u : State}
    (h : runToRet code fuel s = some u) : ControlPath code s u ∧ atRet code u = true := by
  induction fuel generalizing s with
  | zero => cases h
  | succ fuel ih =>
      rw [runToRet] at h
      split at h
      · next hret =>
          cases h
          exact ⟨.refl u, hret⟩
      · obtain ⟨t, hstep, hrun⟩ := Option.bind_eq_some_iff.mp h
        obtain ⟨hpath, hret⟩ := ih hrun
        exact ⟨.step (mem_controlSteps hstep) hpath, hret⟩

end Machine.X86
