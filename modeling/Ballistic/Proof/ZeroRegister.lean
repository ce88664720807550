import Ballistic.Proof.RegisterForms
import Ballistic.Proof.Simulation

/-!
# The zero register

By the index 31 an instruction means the stack pointer or the zero register, and the compiler has one
place for both. Additions and subtractions of immediates take it for the stack pointer. Wide moves,
conjunctions, and additions and subtractions of registers should find zero there and leave it alone;
what they find is what the stack pointer happens to be, and what they leave becomes the stack pointer.
-/

namespace Ballistic

open Machine Machine.X86

/-! ### Instructions -/

/-- Instructions in which the index 31 may stand for either register. -/
def isSharedForm : A64.Instr → Bool
  | .addSubImm .. => true
  | .moveWide sf opc hw _ _ => opc != 1 && (sf || !hw.getLsbD 1)
  | .logicalShifted _ opc _ n _ _ _ _ => opc == 0 && !n
  | .addSubShifted .. => true
  | _ => false

/-- In the host state `host`, the code of an instruction finds zero in every operand with index 31 that
means the zero register. -/
def ReadsZero (r : RegisterAllocator) (host : State) : A64.Instr → Prop
  | .logicalShifted _ _ _ _ rm _ rn rd => ∀ n m d, r.allocate rn false = some n →
      n.allocator.allocate rm false = some m → m.allocator.allocate rd true = some d →
      let loaded := execAll host (instrsOf (n.macros ++ m.macros ++ d.macros))
      -- With the destination 31 the code clears it first, and then reads the second operand alone.
      (rd ≠ 31 → rn = 31 → loaded.regs n.register = 0) ∧
        (rm = 31 → (if rd = 31 then loaded.set d.register 0 else loaded).regs m.register = 0)
  | .addSubShifted _ _ setFlags _ rm _ rn rd => ∀ n m d, r.allocate rn false = some n →
      n.allocator.allocate rm false = some m →
      m.allocator.planDestination rd n.register (setFlags && (rd : Nat) == 31) = some d →
      let loaded := execAll host (instrsOf (n.macros ++ m.macros))
      -- The first operand is read when it is copied, the second one by the arithmetic instruction.
      (rn = 31 → loaded.regs n.register = 0) ∧
        (rm = 31 → (execAll loaded (instrsOf d.macros)).regs m.register = 0)
  | _ => True

/-- The destination is the zero register. -/
def writesZero : A64.Instr → Bool
  | .moveWide _ _ _ _ rd => rd == 31
  | .logicalShifted _ _ _ _ _ _ _ rd => rd == 31
  | .addSubShifted _ _ _ _ _ _ _ rd => rd == 31
  | _ => false

/-- The stack pointer behind an instruction if only additions and subtractions of immediates change it:
it was `sp` before, and the other registers are those of `g`. -/
def stackPointerAfter (g : A64.State) (sp : BitVec 64) : A64.Instr → BitVec 64
  | .addSubImm sf op setFlags sh imm12 rn rd =>
      if rd = 31 ∧ setFlags = false then
        (A64.addSubSized sf op (if rn = 31 then sp else g.x rn) (immediateOperand sh imm12)).1
      else sp
  | _ => sp

/-- For the guest `g` the instruction does no harm: whatever it finds in place of a zero register is
zero, and whatever it leaves there was there before. A 32-bit sum in the stack pointer has nothing to
truncate. -/
def KeepsZero (r : RegisterAllocator) (g : A64.State) : A64.Instr → Prop
  | .addSubImm sf op setFlags sh imm12 rn rd => rd = 31 → setFlags = false →
      (A64.addSubSized sf op (g.x rn) (immediateOperand sh imm12)).1 =
        (A64.addSub op (g.x rn) (immediateOperand sh imm12)).1
  | .moveWide sf opc hw imm16 rd => rd = 31 → A64.moveWideValue sf opc hw imm16 (g.x 31) = g.x 31
  | .logicalShifted _ _ _ _ rm _ rn rd => ∀ n m, r.allocate rn false = some n →
      n.allocator.allocate rm false = some m →
      (rd = 31 ∨ rm = 31 → g.x 31 = 0) ∧ (rd ≠ 31 → rn = 31 → g.x (firstSource rn rm n m) = 0)
  | .addSubShifted _ op setFlags _ rm _ rn rd => ∀ n m d, r.allocate rn false = some n →
      n.allocator.allocate rm false = some m →
      m.allocator.planDestination rd n.register (setFlags && (rd : Nat) == 31) = some d →
      (rn = 31 → g.x (firstSource rn rm n m) = 0) ∧
        (rm = 31 → g.x (secondSource rn rm n m d) = 0) ∧
        (rd = 31 → setFlags = false →
          (A64.addSub op (g.x (firstSource rn rm n m)) (g.x (secondSource rn rm n m d))).1 = g.x 31)
  | _ => True

section Steps

variable {table : DecoderTable} {w : BitVec 32} {r : RegisterAllocator} {i : A64.Instr}
  {base : Address} {s : State} {g : A64.State}

theorem isSharedForm_goesOn (hgenerated : table.Generated) : GoesOn table isSharedForm := by
  intro w i hclass hdecode
  cases i with
  | addSubImm sf op setFlags sh imm12 rn rd =>
      refine ⟨_, (decode_addSubImm hgenerated hdecode).1, outcome_addSubImm sf op setFlags, ?_⟩
      exact fun flags => isTrapped_addSubImm flags sf op setFlags
  | moveWide sf opc hw imm16 rd =>
      simp only [isSharedForm, Bool.and_eq_true, bne_iff_ne] at hclass
      refine ⟨_, (decode_moveWide hgenerated hdecode hclass.1 hclass.2).1, ?_, ?_⟩
      · exact outcome_moveWide sf hclass.1
      · exact fun flags => isTrapped_moveWide flags sf opc
  | logicalShifted sf opc shift n rm imm6 rn rd =>
      simp only [isSharedForm, Bool.and_eq_true, beq_iff_eq, Bool.not_eq_true'] at hclass
      obtain ⟨rfl, rfl⟩ := hclass
      exact ⟨_, (decode_andShifted hgenerated hdecode).1, rfl, fun flags => isTrapped_andShifted flags sf⟩
  | addSubShifted sf op setFlags shift rm imm6 rn rd =>
      refine ⟨_, (decode_addSubShifted hgenerated hdecode).1, outcome_addSubShifted sf op setFlags, ?_⟩
      exact fun flags => isTrapped_addSubShifted flags sf op setFlags
  | _ => exact absurd hclass (by simp [isSharedForm])

/-- What an instruction does with the index 31, `g'` being what it leaves of `g`. -/
structure KeepsLaw (r : RegisterAllocator) (host : State) (g g' : A64.State) (i : A64.Instr) : Prop where
  reads : ReadsZero r host i
  discards : writesZero i = true → g'.x 31 = g.x 31
  stackPointer : g'.x 31 = stackPointerAfter g (g.x 31) i

theorem setX_x_31 (g : A64.State) (rd : A64.Register) (value : BitVec 64) :
    (g.setX rd value).x 31 = if rd = 31 then value else g.x 31 := by
  split
  · next hrd => rw [hrd, A64.State.setX_self]
  · next hrd => rw [g.setX_of_ne value (Ne.symm hrd)]

theorem writeSum_x_31 (g : A64.State) (setFlags : Bool) (rd : A64.Register)
    (result : BitVec 64 × A64.Nzcv) :
    (g.writeSum setFlags rd result).x 31 =
      if rd = 31 ∧ setFlags = false then result.1 else g.x 31 := by
  cases setFlags with
  | false =>
      simp only [A64.State.writeSum, Bool.false_eq_true, if_false, and_true]
      exact setX_x_31 g rd result.1
  | true =>
      simp only [A64.State.writeSum, A64.State.setGeneral, if_true, Bool.true_eq_false, and_false,
        if_false, A64.State.setNzcv_x]
      split
      · rfl
      · next hrd => rw [g.setX_of_ne _ (Ne.symm hrd)]

theorem keepsLaw_addSubImm {sf op setFlags sh : Bool} {imm12 : BitVec 12} {rn rd : A64.Register} :
    KeepsLaw r s g (g.writeSum setFlags rd (A64.addSub op (g.x rn) (immediateOperand sh imm12)))
        (.addSubImm sf op setFlags sh imm12 rn rd) ↔
      KeepsZero r g (.addSubImm sf op setFlags sh imm12 rn rd) := by
  have hfirst : (if rn = 31 then g.x 31 else g.x rn) = g.x rn := by
    split
    · next hrn => rw [hrn]
    · rfl
  have hleft := writeSum_x_31 g setFlags rd (A64.addSub op (g.x rn) (immediateOperand sh imm12))
  constructor
  · intro hlaw hrd hflags
    have hpointer := hlaw.stackPointer
    rw [hleft, if_pos ⟨hrd, hflags⟩] at hpointer
    simp only [stackPointerAfter, hrd, hflags, and_self, if_true, hfirst] at hpointer
    exact hpointer.symm
  · intro hkeeps
    refine ⟨trivial, nofun, ?_⟩
    rw [hleft]
    simp only [stackPointerAfter, hfirst]
    split
    · next hpointer => exact (hkeeps hpointer.1 hpointer.2).symm
    · rfl

theorem keepsLaw_moveWide {sf : Bool} {opc hw : BitVec 2} {imm16 : BitVec 16} {rd : A64.Register} :
    KeepsLaw r s g (g.setX rd (A64.moveWideValue sf opc hw imm16 (g.x rd)))
        (.moveWide sf opc hw imm16 rd) ↔ KeepsZero r g (.moveWide sf opc hw imm16 rd) := by
  have hleft := setX_x_31 g rd (A64.moveWideValue sf opc hw imm16 (g.x rd))
  constructor
  · rintro hlaw rfl
    have hpointer := hlaw.stackPointer
    rwa [hleft, if_pos rfl] at hpointer
  · intro hkeeps
    have hsame : (g.setX rd (A64.moveWideValue sf opc hw imm16 (g.x rd))).x 31 = g.x 31 := by
      rw [hleft]
      split
      · next hrd =>
          subst hrd
          exact hkeeps rfl
      · rfl
    exact ⟨trivial, fun _ => hsame, hsame⟩

theorem keepsLaw_and (hwf : r.Wf) (h : Holds base r s g ∅) {sf : Bool} {opc shift : BitVec 2}
    {n' : Bool} {imm6 : BitVec 6} {rm rn rd : A64.Register} {n m d : Allocated}
    (hn : r.allocate rn false = some n) (hm : n.allocator.allocate rm false = some m)
    (hd : m.allocator.allocate rd true = some d) :
    KeepsLaw r s g (g.setX rd (if rd = 31 then 0 else g.x (firstSource rn rm n m) &&& g.x rm))
        (.logicalShifted sf opc shift n' rm imm6 rn rd) ↔
      KeepsZero r g (.logicalShifted sf opc shift n' rm imm6 rn rd) := by
  obtain ⟨hwfm, hheld, hfirst, hsecond⟩ := h.loadBoth hwf hn hm
  obtain ⟨-, hregs, -⟩ := hheld.allocate hwfm hd
  have hloaded : ∀ x, (execAll s (instrsOf (n.macros ++ m.macros ++ d.macros))).regs x =
      (execAll (execAll s (instrsOf n.macros)) (instrsOf m.macros)).regs x := by
    intro x
    rw [instrsOf_append, instrsOf_append, execAll_append, execAll_append, hregs rfl]
  rw [← hloaded] at hfirst hsecond
  have hleft := setX_x_31 g rd (if rd = 31 then 0 else g.x (firstSource rn rm n m) &&& g.x rm)
  constructor
  · intro hlaw n₁ m₁ hn₁ hm₁
    cases hn.symm.trans hn₁
    cases hm.symm.trans hm₁
    obtain ⟨hreadsFirst, hreadsSecond⟩ := hlaw.reads n m d hn hm hd
    refine ⟨fun hindex => ?_, fun hrd hrn => hfirst.symm.trans (hreadsFirst hrd hrn)⟩
    by_cases hrd : rd = 31
    · have hdiscards := hlaw.discards (by simp [writesZero, hrd])
      rw [hleft, if_pos hrd, if_pos hrd] at hdiscards
      exact hdiscards.symm
    · have hrm := hindex.resolve_left hrd
      have hzero := hreadsSecond hrm
      rwa [if_neg hrd, hsecond, hrm] at hzero
  · intro hkeeps
    obtain ⟨hzero, hzeroFirst⟩ := hkeeps n m hn hm
    have hsame : (g.setX rd (if rd = 31 then 0 else g.x (firstSource rn rm n m) &&& g.x rm)).x 31 =
        g.x 31 := by
      rw [hleft]
      split
      · next hrd => exact (hzero (.inl hrd)).symm
      · rfl
    refine ⟨?_, fun _ => hsame, hsame⟩
    intro n₁ m₁ d₁ hn₁ hm₁ hd₁
    cases hn.symm.trans hn₁
    cases hm.symm.trans hm₁
    cases hd.symm.trans hd₁
    refine ⟨fun hrd hrn => hfirst.trans (hzeroFirst hrd hrn), fun hrm => ?_⟩
    have hvalue : (execAll s (instrsOf (n.macros ++ m.macros ++ d.macros))).regs m.register = 0 := by
      rw [hsecond, hrm]
      exact hzero (.inr hrm)
    split
    · by_cases hcleared : m.register = d.register
      · rw [hcleared, State.set_self]
      · rw [State.set_of_ne _ _ hcleared, hvalue]
    · exact hvalue

theorem keepsLaw_addSubShifted (hwf : r.Wf) (h : Holds base r s g ∅) {sf op setFlags : Bool}
    {shift : BitVec 2} {imm6 : BitVec 6} {rm rn rd : A64.Register} {n m d : Allocated}
    (hn : r.allocate rn false = some n) (hm : n.allocator.allocate rm false = some m)
    (hd : m.allocator.planDestination rd n.register (setFlags && (rd : Nat) == 31) = some d) :
    KeepsLaw r s g (g.writeSum setFlags rd
        (A64.addSub op (g.x (firstSource rn rm n m)) (g.x (secondSource rn rm n m d))))
        (.addSubShifted sf op setFlags shift rm imm6 rn rd) ↔
      KeepsZero r g (.addSubShifted sf op setFlags shift rm imm6 rn rd) := by
  obtain ⟨hwfm, hheld, hfirst, -⟩ := h.loadBoth hwf hn hm
  have hsecond := h.secondOperand hwf hn hm hd
  have hleft := writeSum_x_31 g setFlags rd
    (A64.addSub op (g.x (firstSource rn rm n m)) (g.x (secondSource rn rm n m d)))
  have hloaded : execAll s (instrsOf (n.macros ++ m.macros)) =
      execAll (execAll s (instrsOf n.macros)) (instrsOf m.macros) := by
    rw [instrsOf_append, execAll_append]
  rw [← hloaded] at hfirst hsecond
  constructor
  · intro hlaw n₁ m₁ d₁ hn₁ hm₁ hd₁
    cases hn.symm.trans hn₁
    cases hm.symm.trans hm₁
    cases hd.symm.trans hd₁
    obtain ⟨hreadsFirst, hreadsSecond⟩ := hlaw.reads n m d hn hm hd
    refine ⟨fun hrn => hfirst.symm.trans (hreadsFirst hrn),
      fun hrm => hsecond.symm.trans (hreadsSecond hrm), fun hrd hflags => ?_⟩
    have hdiscards := hlaw.discards (by simp [writesZero, hrd])
    rwa [hleft, if_pos ⟨hrd, hflags⟩] at hdiscards
  · intro hkeeps
    obtain ⟨hzeroFirst, hzeroSecond, hwritten⟩ := hkeeps n m d hn hm hd
    have hsame : (g.writeSum setFlags rd (A64.addSub op (g.x (firstSource rn rm n m))
        (g.x (secondSource rn rm n m d)))).x 31 = g.x 31 := by
      rw [hleft]
      split
      · next hpointer => exact hwritten hpointer.1 hpointer.2
      · rfl
    refine ⟨?_, fun _ => hsame, hsame⟩
    intro n₁ m₁ d₁ hn₁ hm₁ hd₁
    cases hn.symm.trans hn₁
    cases hm.symm.trans hm₁
    cases hd.symm.trans hd₁
    exact ⟨fun hrn => hfirst.trans (hzeroFirst hrn), fun hrm => hsecond.trans (hzeroSecond hrm)⟩

theorem step_law (hgenerated : table.Generated) (hclass : isSharedForm i = true)
    (hdecode : A64.decode w = some i) {metadata : Metadata}
    (hmetadata : balDecodeArm64 table w = some metadata) {p : Plan} (hplan : r.plan metadata w = some p)
    (hwf : r.Wf) (h : Holds base r s g ∅) :
    ∃ g', p.allocator.Wf ∧ Holds base p.allocator (execAll s (instrsOf p.macros)) g' ∅ ∧
      (KeepsLaw r s g g' i ↔ KeepsZero r g i) := by
  cases i with
  | addSubImm sf op setFlags sh imm12 rn rd =>
      rw [(decode_addSubImm hgenerated hdecode).1] at hmetadata
      cases hmetadata
      rw [plan_addSubImm hgenerated hdecode] at hplan
      obtain ⟨hwf', hnext⟩ := h.planAddSubImm hwf (immediateOperand_lt sh imm12) hplan
      exact ⟨_, hwf', hnext, keepsLaw_addSubImm⟩
  | moveWide sf opc hw imm16 rd =>
      simp only [isSharedForm, Bool.and_eq_true, bne_iff_ne] at hclass
      rw [(decode_moveWide hgenerated hdecode hclass.1 hclass.2).1] at hmetadata
      cases hmetadata
      obtain ⟨skipLoad, macros, hupdate, hisUpdate, hskip⟩ :=
        plan_moveWide (r := r) hgenerated hdecode hclass.1 hclass.2
      rw [hupdate] at hplan
      obtain ⟨hwf', hnext⟩ := h.planUpdate hwf hisUpdate hskip hplan
      exact ⟨_, hwf', hnext, keepsLaw_moveWide⟩
  | logicalShifted sf opc shift n rm imm6 rn rd =>
      simp only [isSharedForm, Bool.and_eq_true, beq_iff_eq, Bool.not_eq_true'] at hclass
      obtain ⟨rfl, rfl⟩ := hclass
      rw [(decode_andShifted hgenerated hdecode).1] at hmetadata
      cases hmetadata
      rw [plan_andShifted hgenerated hdecode] at hplan
      obtain ⟨n, m, d, hn, hm, hd, hwf', hnext⟩ := h.planAnd_sources hwf hplan
      exact ⟨_, hwf', hnext, keepsLaw_and hwf h hn hm hd⟩
  | addSubShifted sf op setFlags shift rm imm6 rn rd =>
      rw [(decode_addSubShifted hgenerated hdecode).1] at hmetadata
      cases hmetadata
      rw [plan_addSubShifted hgenerated hdecode] at hplan
      obtain ⟨n, m, d, hn, hm, hd, hwf', hnext⟩ := h.planAddSubReg_sources hwf hplan
      exact ⟨_, hwf', hnext, keepsLaw_addSubShifted hwf h hn hm hd⟩
  | _ => exact absurd hclass (by simp [isSharedForm])

end Steps

/-! ### Along a block -/

/-- The guest that the host holds, up to the program counter. -/
def heldState (base : Address) (r : RegisterAllocator) (s : State) : A64.State where
  x := fun a => match r.armToX86 a with
    | some x => s.regs x
    | none => s.memory.read64 (above base (offsetX a))
  flagN := s.memory (above base offsetFlagN)
  flagZ := s.memory (above base offsetFlagZ)
  flagC := s.memory (above base offsetFlagC)
  flagV := s.memory (above base offsetFlagV)
  pc := s.memory.read64 (above base offsetPc)

theorem Holds.heldState {base : Address} {r : RegisterAllocator} {s : State} {g : A64.State}
    (hwf : r.Wf) (h : Holds base r s g ∅) : (Ballistic.heldState base r s).SameRegisters g where
  x := by
    funext a
    cases hmap : r.armToX86 a with
    | some x =>
        simp only [Ballistic.heldState, hmap]
        exact h.mapped a (by simp) x hmap
    | none =>
        have hclean : r.dirty a = false := by
          cases hdirty : r.dirty a with
          | false => rfl
          | true =>
              obtain ⟨x, hx⟩ := hwf.dirty_mapped a hdirty
              rw [hmap] at hx
              cases hx
        simp only [Ballistic.heldState, hmap]
        exact h.memory a (by simp) hclean
  flagN := h.flagN
  flagZ := h.flagZ
  flagC := h.flagC
  flagV := h.flagV

/-- A moment between two instructions of a block: the allocator, the host that runs the block's code,
and what the stack pointer would be if additions and subtractions of immediates alone had changed it. -/
structure Moment where
  allocator : RegisterAllocator
  host : State
  stackPointer : BitVec 64

/-- The guest at a moment. -/
def Moment.guest (base : Address) (m : Moment) : A64.State := heldState base m.allocator m.host

/-- The moment behind the instruction `w`. -/
def Moment.next (table : DecoderTable) (base : Address) (w : BitVec 32) (m : Moment) : Option Moment := do
  let i ← A64.decode w
  let metadata ← balDecodeArm64 table w
  let p ← m.allocator.plan metadata w
  some
    { allocator := p.allocator
      host := execAll m.host (instrsOf p.macros)
      stackPointer := stackPointerAfter (m.guest base) m.stackPointer i }

/-- The moment behind `n` instructions of the block at `start`, when the host is `host` behind the
prologue. -/
def momentAfter (input : TranslateInput) (start base : Address) (host : State) : Nat → Option Moment
  | 0 => some ⟨.reset, host, (heldState base .reset host).x 31⟩
  | n + 1 => (momentAfter input start base host n).bind
      (Moment.next input.table base (input.memory.word (start + BitVec.ofNat 64 (4 * n))))

theorem Moment.next_some {table : DecoderTable} {base : Address} {w : BitVec 32} {m m' : Moment}
    (h : m.next table base w = some m') :
    ∃ i metadata p, A64.decode w = some i ∧ balDecodeArm64 table w = some metadata ∧
      m.allocator.plan metadata w = some p ∧ m'.allocator = p.allocator ∧
      m'.host = execAll m.host (instrsOf p.macros) ∧
      m'.stackPointer = stackPointerAfter (m.guest base) m.stackPointer i := by
  simp only [next, Option.bind_eq_bind, Option.bind_eq_some_iff, Option.some.injEq] at h
  obtain ⟨i, hdecode, metadata, hmetadata, p, hplan, rfl⟩ := h
  exact ⟨i, metadata, p, hdecode, hmetadata, hplan, rfl, rfl, rfl⟩

/-- The host of a moment holds a guest. -/
structure Moment.Sound (m : Moment) (base : Address) : Prop where
  wf : m.allocator.Wf
  holds : Holds base m.allocator m.host (m.guest base) ∅

theorem Moment.sound_of_holds {m : Moment} {base : Address} {g : A64.State} (hwf : m.allocator.Wf)
    (h : Holds base m.allocator m.host g ∅) : m.Sound base ∧ (m.guest base).SameRegisters g := by
  have hsame := h.heldState hwf
  exact ⟨⟨hwf, h.congr hsame.symm⟩, hsame⟩

/-- The guest memory holds the instructions `body` and then `last` from `start` on, and the limit
leaves room for them. -/
structure SharedBlock (input : TranslateInput) (start : Address) (body : List A64.Instr)
    (last : A64.Instr) : Prop where
  words : ∀ {k i}, (body ++ [last])[k]? = some i →
    A64.decode (input.memory.word (start + BitVec.ofNat 64 (4 * k))) = some i
  length_le : body.length + 1 ≤ input.maxInstructions
  body_shared : ∀ i ∈ body, isSharedForm i = true
  last_exit : isExit last = true

theorem isExit_x {i : A64.Instr} (h : isExit i = true) {access : A64.TagAccess} {g g' : A64.State}
    (hexec : i.exec access g = some g') : g'.x = g.x := by
  cases i with
  | ret rn =>
      cases hexec
      rfl
  | branch imm26 =>
      cases hexec
      rfl
  | _ => exact absurd h (by simp [isExit])

section Blocks

variable {input : TranslateInput} {c : Compiler} {start : Address} {t : Translation} {entry : Nat}
  {body : List A64.Instr} {last : A64.Instr} {inClass : A64.Instr → Bool} {lastMetadata : Metadata}
  {base : Address} {host : State}

theorem momentAfter_sound {g : A64.State} (hholds : Holds base .reset host g ∅) {n : Nat} {m : Moment}
    (hm : momentAfter input start base host n = some m) : m.Sound base := by
  induction n generalizing m with
  | zero =>
      cases hm
      exact (Moment.sound_of_holds RegisterAllocator.reset_wf hholds).1
  | succ n ih =>
      obtain ⟨before, hbefore, hnext⟩ := Option.bind_eq_some_iff.mp hm
      have hsound := ih hbefore
      obtain ⟨i, metadata, p, -, -, hplan, hallocator, hhost, -⟩ := Moment.next_some hnext
      obtain ⟨g', hholds'⟩ := hsound.holds.plan hsound.wf hplan
      have hwf := (RegisterAllocator.plan_safe hsound.wf hplan).wf
      rw [← hallocator] at hwf hholds'
      rw [← hhost] at hholds'
      exact (Moment.sound_of_holds hwf hholds').1

/-- The code of a sequence goes through the moments behind its instructions. -/
theorem Succeeds.momentAt (h : Succeeds input c start t entry)
    (hblock : GuestSequence input start inClass body lastMetadata) (base : Address) (host : State)
    {p : LoopPoint} {s : LoopState} (hreach : Reaches input c start p s)
    (hrunning : Running input start p s) :
    ∃ m js, momentAfter input start base host s.armInstructionCount = some m ∧
      m.allocator = s.compiler.allocator ∧ CodeUpTo c start s js ∧ m.host = execAll host js := by
  refine (h.sequenceInduction hblock (P := fun s => ∃ m js,
    momentAfter input start base host s.armInstructionCount = some m ∧
      m.allocator = s.compiler.allocator ∧ CodeUpTo c start s js ∧ m.host = execAll host js) ?_ ?_
    hreach hrunning).1
  · exact ⟨_, [], rfl, rfl, ⟨RegisterAllocator.reset_wf, .refl _, by simp⟩, rfl⟩
  · intro s s' metadata plan hbody hmoment haddress hword hdecode hplan hok hcompiler hcount
    obtain ⟨m, js, hm, hallocator, hcode, hhost⟩ := hmoment
    rw [← hallocator] at hplan
    refine ⟨⟨plan.allocator, execAll m.host (instrsOf plan.macros),
      stackPointerAfter (m.guest base) m.stackPointer body[s.armInstructionCount]⟩,
      js ++ instrsOf plan.macros, ?_, ?_, hcode.apply (p := plan) ?_ hok hcompiler, ?_⟩
    · rw [hcount, momentAfter, hm, Option.bind_some, ← haddress]
      simp only [Moment.next, hword, hdecode, hplan, Option.bind_eq_bind, Option.bind_some]
    · exact (congrArg Compiler.allocator hcompiler).symm
    · rw [hallocator] at hplan
      exact RegisterAllocator.plan_safe hcode.wf hplan
    · simp only [execAll_append, hhost]

/-- The zero register law of a block that is called in the host state `s`: at every instruction, the
index 31 reads as zero and is not written where it means the zero register, and what it holds is the
stack pointer that the additions and subtractions of immediates alone leave; this is also in the record
when the code returns. -/
structure ZeroRegisterLaw (input : TranslateInput) (start : Address) (body : List A64.Instr)
    (t : Translation) (s : State) (cpu : Address) : Prop where
  reads : ∀ {k i m}, body[k]? = some i →
    momentAfter input start cpu (execAll s prologueCode) k = some m → ReadsZero m.allocator m.host i
  discards : ∀ {k i m m'}, body[k]? = some i → writesZero i = true →
    momentAfter input start cpu (execAll s prologueCode) k = some m →
    momentAfter input start cpu (execAll s prologueCode) (k + 1) = some m' →
    (m'.guest cpu).x 31 = (m.guest cpu).x 31
  stackPointer : ∀ {k m}, k ≤ body.length →
    momentAfter input start cpu (execAll s prologueCode) k = some m →
    (m.guest cpu).x 31 = m.stackPointer
  final : ∃ fuel u m, runToRet t.compiler.assembler.buffer fuel s = some u ∧
    momentAfter input start cpu (execAll s prologueCode) body.length = some m ∧
    (cpuState u.memory cpu).x 31 = m.stackPointer

/-- No instruction of the block does harm. -/
def KeepsZeroThroughout (input : TranslateInput) (start : Address) (body : List A64.Instr) (s : State)
    (cpu : Address) : Prop :=
  ∀ {k i m}, body[k]? = some i →
    momentAfter input start cpu (execAll s prologueCode) k = some m →
    KeepsZero m.allocator (m.guest cpu) i

/-- Before the end of the block every moment has one behind it. -/
theorem momentAfter_le {n k : Nat} (hle : k ≤ n) {m : Moment}
    (hm : momentAfter input start base host n = some m) :
    ∃ m', momentAfter input start base host k = some m' := by
  induction n generalizing m with
  | zero =>
      obtain rfl := Nat.le_zero.mp hle
      exact ⟨m, hm⟩
  | succ n ih =>
      rcases Nat.of_le_succ hle with hle | rfl
      · obtain ⟨before, hbefore, -⟩ := Option.bind_eq_some_iff.mp hm
        exact ih hle hbefore
      · exact ⟨m, hm⟩

/-- One step between two moments of a block. -/
theorem SharedBlock.step (hblock : SharedBlock input start body last)
    (hgenerated : input.table.Generated) {g : A64.State} (hholds : Holds base .reset host g ∅) {k : Nat}
    {i : A64.Instr} (hi : body[k]? = some i) {m m' : Moment}
    (hm : momentAfter input start base host k = some m)
    (hm' : momentAfter input start base host (k + 1) = some m') :
    (KeepsLaw m.allocator m.host (m.guest base) (m'.guest base) i ↔
        KeepsZero m.allocator (m.guest base) i) ∧
      m'.stackPointer = stackPointerAfter (m.guest base) m.stackPointer i := by
  rw [momentAfter, hm, Option.bind_some] at hm'
  obtain ⟨j, metadata, p, hdecode, hmetadata, hplan, hallocator, hhost, hpointer⟩ :=
    Moment.next_some hm'
  have hk := (List.getElem?_eq_some_iff.mp hi).1
  have hword := hblock.words (k := k) (i := i) (by rw [List.getElem?_append_left hk, hi])
  cases hdecode.symm.trans hword
  have hsound := momentAfter_sound hholds hm
  obtain ⟨g', hwf', hleft, hlaw⟩ := step_law hgenerated (hblock.body_shared i (List.mem_of_getElem? hi))
    hword hmetadata hplan hsound.wf hsound.holds
  rw [← hallocator] at hwf' hleft
  rw [← hhost] at hleft
  have hsame := (Moment.sound_of_holds hwf' hleft).2
  refine ⟨?_, hpointer⟩
  rw [← hlaw]
  have hx := congrFun hsame.x 31
  exact ⟨fun h => ⟨h.reads, fun hwrites => hx.symm.trans (h.discards hwrites),
    hx.symm.trans h.stackPointer⟩, fun h => ⟨h.reads, fun hwrites => hx.trans (h.discards hwrites),
    hx.trans h.stackPointer⟩⟩

/-- The block comes to the moment behind its body, and its code puts that guest in the record. -/
theorem Succeeds.lastMoment (h : Succeeds input c start t entry) (hreachable : c.Reachable)
    (hgenerated : input.table.Generated) (hblock : SharedBlock input start body last) {s : State}
    {cpu : Address} (hcall : Call s cpu entry) :
    ∃ fuel u m, runToRet t.compiler.assembler.buffer fuel s = some u ∧
      momentAfter input start cpu (execAll s prologueCode) body.length = some m ∧
      (cpuState u.memory cpu).x = (m.guest cpu).x := by
  obtain ⟨sf, s0, metadata, ending, hfinal, hended⟩ := h.ended
  obtain ⟨lastMetadata, hsequence⟩ := guestSequence_exit hgenerated hblock.words hblock.length_le
    hblock.body_shared hblock.last_exit
  obtain ⟨rfl, rfl, haddress, hcount⟩ :=
    h.endsSequence (isSharedForm_goesOn hgenerated) hsequence hended
  obtain ⟨i, limit, hreach, hrunning, -⟩ := hended.before
  obtain ⟨m, js, hm, hallocator, hcode, hhost⟩ :=
    h.momentAt hsequence cpu (execAll s prologueCode) hreach hrunning
  rw [hcount] at hm
  have hholds := (momentAfter_sound hcall.holds hm).holds
  rw [hallocator, hhost] at hholds
  have hword := hblock.words (k := body.length) (i := last) (by simp)
  rw [← haddress] at hword
  obtain ⟨fuel, u, hrun, hlast⟩ := h.exitRun hreachable hgenerated hblock.last_exit hfinal hended
    hword hcode (fun _ _ => rfl) ⟨false, 0⟩ hcall (hholds.withPc s0.guestAddress) rfl
  refine ⟨fuel, u, m, hrun, hm, ?_⟩
  exact (isExit_x hblock.last_exit hlast).trans (by rfl)

/-- **The zero register law.** In a block of wide moves, conjunctions, additions and subtractions, ended
by a return or a branch, the index 31 is the zero register where it should be exactly if no instruction
finds or leaves anything else there. -/
theorem zeroRegister_iff (hreachable : c.Reachable) (hgenerated : input.table.Generated)
    (hblock : SharedBlock input start body last) (h : Succeeds input c start t entry) {s : State}
    {cpu : Address} (hcall : Call s cpu entry) :
    ZeroRegisterLaw input start body t s cpu ↔ KeepsZeroThroughout input start body s cpu := by
  obtain ⟨fuel, u, last', hrun, hend, hrecord⟩ := h.lastMoment hreachable hgenerated hblock hcall
  have hmoment : ∀ {k}, k ≤ body.length → ∃ m,
      momentAfter input start cpu (execAll s prologueCode) k = some m :=
    fun hle => momentAfter_le hle hend
  constructor
  · intro hlaw k i m hi hm
    have hk := (List.getElem?_eq_some_iff.mp hi).1
    obtain ⟨m', hm'⟩ := hmoment (k := k + 1) hk
    obtain ⟨hiff, hpointer⟩ := hblock.step hgenerated hcall.holds hi hm hm'
    refine hiff.mp ⟨hlaw.reads hi hm, fun hwrites => hlaw.discards hi hwrites hm hm', ?_⟩
    rw [hlaw.stackPointer hk hm', hpointer, hlaw.stackPointer hk.le hm]
  · intro hkeeps
    have hlaw : ∀ {k i m m'}, body[k]? = some i →
        momentAfter input start cpu (execAll s prologueCode) k = some m →
        momentAfter input start cpu (execAll s prologueCode) (k + 1) = some m' →
        KeepsLaw m.allocator m.host (m.guest cpu) (m'.guest cpu) i := fun hi hm hm' =>
      (hblock.step hgenerated hcall.holds hi hm hm').1.mpr (hkeeps hi hm)
    have hpointer : ∀ k ≤ body.length, ∀ m,
        momentAfter input start cpu (execAll s prologueCode) k = some m →
        (m.guest cpu).x 31 = m.stackPointer := by
      intro k hk
      induction k with
      | zero =>
          intro m hm
          cases hm
          rfl
      | succ k ih =>
          intro m' hm'
          obtain ⟨m, hm⟩ := hmoment (Nat.le_of_succ_le hk)
          have hi := List.getElem?_eq_getElem (Nat.lt_of_succ_le hk)
          rw [(hlaw hi hm hm').stackPointer, ih (Nat.le_of_succ_le hk) m hm,
            (hblock.step hgenerated hcall.holds hi hm hm').2]
    refine ⟨fun hi hm => ?_, fun hi hwrites hm hm' => (hlaw hi hm hm').discards hwrites,
      fun hk hm => hpointer _ hk _ hm, fuel, u, last', hrun, hend, ?_⟩
    · obtain ⟨m', hm'⟩ := hmoment (List.getElem?_eq_some_iff.mp hi).1
      exact (hlaw hi hm hm').reads
    · rw [hrecord]
      exact hpointer _ le_rfl _ hend

end Blocks

/-- `ADD X2, XZR, X1` and `RET`. -/
theorem sharedBlock_add : SharedBlock (.ofWords 0x1000 [0x8B0103E2, 0xD65F03C0] 8) 0x1000
    [.addSubShifted true false false 0 1 0 31 2] (.ret 30) where
  words := decodes_of_forall (by decide)
  length_le := by decide
  body_shared := by decide
  last_exit := by decide

/-- With zero in the stack pointer, the law holds. -/
theorem zeroRegister_iff_add : ∃ t,
    Succeeds (.ofWords 0x1000 [0x8B0103E2, 0xD65F03C0] 8) (.fresh 256) 0x1000 t 0 ∧
      ZeroRegisterLaw (.ofWords 0x1000 [0x8B0103E2, 0xD65F03C0] 8) 0x1000
        [.addSubShifted true false false 0 1 0 31 2] t smallRecord 0 := by
  obtain ⟨t, -, h⟩ := succeeds_of_eval (.ofWords 0x1000 [0x8B0103E2, 0xD65F03C0] 8) (.fresh 256) 0x1000
    6 (show _ = some 0 by decide)
  refine ⟨t, h, (zeroRegister_iff (Compiler.fresh_reachable (by decide)) generatedTable_generated
    sharedBlock_add h smallRecord_call).mpr ?_⟩
  intro k i m hi hm
  match k with
  | 0 =>
      cases hi
      cases hm
      intro n m d hn hm hd
      cases hn
      cases hm
      exact ⟨fun _ => by decide, fun hrm => absurd hrm (by decide), fun hrd => absurd hrd (by decide)⟩
  | k + 1 => cases hi

/-- `MOVZ XZR, #5` and `RET`. -/
theorem sharedBlock_movz : SharedBlock (.ofWords 0x1000 [0xD28000BF, 0xD65F03C0] 8) 0x1000
    [.moveWide true 2 0 5 31] (.ret 30) where
  words := decodes_of_forall (by decide)
  length_le := by decide
  body_shared := by decide
  last_exit := by decide

/-- A move to the zero register: the stack pointer becomes 5. -/
theorem movz_stackPointer : ∃ t u,
    Succeeds (.ofWords 0x1000 [0xD28000BF, 0xD65F03C0] 8) (.fresh 256) 0x1000 t 0 ∧
      SharedBlock (.ofWords 0x1000 [0xD28000BF, 0xD65F03C0] 8) 0x1000 [.moveWide true 2 0 5 31]
        (.ret 30) ∧
      Call (someCall 0) 0 0 ∧ runToRet t.compiler.assembler.buffer 40 (someCall 0) = some u ∧
      (cpuState (someCall 0).memory 0).x 31 = 0 ∧ (cpuState u.memory 0).x 31 = 5 ∧
      ¬ZeroRegisterLaw (.ofWords 0x1000 [0xD28000BF, 0xD65F03C0] 8) 0x1000
        [.moveWide true 2 0 5 31] t (someCall 0) 0 := by
  obtain ⟨t, htranslate, h⟩ := succeeds_of_eval (.ofWords 0x1000 [0xD28000BF, 0xD65F03C0] 8)
    (.fresh 256) 0x1000 6 (show _ = some 0 by decide)
  have hrun : ((balTier1CompilerTranslate (.ofWords 0x1000 [0xD28000BF, 0xD65F03C0] 8) (.fresh 256)
      0x1000 6).bind fun t => (runToRet t.compiler.assembler.buffer 40 (someCall 0)).map
        fun u => (cpuState u.memory 0).x 31) = some 5 := by decide
  rw [htranslate, Option.bind_some, Option.map_eq_some_iff] at hrun
  obtain ⟨u, hrun, hslot⟩ := hrun
  refine ⟨t, u, h, sharedBlock_movz, someCall_call 0, hrun, by decide, hslot, fun hlaw => ?_⟩
  obtain ⟨fuel, u', m, hrun', hm, hpointer⟩ := hlaw.final
  obtain rfl := runToRet_unique hrun hrun'
  have hzero : (momentAfter (.ofWords 0x1000 [0xD28000BF, 0xD65F03C0] 8) 0x1000 0
      (execAll (someCall 0) prologueCode) 1).map (·.stackPointer) = some 0 := by decide
  change momentAfter _ _ _ _ 1 = some m at hm
  rw [hm, Option.map_some, ← hpointer, hslot] at hzero
  exact absurd hzero (by decide)

end Ballistic
