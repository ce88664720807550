import Ballistic.BlockCall
import Ballistic.Proof.Confinement
import Ballistic.Proof.Loops

/-!
# Calling a block

A caller enters a block with a pointer to the CPU record in the argument register and with room on
the stack for five saved registers outside of that record. Between the prologue and the epilogue the
code is confined to the record, so the saved registers survive, and the epilogue brings them back.
-/

namespace Ballistic

open Machine Machine.X86

theorem someCall_call (entry : Nat) : Call (someCall entry) 0 entry := by
  refine ⟨rfl, rfl, fun k hk => ?_⟩
  simp only [someCall, distance, above, cpuSize]
  bv_omega

/-- The record looks the same if none of its bytes has changed. -/
theorem cpuState_congr {m m' : Memory} {cpu : Address}
    (h : ∀ o < cpuSize, m' (above cpu o) = m (above cpu o)) : cpuState m' cpu = cpuState m cpu := by
  have hread : ∀ o, o + 8 ≤ cpuSize → m'.read64 (above cpu o) = m.read64 (above cpu o) :=
    fun o ho => Memory.read64_congr fun k hk => by rw [above_above, h _ (by omega)]
  have hbyte : ∀ o, o < cpuSize → m' (above cpu o) = m (above cpu o) := fun o ho => h o ho
  unfold cpuState
  congr 1
  · funext a
    have hlt := offsetX_lt a
    exact hread _ (by unfold cpuSize; omega)
  · exact hbyte _ (by decide)
  · exact hbyte _ (by decide)
  · exact hbyte _ (by decide)
  · exact hbyte _ (by decide)
  · exact hread _ (by decide)

theorem execAll_storePcCode {s : State} {cpu : Address} (hrbp : s.regs .rbp = cpu) (pc : Address) :
    (execAll s (storePcCode pc)).memory = s.memory.write64 (above cpu offsetPc) pc := by
  have haddress : (s.set .rax pc).frameAddress (BitVec.ofNat 32 offsetPc) = above cpu offsetPc := by
    rw [State.frameAddress_eq _ (by decide), State.set_of_ne s pc (by decide), hrbp]
    rfl
  simp only [storePcCode, execAll_cons, execAll_nil, Instr.exec, haddress, State.set_self,
    State.set_memory]

theorem Call.outside {s : State} {cpu : Address} {entry : Nat} (h : Call s cpu entry) {o : Nat}
    (ho : o < cpuSize) : 40 ≤ distance (s.regs .rsp - 40) (above cpu o) := by
  by_contra hinside
  have hfar := h.disjoint _ (Nat.lt_of_not_le hinside)
  rw [above_distance, distance_above cpu (by unfold cpuSize at ho; omega)] at hfar
  omega

/-! ### The saved registers -/

/-- The registers that the prologue saves, where it saves them above the stack pointer. -/
structure Saved (bottom : Address) (m : Memory) (regs : Reg → BitVec 64) : Prop where
  rbp : m.read64 (above bottom 32) = regs .rbp
  r12 : m.read64 (above bottom 24) = regs .r12
  r13 : m.read64 (above bottom 16) = regs .r13
  r14 : m.read64 (above bottom 8) = regs .r14
  r15 : m.read64 (above bottom 0) = regs .r15

theorem Saved.congr {bottom : Address} {m m' : Memory} {regs : Reg → BitVec 64}
    (h : Saved bottom m regs) (hsame : ∀ k < 40, m' (above bottom k) = m (above bottom k)) :
    Saved bottom m' regs := by
  have hread : ∀ o, o + 8 ≤ 40 → m'.read64 (above bottom o) = m.read64 (above bottom o) :=
    fun o ho => Memory.read64_congr fun k hk => by rw [above_above, hsame _ (by omega)]
  exact ⟨by rw [hread _ (by decide), h.rbp], by rw [hread _ (by decide), h.r12],
    by rw [hread _ (by decide), h.r13], by rw [hread _ (by decide), h.r14],
    by rw [hread _ (by decide), h.r15]⟩

/-- The memory after the prologue. -/
def savedMemory (s : State) : Memory :=
  let bottom := s.regs .rsp - 40
  let m := s.memory.write64 (above bottom 32) (s.regs .rbp)
  let m := m.write64 (above bottom 24) (s.regs .r12)
  let m := m.write64 (above bottom 16) (s.regs .r13)
  let m := m.write64 (above bottom 8) (s.regs .r14)
  m.write64 (above bottom 0) (s.regs .r15)

theorem execAll_prologueCode (s : State) :
    execAll s prologueCode =
      { s with
        regs := Function.update (Function.update s.regs .rsp (s.regs .rsp - 40)) .rbp (s.regs .rdi)
        memory := savedMemory s } := by
  have h1 : s.regs .rsp - 8 = above (s.regs .rsp - 40) 32 := by unfold above; bv_omega
  have h2 : above (s.regs .rsp - 40) 32 - 8 = above (s.regs .rsp - 40) 24 := by
    unfold above
    bv_omega
  have h3 : above (s.regs .rsp - 40) 24 - 8 = above (s.regs .rsp - 40) 16 := by
    unfold above
    bv_omega
  have h4 : above (s.regs .rsp - 40) 16 - 8 = above (s.regs .rsp - 40) 8 := by
    unfold above
    bv_omega
  have h5 : above (s.regs .rsp - 40) 8 - 8 = above (s.regs .rsp - 40) 0 := by
    unfold above
    bv_omega
  simp only [prologueCode, execAll_cons, execAll_nil, Instr.exec, State.set, Function.update_self,
    Function.update_idem, Function.update_of_ne (show Reg.r12 ≠ .rsp by decide),
    Function.update_of_ne (show Reg.r13 ≠ .rsp by decide),
    Function.update_of_ne (show Reg.r14 ≠ .rsp by decide),
    Function.update_of_ne (show Reg.r15 ≠ .rsp by decide),
    Function.update_of_ne (show Reg.rdi ≠ .rsp by decide), h1, h2, h3, h4, h5]
  rw [savedMemory, above_zero]

theorem saved_savedMemory (s : State) : Saved (s.regs .rsp - 40) (savedMemory s) s.regs := by
  constructor
  all_goals
    simp (disch := omega) only [savedMemory, Memory.read64_write64_self,
      Memory.read64_write64_above]

theorem savedMemory_frame (s : State) :
    Memory.Frame (s.regs .rsp - 40) 40 s.memory (savedMemory s) := by
  unfold savedMemory
  refine Memory.Frame.trans (Memory.Frame.trans (Memory.Frame.trans (Memory.Frame.trans
    (Memory.frame_write64 _ _ ?_ ?_) (Memory.frame_write64 _ _ ?_ ?_))
    (Memory.frame_write64 _ _ ?_ ?_)) (Memory.frame_write64 _ _ ?_ ?_))
    (Memory.frame_write64 _ _ ?_ ?_)
  all_goals omega

/-- A pop reads the top of the stack. -/
theorem execAll_pop {s : State} (r : Reg) (bottom : Address) {o : Nat}
    (hrsp : s.regs .rsp = above bottom o) (is : List Instr) :
    execAll s (.pop r :: is) =
      execAll
        { s with
          regs := Function.update (Function.update s.regs .rsp (above bottom (o + 8))) r
            (s.memory.read64 (above bottom o)) } is := by
  have hnext : above bottom o + 8 = above bottom (o + 8) := above_above bottom o 8
  simp only [execAll_cons, Instr.exec, State.set, hrsp, hnext]

/-- The epilogue restores the stack pointer and the saved registers and changes nothing else. -/
theorem execAll_epilogueCode {s : State} {bottom : Address} (hrsp : s.regs .rsp = bottom)
    {regs : Reg → BitVec 64} (hsaved : Saved bottom s.memory regs) :
    (execAll s epilogueCode).memory = s.memory ∧
      (execAll s epilogueCode).regs .rsp = above bottom 40 ∧
      (execAll s epilogueCode).regs .rbp = regs .rbp ∧
      (execAll s epilogueCode).regs .r12 = regs .r12 ∧
      (execAll s epilogueCode).regs .r13 = regs .r13 ∧
      (execAll s epilogueCode).regs .r14 = regs .r14 ∧
      (execAll s epilogueCode).regs .r15 = regs .r15 ∧
      (execAll s epilogueCode).regs .rbx = s.regs .rbx := by
  rw [← above_zero bottom] at hrsp
  have hr15 := hsaved.r15
  rw [epilogueCode, execAll_pop .r15 bottom hrsp,
    execAll_pop .r14 bottom (o := 8) (by simp [Function.update_of_ne]),
    execAll_pop .r13 bottom (o := 16) (by simp [Function.update_of_ne]),
    execAll_pop .r12 bottom (o := 24) (by simp [Function.update_of_ne]),
    execAll_pop .rbp bottom (o := 32) (by simp [Function.update_of_ne])]
  rw [above_zero] at hr15
  simp [Function.update_of_ne, hsaved.rbp, hsaved.r12, hsaved.r13, hsaved.r14, hr15]

/-! ### Between prologue and epilogue -/

/-- The machine inside a block: the frame is in place and the CPU record is addressed by `rbp`. -/
structure Inside (s t : State) (cpu : Address) : Prop where
  rsp : t.regs .rsp = s.regs .rsp - 40
  rbp : t.regs .rbp = cpu
  rbx : t.regs .rbx = s.regs .rbx
  saved : Saved (s.regs .rsp - 40) t.memory s.regs

variable {s t : State} {cpu : Address} {entry : Nat}

theorem Inside.withRip (h : Inside s t cpu) (rip : Nat) : Inside s { t with rip := rip } cpu :=
  ⟨h.rsp, h.rbp, h.rbx, h.saved⟩

theorem Call.inside (h : Call s cpu entry) : Inside s (execAll s prologueCode) cpu := by
  rw [execAll_prologueCode]
  exact ⟨by simp [Function.update_of_ne], by simp [h.argument], by simp [Function.update_of_ne],
    saved_savedMemory s⟩

/-- The prologue leaves the CPU record alone. -/
theorem Call.cpuState_prologue (h : Call s cpu entry) :
    cpuState (execAll s prologueCode).memory cpu = cpuState s.memory cpu := by
  refine cpuState_congr fun o ho => ?_
  rw [execAll_prologueCode]
  exact savedMemory_frame s _ (h.outside ho)

theorem Inside.execAll (hcall : Call s cpu entry) (h : Inside s t cpu) {is : List Instr}
    (hconfined : ∀ i ∈ is, Confined workingRegisters cpuSize i) :
    Inside s (execAll t is) cpu := by
  have hwithin := execAll_within (by decide) (by decide) hconfined t
  refine ⟨(hwithin.regs _ (by decide)).trans h.rsp, (hwithin.regs _ (by decide)).trans h.rbp,
    (hwithin.regs _ (by decide)).trans h.rbx, h.saved.congr fun k hk => ?_⟩
  have hmemory := hwithin.memory
  rw [h.rbp] at hmemory
  exact hmemory _ (hcall.disjoint k hk)

/-- The stack pointer and the callee-saved registers are those of `s`. -/
structure Balanced (s t : State) : Prop where
  rsp : t.regs .rsp = s.regs .rsp
  rbp : t.regs .rbp = s.regs .rbp
  rbx : t.regs .rbx = s.regs .rbx
  r12 : t.regs .r12 = s.regs .r12
  r13 : t.regs .r13 = s.regs .r13
  r14 : t.regs .r14 = s.regs .r14
  r15 : t.regs .r15 = s.regs .r15

theorem Inside.balanced (h : Inside s t cpu) :
    Balanced s (X86.execAll t epilogueCode) ∧ (X86.execAll t epilogueCode).memory = t.memory := by
  obtain ⟨hmemory, hrsp, hrbp, hr12, hr13, hr14, hr15, hrbx⟩ := execAll_epilogueCode h.rsp h.saved
  refine ⟨⟨?_, hrbp, hrbx.trans h.rbx, hr12, hr13, hr14, hr15⟩, hmemory⟩
  rw [hrsp]
  unfold above
  bv_omega

/-- Where `rbp` alone is restored, the other four words are still on the stack. -/
theorem Inside.not_balanced_pop (h : Inside s t cpu) : ¬Balanced s (X86.execAll t [.pop .rbp]) := by
  intro hbalanced
  have hrsp := hbalanced.rsp
  rw [execAll_pop .rbp (s.regs .rsp - 40) (o := 0) (by rw [above_zero]; exact h.rsp)] at hrsp
  simp only [execAll_nil, Function.update_of_ne (show Reg.rsp ≠ .rbp by decide),
    Function.update_self, above] at hrsp
  bv_omega

/-- The same registers are as balanced. -/
theorem Balanced.congr {u : State} (hregs : u.regs = t.regs) : Balanced s u ↔ Balanced s t := by
  constructor
  · rintro ⟨hrsp, hrbp, hrbx, hr12, hr13, hr14, hr15⟩
    rw [hregs] at hrsp hrbp hrbx hr12 hr13 hr14 hr15
    exact ⟨hrsp, hrbp, hrbx, hr12, hr13, hr14, hr15⟩
  · rintro ⟨hrsp, hrbp, hrbx, hr12, hr13, hr14, hr15⟩
    rw [← hregs] at hrsp hrbp hrbx hr12 hr13 hr14 hr15
    exact ⟨hrsp, hrbp, hrbx, hr12, hr13, hr14, hr15⟩

/-! ### The code between them -/

theorem confined_storePcCode (pc : Address) :
    ∀ i ∈ storePcCode pc, Confined workingRegisters cpuSize i := by
  intro i hi
  simp only [storePcCode, List.mem_cons, List.not_mem_nil, or_false] at hi
  rcases hi with rfl | rfl
  · exact (by decide : Reg.rax ∈ workingRegisters)
  · exact (by decide : offsetPc + 8 ≤ cpuSize)

theorem confined_tailCode {r : RegisterAllocator} (hwf : r.Wf) (pc : Address) (dynamic : Bool)
    (count : Nat) (flags : EngineFlags) :
    ∀ i ∈ Compiler.tailCode r pc dynamic count flags, Confined workingRegisters cpuSize i := by
  intro i hi
  simp only [Compiler.tailCode, List.mem_append] at hi
  rcases hi with (hi | hi) | hi
  · split at hi
    · rw [show (immediateMacro .addCpuIcount (some .rbp) (BitVec.ofNat 64 count)).instrs =
        [.addMemImm (BitVec.ofNat 32 offsetInstructionCount)
          ((BitVec.ofNat 64 count).setWidth 32)] from rfl, List.mem_singleton] at hi
      subst hi
      exact (by decide : offsetInstructionCount + 8 ≤ cpuSize)
    · simp at hi
  · exact confined_instrsOf (confined_dirtyStores hwf) i hi
  · split at hi
    · simp at hi
    · exact confined_storePcCode pc i hi

theorem straight_prologueCode : ∀ i ∈ prologueCode, i.straight := by decide

theorem straight_epilogueCode : ∀ i ∈ epilogueCode, i.straight := by decide

/-! ### Records -/

/-- A CPU record at zero with the given registers. -/
def recordMemory (x : A64.Register → BitVec 64) : Memory := fun a =>
  if h : a.toNat / 8 < 32 then (x ⟨a.toNat / 8, h⟩).extractLsb' (8 * (a.toNat % 8)) 8 else 0

theorem recordMemory_x (x : A64.Register → BitVec 64) : (cpuState (recordMemory x) 0).x = x := by
  funext a
  change (recordMemory x).read64 (above 0 (offsetX a)) = x a
  rw [← Memory.read64_write64_self (recordMemory x) (above 0 (offsetX a)) (x a)]
  apply Memory.read64_congr
  intro k hk
  have haddress : (above (above 0 (offsetX a)) k).toNat = 8 * (a : Nat) + k := by
    have hlt := a.isLt
    have hzero : (0 : Address).toNat = 0 := rfl
    rw [above_above]
    simp only [above, BitVec.toNat_add, BitVec.toNat_ofNat, offsetX, hzero]
    omega
  have hwhich : (8 * (a : Nat) + k) / 8 = a := by omega
  have hplace : (8 * (a : Nat) + k) % 8 = k := by omega
  rw [Memory.write64, distance_above _ (by omega), if_pos hk]
  simp only [recordMemory, haddress, hwhich, hplace, a.isLt, dite_true]

/-- A memory with a CPU record at zero that holds the guest state. -/
def recordOf (g : A64.State) : Memory :=
  (((((recordMemory g.x).write64 (above 0 offsetPc) g.pc).write8 (above 0 offsetFlagC)
    g.flagC).write8 (above 0 offsetFlagZ) g.flagZ).write8 (above 0 offsetFlagN) g.flagN).write8
    (above 0 offsetFlagV) g.flagV

theorem cpuState_recordOf (g : A64.State) : cpuState (recordOf g) 0 = g := by
  apply A64.State.ext
  case hx =>
    funext a
    have hlt := a.isLt
    rw [← congrFun (recordMemory_x g.x) a]
    change (recordOf g).read64 (above 0 (offsetX a)) = (recordMemory g.x).read64 (above 0 (offsetX a))
    unfold recordOf offsetX offsetPc offsetFlagC offsetFlagZ offsetFlagN offsetFlagV
    simp (disch := omega) only [Memory.read64_write8_above, Memory.read64_write64_above]
  case hpc =>
    change (recordOf g).read64 (above 0 offsetPc) = g.pc
    unfold recordOf offsetPc offsetFlagC offsetFlagZ offsetFlagN offsetFlagV
    simp (disch := omega) only [Memory.read64_write8_above]
    exact Memory.read64_write64_self ..
  case hn =>
    change recordOf g (above 0 offsetFlagN) = g.flagN
    unfold recordOf offsetFlagN offsetFlagV
    simp (disch := omega) only [Memory.write8_above_apply, Memory.write8_self]
  case hz =>
    change recordOf g (above 0 offsetFlagZ) = g.flagZ
    unfold recordOf offsetFlagZ offsetFlagN offsetFlagV
    simp (disch := omega) only [Memory.write8_above_apply, Memory.write8_self]
  case hc =>
    change recordOf g (above 0 offsetFlagC) = g.flagC
    unfold recordOf offsetFlagC offsetFlagZ offsetFlagN offsetFlagV
    simp (disch := omega) only [Memory.write8_above_apply, Memory.write8_self]
  case hv =>
    change recordOf g (above 0 offsetFlagV) = g.flagV
    unfold recordOf
    exact Memory.write8_self ..

/-- Any guest state can be put in a record and the block called on it. -/
theorem exists_call (g : A64.State) (entry : Nat) :
    ∃ s cpu, Call s cpu entry ∧ cpuState s.memory cpu = g :=
  ⟨{ someCall entry with memory := recordOf g }, 0, ⟨rfl, rfl, (someCall_call entry).disjoint⟩,
    cpuState_recordOf g⟩

end Ballistic
