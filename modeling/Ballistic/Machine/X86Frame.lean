import Ballistic.Machine.X86

/-!
# Code that keeps to a frame

Straight-line code is confined to a set of working registers and to a frame of bytes above `rbp`
if it writes no other register and no other memory, and never moves `rbp` or the stack. Whatever
such code computes, everything outside is as it was.
-/

namespace Machine.X86

/-- A displacement of `size` bytes that stays inside a frame of `n` bytes. -/
def InFrame (n size : Nat) (displacement : BitVec 32) : Prop := displacement.toNat + size ≤ n

/-- The instruction writes only registers in `working` and bytes of the frame. -/
def Confined (working : List Reg) (n : Nat) : Instr → Prop
  | .alu _ d _ | .addImm d _ | .subImm d _ | .mov d _ | .movImm d _ | .load d _ | .loadFrom d _
  | .shift _ d _ => d ∈ working
  | .store _ displacement | .addMemImm displacement _ => InFrame n 8 displacement
  | .setcc _ displacement => InFrame n 1 displacement
  | .test _ _ | .cmpMem8 _ _ => True
  | .push _ | .pop _ | .jmp _ | .jmpRel _ | .jcc _ _ | .ret | .ud2 => False

theorem Confined.straight {working : List Reg} {n : Nat} {i : Instr} (h : Confined working n i) :
    i.straight := by
  cases i <;> first | rfl | exact h.elim

/-- Code that keeps to a frame keeps to any larger one. -/
theorem Confined.mono {working : List Reg} {n n' : Nat} (hle : n ≤ n') {i : Instr}
    (h : Confined working n i) : Confined working n' i := by
  cases i with
  | store | addMemImm | setcc => exact Nat.le_trans h hle
  | _ => exact h

/-- `t` differs from `s` only in working registers, flags and the frame. -/
structure Within (working : List Reg) (n : Nat) (s t : State) : Prop where
  regs : ∀ r ∉ working, t.regs r = s.regs r
  memory : Memory.Frame (s.regs .rbp) n s.memory t.memory

namespace Within

variable {working : List Reg} {n : Nat}

theorem refl (s : State) : Within working n s s := ⟨fun _ _ => rfl, Memory.Frame.refl _ _ _⟩

theorem trans {s t u : State} (hrbp : .rbp ∉ working) (hst : Within working n s t)
    (htu : Within working n t u) : Within working n s u := by
  refine ⟨fun r hr => (htu.regs r hr).trans (hst.regs r hr), ?_⟩
  have hmemory := htu.memory
  rw [hst.regs .rbp hrbp] at hmemory
  exact hst.memory.trans hmemory

end Within

/-- A displacement below `2 ^ 31` is an offset above `rbp`. -/
theorem State.frameAddress_eq (s : State) {displacement : BitVec 32}
    (h : displacement.toNat < 2 ^ 31) :
    s.frameAddress displacement = above (s.regs .rbp) displacement.toNat := by
  unfold State.frameAddress above
  congr 1
  rw [BitVec.signExtend_eq_setWidth_of_msb_false (by rw [BitVec.msb_eq_decide]; simp; omega)]
  exact BitVec.eq_of_toNat_eq (by simp)

theorem within_set {working : List Reg} {n : Nat} {d : Reg} (hd : d ∈ working) (s t : State)
    (value : BitVec 64) (hregs : t.regs = Function.update s.regs d value)
    (hmemory : t.memory = s.memory) : Within working n s t := by
  refine ⟨fun r hr => ?_, ?_⟩
  · have hne : r ≠ d := fun h => hr (h ▸ hd)
    rw [hregs, Function.update_of_ne hne]
  · rw [hmemory]
    exact Memory.Frame.refl _ _ _

theorem exec_within {working : List Reg} {n : Nat} (hn : n < 2 ^ 31) {i : Instr}
    (h : Confined working n i) (s : State) : Within working n s (i.exec s) := by
  cases i with
  | alu op d r => exact within_set h s _ _ rfl rfl
  | addImm d v => exact within_set h s _ _ rfl rfl
  | subImm d v => exact within_set h s _ _ rfl rfl
  | mov d r => exact within_set h s _ _ rfl rfl
  | movImm d v => exact within_set h s _ _ rfl rfl
  | load d displacement => exact within_set h s _ _ rfl rfl
  | loadFrom d b => exact within_set h s _ _ rfl rfl
  | shift op d v =>
      simp only [Instr.exec]
      split
      · exact .refl s
      · exact within_set h s _ _ rfl rfl
  | store r displacement =>
      refine ⟨fun _ _ => rfl, ?_⟩
      have hin : displacement.toNat + 8 ≤ n := h
      simp only [Instr.exec]
      rw [State.frameAddress_eq s (by omega)]
      exact Memory.frame_write64 _ _ (by omega) hin
  | addMemImm displacement v =>
      refine ⟨fun _ _ => rfl, ?_⟩
      have hin : displacement.toNat + 8 ≤ n := h
      simp only [Instr.exec]
      rw [State.frameAddress_eq s (by omega)]
      exact Memory.frame_write64 _ _ (by omega) hin
  | setcc condition displacement =>
      refine ⟨fun _ _ => rfl, ?_⟩
      have hin : displacement.toNat + 1 ≤ n := h
      simp only [Instr.exec]
      rw [State.frameAddress_eq s (by omega)]
      exact Memory.frame_write8 _ _ (by omega) hin
  | test d r => exact ⟨fun _ _ => rfl, Memory.Frame.refl _ _ _⟩
  | cmpMem8 displacement v => exact ⟨fun _ _ => rfl, Memory.Frame.refl _ _ _⟩
  | push | pop | jmp | jmpRel | jcc | ret | ud2 => exact h.elim

/-- **Confined code stays within its frame.** -/
theorem execAll_within {working : List Reg} {n : Nat} (hrbp : .rbp ∉ working) (hn : n < 2 ^ 31)
    {is : List Instr} (h : ∀ i ∈ is, Confined working n i) (s : State) :
    Within working n s (execAll s is) := by
  induction is generalizing s with
  | nil => exact .refl s
  | cons i is ih =>
      have hhead := exec_within hn (h i (by simp)) s
      exact hhead.trans hrbp (ih (fun j hj => h j (by simp [hj])) (i.exec s))

end Machine.X86
