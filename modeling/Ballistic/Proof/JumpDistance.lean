import Ballistic.BlockScan
import Ballistic.Proof.Allocation
import Ballistic.Proof.Branches
import Ballistic.Proof.Emitters

/-!
# The distance of the jump over the first arm

`terminate_block_conditional` computes the operand of its conditional jump before it emits the first
arm, from the number of dirty registers and the size of the fallthrough constant. With room for both
arms every emit in them succeeds (`Appends`), and the operand is the number of bytes between the jump
and the second arm (`terminateBlockConditional_distance`).
-/

namespace Ballistic

open Machine Machine.X86

/-! ### Emits that find room -/

/-- `f` appends `n` bytes where there is room for them, and nothing to a failed assembler. -/
structure Appends (n : Nat) (f : Assembler → Assembler) : Prop where
  room : ∀ a : Assembler, a.status = .success → a.capacity ≤ sizeMax → a.offset + n ≤ a.capacity →
    (f a).status = .success ∧ (f a).offset = a.offset + n ∧ (f a).capacity = a.capacity
  failed : ∀ a : Assembler, a.status ≠ .success →
    (f a).status ≠ .success ∧ (f a).offset = a.offset ∧ (f a).buffer = a.buffer

namespace Appends

theorem refl : Appends 0 fun a => a where
  room := fun _ hstatus _ _ => ⟨hstatus, rfl, rfl⟩
  failed := fun _ hfailed => ⟨hfailed, rfl, rfl⟩

theorem trans {n m : Nat} {f g : Assembler → Assembler} (hf : Appends n f) (hg : Appends m g) :
    Appends (n + m) fun a => g (f a) where
  room := by
    intro a hstatus hcapacity hroom
    obtain ⟨hstatus', hoffset, hcap⟩ := hf.room a hstatus hcapacity (by omega)
    obtain ⟨hstatus'', hoffset', hcap'⟩ :=
      hg.room (f a) hstatus' (by omega) (by rw [hoffset, hcap]; omega)
    exact ⟨hstatus'', by rw [hoffset', hoffset]; omega, hcap'.trans hcap⟩
  failed := by
    intro a hfailed
    obtain ⟨hfailed', hoffset, hbuffer⟩ := hf.failed a hfailed
    obtain ⟨hfailed'', hoffset', hbuffer'⟩ := hg.failed (f a) hfailed'
    exact ⟨hfailed'', hoffset'.trans hoffset, hbuffer'.trans hbuffer⟩

/-- An emitter that asks for no more room than it uses. -/
theorem emit {poisons : Bool} {e : Encoding} {n : Nat} (hlength : e.bytes.length = n)
    (hsize : e.instructionSizeBytes ≤ n) : Appends n fun a => a.emit poisons (some e) where
  room := by
    intro a hstatus hcapacity hroom
    have hfits : a.canEmit e.instructionSizeBytes = true := by
      rw [a.canEmit_iff]
      omega
    have hwrite : a.emit poisons (some e) = a.write e.bytes := by
      rw [Assembler.emit, if_neg (not_not.mpr hstatus)]
      exact if_pos hfits
    rw [hwrite, ← hlength]
    exact ⟨hstatus, rfl, rfl⟩
  failed := by
    intro a hfailed
    refine ⟨Assembler.emit_failed hfailed, ?_⟩
    rw [Assembler.emit, if_pos hfailed]
    split <;> exact ⟨rfl, rfl⟩

theorem jcc (condition : Condition) (offset : BitVec 32) :
    Appends 6 fun a => a.emitJccRel32 condition offset := by
  unfold Assembler.emitJccRel32
  exact emit rfl (Nat.le_refl 6)

theorem store (x : Reg) (offset : BitVec 32) :
    Appends 7 fun a => a.emitStoreR64RbpOffset (some x) offset := by
  unfold Assembler.emitStoreR64RbpOffset
  exact emit rfl (Nat.le_refl 7)

theorem movRax (pc : Address) :
    Appends (Assembler.movRaxSize pc) fun a => a.emitMovR64Imm64 (some .rax) pc := by
  unfold Assembler.emitMovR64Imm64 Assembler.movRaxSize
  simp only [Option.map_some]
  by_cases hsmall : pc.toNat ≤ 0xFFFFFFFF
  · simp only [hsmall, if_true]
    exact emit rfl (Nat.le_refl 5)
  · simp only [hsmall, if_false]
    exact emit rfl (Nat.le_refl 10)

theorem ret : Appends 1 Assembler.emitRet := by
  unfold Assembler.emitRet
  exact emit rfl (Nat.le_refl 1)

/-- A `pop` asks for one byte also where it uses two. -/
theorem pop (x : Reg) :
    Appends (if 7 < x.number then 2 else 1) fun a => a.emitPopR64 (some x) := by
  unfold Assembler.emitPopR64 Assembler.stackForm
  simp only [Option.map_some]
  by_cases hrex : 7 < x.number
  · simp only [hrex, if_true]
    exact emit rfl (Nat.le_succ 1)
  · simp only [hrex, if_false]
    exact emit rfl (Nat.le_refl 1)

theorem storePc (pc : Address) :
    Appends (Assembler.movRaxSize pc + 7) fun a => a.emitStorePc pc :=
  (movRax pc).trans (store .rax _)

theorem epilogue : Appends 10 Assembler.emitEpilogue :=
  (((((pop .r15).trans (pop .r14)).trans (pop .r13)).trans (pop .r12)).trans (pop .rbp)).trans ret

theorem shortEpilogue : Appends 2 Assembler.emitShortEpilogue := (pop .rbp).trans ret

/-- The stores of the dirty registers, when each of them is in a host register. -/
theorem dirtyStores {r : RegisterAllocator}
    (hmapped : ∀ arm : Fin 32, r.dirty arm = true → ∃ x, r.armToX86 arm = some x) :
    Appends (7 * (Compiler.dirtyStores r).length) fun a =>
      flushMacros a (Compiler.dirtyStores r) := by
  have hstores : ∀ m ∈ Compiler.dirtyStores r, Appends 7 fun a => flushSingleMacro a m := by
    intro m hm
    simp only [Compiler.dirtyStores, List.mem_filterMap, List.mem_finRange, true_and] at hm
    obtain ⟨arm, hstore⟩ := hm
    split at hstore
    · next hdirty =>
        cases hstore
        obtain ⟨x, hx⟩ := hmapped arm hdirty
        rw [hx]
        refine ⟨fun a hstatus => ?_, fun a hfailed => ?_⟩
        · unfold flushSingleMacro
          simp only [hstatus, ne_eq, not_true_eq_false, if_false]
          exact (store x _).room a hstatus
        · rw [flushSingleMacro_failed _ hfailed]
          exact ⟨hfailed, rfl, rfl⟩
    · cases hstore
  generalize Compiler.dirtyStores r = ms at hstores ⊢
  induction ms with
  | nil => exact refl
  | cons m ms ih =>
      have hrest := (hstores m List.mem_cons_self).trans
        (ih fun k hk => hstores k (List.mem_cons_of_mem m hk))
      rw [List.length_cons, Nat.mul_succ, Nat.add_comm]
      exact hrest

end Appends

/-! ### Conditional ends -/

namespace Compiler

section

variable {c : Compiler} {condition : Condition} {fallthroughPc takenPc : Address}

/-- The size of the second arm. -/
def takenSize (r : RegisterAllocator) (takenPc : Address) : Nat :=
  7 * (dirtyStores r).length + (Assembler.movRaxSize takenPc + 7) + 2

theorem appends_terminateBlockConditional
    (hmapped : ∀ arm : Fin 32, c.allocator.dirty arm = true →
      ∃ x, c.allocator.armToX86 arm = some x) :
    Appends (6 + epilogueSize c.allocator fallthroughPc + takenSize c.allocator takenPc) fun a =>
      emitArm (dirtyStores c.allocator) takenPc Assembler.emitShortEpilogue
        (emitArm (dirtyStores c.allocator) fallthroughPc Assembler.emitEpilogue
          (a.emitJccRel32 condition
            (BitVec.ofNat 32 (epilogueSize c.allocator fallthroughPc)))) := by
  have hfirst := ((Appends.dirtyStores hmapped).trans (.storePc fallthroughPc)).trans .epilogue
  have hsecond := ((Appends.dirtyStores hmapped).trans (.storePc takenPc)).trans .shortEpilogue
  rw [← epilogueSize_eq] at hfirst
  exact ((Appends.jcc condition _).trans hfirst).trans hsecond

end

/-- **The computed distance.** Whatever macros were waiting and whichever registers are dirty, with
room for both arms the conditional end succeeds, and the operand of its jump is the number of bytes
from the end of the jump to the first instruction of the second arm. Nothing is emitted where the
waiting macros have failed. -/
theorem terminateBlockConditional_distance {c : Compiler}
    (hmapped : ∀ arm : Fin 32, c.allocator.dirty arm = true →
      ∃ x, c.allocator.armToX86 arm = some x)
    (hcapacity : c.assembler.capacity ≤ sizeMax) (condition : Condition)
    (fallthroughPc takenPc : Address)
    (hroom : c.flushAll.assembler.offset + 6 + epilogueSize c.allocator fallthroughPc +
      takenSize c.allocator takenPc ≤ c.assembler.capacity) :
    let jump := c.flushAll.assembler.offset
    let a := (c.terminateBlockConditional condition fallthroughPc takenPc).assembler
    (c.flushAll.assembler.status ≠ .success →
      a.status ≠ .success ∧ a.offset = jump ∧ a.buffer = c.flushAll.assembler.buffer) ∧
    (c.flushAll.assembler.status = .success →
      a.status = .success ∧ ∃ (operand : BitVec 32) (taken : Nat),
        BytesAt a.buffer jump
          ([0x0F, 0x80 + BitVec.ofNat 8 condition.number] ++ bytes32 operand) ∧
        CodeAt a.buffer jump [.jcc condition operand] (jump + 6) ∧
        CodeAt a.buffer (jump + 6) (instrsOf (dirtyStores c.allocator) ++
          storePcCode fallthroughPc ++ (epilogueCode ++ [.ret])) taken ∧
        CodeAt a.buffer taken (instrsOf (dirtyStores c.allocator) ++ storePcCode takenPc ++
          ([.pop .rbp] ++ [.ret])) a.offset ∧
        operand.toInt = (taken - (jump + 6) : Nat) ∧
        jumpTarget (jump + 6) operand = taken) := by
  intro jump a
  have happends := @appends_terminateBlockConditional c condition fallthroughPc takenPc hmapped
  have hassembler : a = _ := terminateBlockConditional_assembler
  have ha : (c.terminateBlockConditional condition fallthroughPc takenPc).assembler = a := rfl
  refine ⟨fun hfailed => ?_, fun hflushed => ?_⟩
  · rw [hassembler]
    exact happends.failed c.flushAll.assembler hfailed
  · have hkept : c.flushAll.assembler.capacity = c.assembler.capacity :=
      (flushMacros_emitted hflushed).capacity_eq
    have hstatus : a.status = .success := by
      rw [hassembler]
      exact (happends.room c.flushAll.assembler hflushed (by omega) (by omega)).1
    obtain ⟨hjumped, a3, hfirst, hsize, hsecond⟩ := terminateBlockConditional_emitted hstatus
    rw [ha] at hsecond
    obtain ⟨-, e, he, -, hwrite⟩ := Assembler.emit_success hjumped
    cases he
    change c.flushAll.assembler.emitJccRel32 condition
      (BitVec.ofNat 32 (epilogueSize c.allocator fallthroughPc)) = _ at hwrite
    rw [hwrite] at hfirst hsize
    have hfar : a3.offset = jump + 6 + epilogueSize c.allocator fallthroughPc := hsize
    have hbelow : ∀ k < jump + 6, a.buffer k = storeBytes c.flushAll.assembler.buffer jump
        ([0x0F, 0x80 + BitVec.ofNat 8 condition.number] ++
          bytes32 (BitVec.ofNat 32 (epilogueSize c.allocator fallthroughPc))) k := by
      intro k hk
      rw [hsecond.below k (by omega)]
      exact hfirst.below k hk
    have hbytes := (bytesAt_storeBytes c.flushAll.assembler.buffer jump _).congr
      fun k _ hk => hbelow k hk
    have htarget := jumpTarget_epilogueSize (jump + 6) c.allocator fallthroughPc
    refine ⟨hstatus, BitVec.ofNat 32 (epilogueSize c.allocator fallthroughPc), a3.offset, hbytes,
      ⟨_, encodes_jcc condition _, hbytes, rfl⟩, ?_, hsecond.code, ?_, ?_⟩
    · exact hfirst.code.congr fun k _ hk => hsecond.below k hk
    · rw [toInt_epilogueSize]
      omega
    · rw [htarget, hfar]

/-- A compiler with `x0` and `x1` dirty and two loads waiting. -/
def twoDirty : Compiler :=
  { Compiler.fresh 256 with
    allocator := (((RegisterAllocator.reset.map 0 .rax).setDirty 0).map 1 .rcx).setDirty 1
    window := ⟨[loadMacro (some .rax) 0, loadMacro (some .rcx) 8], by decide⟩ }

theorem twoDirty_wf : twoDirty.allocator.Wf := by
  have hfirst := RegisterAllocator.reset_wf.map (a := 0) (x := .rax) rfl rfl (by decide)
  have hdirty := hfirst.setDirty (a := 0) (x := .rax) rfl
  have hsecond := hdirty.map (a := 1) (x := .rcx) rfl rfl (by decide)
  exact hsecond.setDirty (a := 1) (x := .rcx) rfl

theorem terminateBlockConditional_distance_twoDirty :
    let a := (twoDirty.terminateBlockConditional .e 0x1004 0x1020).assembler
    a.status = .success ∧ a.offset = 84 ∧ ∃ (operand : BitVec 32) (taken : Nat),
      BytesAt a.buffer 14 ([0x0F, 0x84] ++ bytes32 operand) ∧
      operand.toInt = (taken - 20 : Nat) ∧ jumpTarget 20 operand = taken := by
  obtain ⟨hstatus, operand, taken, hbytes, -, -, -, hoperand, htarget⟩ :=
    (terminateBlockConditional_distance twoDirty_wf.dirty_mapped (by decide) .e 0x1004 0x1020 (by decide)).2
      (by decide)
  exact ⟨hstatus, by decide, operand, taken, hbytes, hoperand, htarget⟩

end Compiler

end Ballistic
