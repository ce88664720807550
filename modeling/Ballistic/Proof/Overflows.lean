import Ballistic.Proof.Failures
import Ballistic.Proof.Relocation

/-!
# What is left of an overflow

The emitters of the epilogue replace the status of an assembler that has failed before. So the overflow
that makes `bal_engine_run_thread` try a block again is the one at the very last `ret`: the block is one
byte longer than the room (`retries_iff`).
-/

namespace Ballistic

open Machine Machine.X86

/-! ### The last `ret` -/

/-- The `ret` runs out of room, or hides the failure before it. -/
theorem Assembler.emitRet_overflow_iff {a : Assembler} (hcapacity : a.capacity ≤ sizeMax) :
    a.emitRet.status = .instructionOverflow ↔ a.status = .success ∧ a.capacity ≤ a.offset := by
  unfold emitRet emit
  by_cases hstatus : a.status = .success
  · simp only [hstatus, ne_eq, not_true_eq_false, if_false, true_and]
    by_cases hroom : a.canEmit 1 = true
    · simp only [hroom, if_true, write, hstatus]
      refine iff_of_false (by decide) fun hfull => ?_
      simp only [canEmit, Bool.and_eq_true, Bool.not_eq_true', decide_eq_false_iff_not] at hroom
      omega
    · simp only [hroom]
      refine iff_of_true rfl ?_
      simp only [canEmit, Bool.and_eq_true, Bool.not_eq_true', decide_eq_false_iff_not] at hroom
      omega
  · simp [hstatus]

theorem Assembler.emitRet_success {a : Assembler} (h : a.emitRet.status = .success) :
    a.status = .success ∧ a.offset + 1 ≤ a.capacity ∧ a.emitRet.offset = a.offset + 1 := by
  obtain ⟨hstatus, e, he, hroom, hwrite⟩ := emit_success h
  cases he
  simp only [canEmit, Bool.and_eq_true, Bool.not_eq_true', decide_eq_false_iff_not] at hroom
  exact ⟨hstatus, by omega, congrArg Assembler.offset hwrite⟩

section Blocks

variable {input : TranslateInput} {c x : Compiler} {start : Address} {t : Translation}

/-- The last `pop` asks for the one byte that it writes. -/
theorem ComesToRet.offset_le (h : ComesToRet input c start x) (hok : x.assembler.status = .success) :
    x.assembler.offset ≤ x.assembler.capacity := by
  obtain ⟨fuel, s, -, rfl⟩ := h
  obtain ⟨a, ha⟩ : ∃ a : Assembler, (s.compiler.restoreBlock s.guestAddress s.isPcDynamic
      s.armInstructionCount input.engineFlags).assembler = a.emitPopR64 (some .rbp) :=
    ⟨_, by simp only [Compiler.restoreBlock, Compiler.onAssembler_assembler, restoreCalls,
      List.foldl_cons, List.foldl_nil, EmitCall.apply]; rfl⟩
  rw [ha] at hok ⊢
  obtain ⟨-, e, he, hroom, hwrite⟩ := Assembler.emit_success hok
  cases he
  simp only [Assembler.canEmit, Bool.and_eq_true, Bool.not_eq_true', decide_eq_false_iff_not] at hroom
  unfold Assembler.emitPopR64
  rw [hwrite]
  simp only [Assembler.write, Reg.number]
  simp
  omega

theorem Translates.ret_capacity (h : Translates input c start t)
    (hx : t.compiler = x.onAssembler Assembler.emitRet) :
    x.assembler.capacity = c.assembler.capacity := by
  have hsame := h.capacity
  rw [hx] at hsame
  exact (EmitCall.ret.apply_capacity x.assembler).symm.trans hsame

/-- What comes to its last `ret` without a failure of the assembler has started without one. -/
theorem ComesToRet.assembler_ok (h : ComesToRet input c start x) (hx : x.assembler.status = .success) :
    c.assembler.status = .success := by
  obtain ⟨fuel, s, hrun, rfl⟩ := h
  by_contra hfailed
  have hstart : (startState c start).compiler.assembler.status ≠ .success := by
    rw [startState_assembler]
    exact closed_failed.emitPrologue hfailed
  exact closed_failed.restoreBlock (closed_failed.runLoops hstart hrun) _ _ _ _ hx

/-- **One byte more.** In a buffer with one byte more the code of the block ends where the buffer does. -/
def OneByteShort (input : TranslateInput) (c : Compiler) (start : Address) : Prop :=
  ∃ t, Translates input (c.withCapacity (c.assembler.capacity + 1)) start t ∧
    t.compiler.assembler.status = .success ∧
    t.compiler.assembler.offset = c.assembler.capacity + 1

/-- Before the last `ret`, a translation does the same in a buffer of another size. -/
theorem ComesToRet.resizes (h : ComesToRet input c start x) {c' : Compiler} {n : Nat}
    (hc' : c' = c.withCapacity n) (hx : x.assembler.status = .success) (hfits : x.assembler.offset ≤ n)
    (hsize : n ≤ sizeMax) :
    ∃ x', ComesToRet input c' start x' ∧ x'.assembler.status = .success ∧
      x'.assembler.offset = x.assembler.offset := by
  subst hc'
  let ρ : Relocation :=
    { source := c.assembler.offset
      target := c.assembler.offset
      limit := x.assembler.offset
      capacity := n
      fits := Nat.add_le_add_right hfits _
      addressable := hsize }
  have hok := h.assembler_ok hx
  have hpairs : ρ.Pairs c.assembler (c.withCapacity n).assembler := ⟨hok, hok, rfl, rfl⟩
  obtain ⟨x', hx', hrelates⟩ := h.relocates hpairs rfl rfl ⟨hx, le_rfl⟩
  exact ⟨x', hx', hrelates.assembler.status', (Nat.add_right_cancel hrelates.assembler.offset_eq).symm⟩

theorem Assembler.emitRet_room {a : Assembler} (hok : a.status = .success) (hsize : a.capacity ≤ sizeMax)
    (hroom : a.offset + 1 ≤ a.capacity) :
    a.emitRet.status = .success ∧ a.emitRet.offset = a.offset + 1 := by
  obtain ⟨hstatus, hoffset, -⟩ := EmitCall.apply_fits .ret hok hsize ⟨rfl, hroom⟩
  exact ⟨hstatus, hoffset⟩

/-- **What is left of an overflow.** A translation is tried again exactly if the block is one byte longer
than the room. -/
theorem overflows_iff (hmax : input.maxInstructions ≠ 0) (hcapacity : c.assembler.capacity < sizeMax) :
    (∃ t, Translates input c start t ∧ t.entry = none ∧
      t.compiler.assembler.status = .instructionOverflow) ↔ OneByteShort input c start := by
  constructor
  · rintro ⟨t, ht, -, hoverflow⟩
    obtain ⟨x, hx, htx, -⟩ := ht.comesToRet hmax
    have hxcapacity := ht.ret_capacity htx
    rw [htx] at hoverflow
    obtain ⟨hok, hfull⟩ :=
      (Assembler.emitRet_overflow_iff (hxcapacity.trans_le hcapacity.le)).mp hoverflow
    have hend : x.assembler.offset = c.assembler.capacity := by
      have hle := hx.offset_le hok
      omega
    obtain ⟨x', hx', hok', hoffset⟩ := hx.resizes (n := c.assembler.capacity + 1) rfl hok
      (by omega) hcapacity
    obtain ⟨t', ht'⟩ := hx'.translates hmax
    obtain ⟨x'', hx'', htx', -⟩ := ht'.comesToRet hmax
    obtain rfl := hx''.unique hx'
    have hcapacity' : x''.assembler.capacity = c.assembler.capacity + 1 := ht'.ret_capacity htx'
    obtain ⟨hstatus, hlast⟩ := Assembler.emitRet_room hok' (hcapacity'.trans_le hcapacity) (by omega)
    have hassembler : t'.compiler.assembler = x''.assembler.emitRet := by rw [htx']; rfl
    rw [← hassembler] at hstatus hlast
    exact ⟨t', ht', hstatus, by omega⟩
  · rintro ⟨t', ht', hstatus, hlast⟩
    obtain ⟨x', hx', htx', -⟩ := ht'.comesToRet hmax
    rw [htx', Compiler.onAssembler_assembler] at hstatus hlast
    obtain ⟨hok', -, hret⟩ := Assembler.emitRet_success hstatus
    have hend : x'.assembler.offset = c.assembler.capacity := by omega
    have hback : c = (c.withCapacity (c.assembler.capacity + 1)).withCapacity c.assembler.capacity := rfl
    obtain ⟨x, hx, hok, hoffset⟩ := hx'.resizes hback hok' hend.le hcapacity.le
    obtain ⟨t, ht⟩ := hx.translates hmax
    obtain ⟨x'', hx'', htx, hentry⟩ := ht.comesToRet hmax
    obtain rfl := hx''.unique hx
    have hxcapacity := ht.ret_capacity htx
    have hoverflow : x''.assembler.emitRet.status = .instructionOverflow :=
      (Assembler.emitRet_overflow_iff (hxcapacity.trans_le hcapacity.le)).mpr ⟨hok, by omega⟩
    refine ⟨t, ht, hentry.mpr fun hdone => ?_, by rw [htx]; exact hoverflow⟩
    have hsuccess := hdone.assembler
    rw [Compiler.onAssembler_assembler, hoverflow] at hsuccess
    cases hsuccess

end Blocks

end Ballistic
