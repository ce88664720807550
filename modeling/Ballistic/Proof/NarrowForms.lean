import Ballistic.Proof.RegisterForms
import Ballistic.Proof.Simulation

/-!
# Instructions on 32-bit registers

The decoder tells the `W` forms from the `X` forms, but the translators compute both on 64 bits. The
result is the zero-extended 32-bit result exactly if it fits in 32 bits, and the flags are the ones of
the 32-bit operation exactly under the conditions of `FitsWord`: the sign bits, the carries and the
overflows of the two sizes have to agree.
-/

namespace Ballistic

open Machine Machine.X86

/-! ### Arithmetic in two sizes -/

section Sizes

variable (x y : BitVec 64)

theorem eq_narrow_iff (v : BitVec 64) : v = (v.setWidth 32).setWidth 64 ↔ v.toNat < 2 ^ 32 := by
  rw [← BitVec.toNat_inj]
  simp only [BitVec.toNat_setWidth]
  omega

theorem addSub_setWidth (op : Bool) :
    (A64.addSub op (x.setWidth 32) (y.setWidth 32)).1 = ((A64.addSub op x y).1).setWidth 32 := by
  cases op with
  | false =>
      rw [A64.addSub_false, A64.addSub_false]
      exact (BitVec.setWidth_add x y (by decide)).symm
  | true =>
      rw [A64.addSub_true (by decide), A64.addSub_true (by decide)]
      apply BitVec.eq_of_toNat_eq
      simp only [BitVec.toNat_sub, BitVec.toNat_setWidth]
      omega

/-- The condition on the operands under which an addition or subtraction on 64 bits is the one on 32
bits, with its flags where they are set. -/
def FitsWord (op setsFlags : Bool) (x y : BitVec 64) : Prop :=
  if setsFlags = false then (hostResult op x y).toNat < 2 ^ 32
  else if op = false then
    (x + y).toNat < 2 ^ 31 ∧
      (2 ^ 64 ≤ x.toNat + y.toNat →
        x.toNat / 2 ^ 32 + y.toNat / 2 ^ 32 = 2 ^ 32 - 1 ∧
          ¬(2 ^ 31 ≤ x.toNat % 2 ^ 32 ∧ 2 ^ 31 ≤ y.toNat % 2 ^ 32))
  else
    (x - y).toNat < 2 ^ 31 ∧
      (y.toNat ≤ x.toNat →
        x.toNat / 2 ^ 32 = y.toNat / 2 ^ 32 ∧
          ¬(2 ^ 31 ≤ x.toNat % 2 ^ 32 ∧ y.toNat % 2 ^ 32 < 2 ^ 31))

theorem addFlags_narrow_iff (hfits : (x + y).toNat < 2 ^ 32) :
    (A64.addSub false x y).2 = (A64.addSub false (x.setWidth 32) (y.setWidth 32)).2 ↔
      FitsWord false true x y := by
  have hx := x.isLt
  have hy := y.isLt
  have hlow : (x.setWidth 32 + y.setWidth 32).toNat = (x + y).toNat := by
    simp only [BitVec.toNat_add, BitVec.toNat_setWidth] at hfits ⊢
    omega
  have hzero : (x + y == 0) = (x.setWidth 32 + y.setWidth 32 == 0) := by
    rw [Bool.eq_iff_iff, beq_iff_eq, beq_iff_eq, ← BitVec.toNat_inj, ← BitVec.toNat_inj, hlow]
    rfl
  have hsum := A64.toNat_add_eq x y
  rw [A64.addSub_false, A64.addSub_false]
  simp only [FitsWord, A64.Nzcv.mk.injEq, decide_eq_decide, A64.toInt_add_ne (n := 64) (by decide),
    A64.toInt_add_ne (n := 32) (by decide), hzero, true_and, BitVec.msb_eq_decide, hlow,
    BitVec.toNat_setWidth, ne_eq, Bool.true_eq_false, if_false, if_true]
  generalize (x + y).toNat = result at *
  generalize x.toNat = first at *
  generalize y.toNat = second at *
  clear hzero hlow
  split at hsum <;> omega

theorem subFlags_narrow_iff (hfits : (x - y).toNat < 2 ^ 32) :
    (A64.addSub true x y).2 = (A64.addSub true (x.setWidth 32) (y.setWidth 32)).2 ↔
      FitsWord true true x y := by
  have hx := x.isLt
  have hy := y.isLt
  have hlow : (x.setWidth 32 - y.setWidth 32).toNat = (x - y).toNat := by
    simp only [BitVec.toNat_sub, BitVec.toNat_setWidth] at hfits ⊢
    omega
  have hzero : (x - y == 0) = (x.setWidth 32 - y.setWidth 32 == 0) := by
    rw [Bool.eq_iff_iff, beq_iff_eq, beq_iff_eq, ← BitVec.toNat_inj, ← BitVec.toNat_inj, hlow]
    rfl
  have hdifference := A64.toNat_sub_eq x y
  rw [A64.addSub_true (by decide), A64.addSub_true (by decide)]
  simp only [FitsWord, A64.Nzcv.mk.injEq, decide_eq_decide, A64.toInt_sub_ne (n := 64) (by decide),
    A64.toInt_sub_ne (n := 32) (by decide), hzero, true_and, BitVec.msb_eq_decide, hlow,
    BitVec.toNat_setWidth, ne_eq, Bool.true_eq_false, if_false]
  generalize (x - y).toNat = result at *
  generalize x.toNat = first at *
  generalize y.toNat = second at *
  clear hzero hlow
  split at hdifference <;> omega

/-- The operation on 64 bits gives the result and the flags of the one on 32 bits exactly if the
operands fit. -/
theorem addSub_narrow_iff (op setsFlags : Bool) :
    ((A64.addSub op x y).1 = (A64.addSubSized false op x y).1 ∧
        (setsFlags = true → (A64.addSub op x y).2 = (A64.addSubSized false op x y).2)) ↔
      FitsWord op setsFlags x y := by
  have hresult : (A64.addSub op x y).1 = (A64.addSubSized false op x y).1 ↔
      (hostResult op x y).toNat < 2 ^ 32 := by
    change _ = ((A64.addSub op (x.setWidth 32) (y.setWidth 32)).1).setWidth 64 ↔ _
    rw [addSub_setWidth, eq_narrow_iff, addSub_eq_host]
  rw [hresult]
  cases setsFlags with
  | false => simp [FitsWord]
  | true =>
      simp only [forall_const]
      change _ ∧ _ = (A64.addSub op (x.setWidth 32) (y.setWidth 32)).2 ↔ _
      cases op with
      | false =>
          change (x + y).toNat < 2 ^ 32 ∧ _ ↔ _
          constructor
          · exact fun h => (addFlags_narrow_iff x y h.1).mp h.2
          · intro hword
            have hfits : (x + y).toNat < 2 ^ 32 := by
              have hlt : (x + y).toNat < 2 ^ 31 := hword.1
              omega
            exact ⟨hfits, (addFlags_narrow_iff x y hfits).mpr hword⟩
      | true =>
          change (x - y).toNat < 2 ^ 32 ∧ _ ↔ _
          constructor
          · exact fun h => (subFlags_narrow_iff x y h.1).mp h.2
          · intro hword
            have hfits : (x - y).toNat < 2 ^ 32 := by
              have hlt : (x - y).toNat < 2 ^ 31 := hword.1
              omega
            exact ⟨hfits, (subFlags_narrow_iff x y hfits).mpr hword⟩

/-- The 32-bit operation looks at the low halves of its operands alone. -/
theorem addSubSized_congr (op : Bool) {z : BitVec 64} (hlow : y.setWidth 32 = z.setWidth 32) :
    A64.addSubSized false op x y = A64.addSubSized false op x z := by
  simp only [A64.addSubSized, Bool.false_eq_true, if_false, hlow]

theorem setWidth_sized : (A64.sized false y).setWidth 32 = y.setWidth 32 := by
  apply BitVec.eq_of_toNat_eq
  simp only [A64.sized, Bool.false_eq_true, if_false, BitVec.toNat_setWidth]
  omega

/-- Where the code finds `y` for the second operand `z`, the low halves of the two have to agree. -/
theorem setWidth_eq_of_addSub_eq {op : Bool} {z : BitVec 64}
    (h : (A64.addSub op x y).1 = (A64.addSubSized false op x z).1) :
    y.setWidth 32 = z.setWidth 32 := by
  have hlow := congrArg (BitVec.setWidth 32) h
  change _ = (((A64.addSub op (x.setWidth 32) (z.setWidth 32)).1).setWidth 64).setWidth 32 at hlow
  rw [addSub_setWidth, BitVec.setWidth_setWidth_of_le _ (by decide), BitVec.setWidth_eq] at hlow
  apply BitVec.eq_of_toNat_eq
  have hnat := congrArg BitVec.toNat hlow
  cases op with
  | false =>
      simp only [A64.addSub_false, BitVec.toNat_setWidth, BitVec.toNat_add] at hnat ⊢
      omega
  | true =>
      simp only [A64.addSub_true (n := 64) (by decide), BitVec.toNat_setWidth, BitVec.toNat_sub]
        at hnat ⊢
      omega

end Sizes

/-! ### Instructions -/

/-- The 32-bit additions, subtractions and conjunctions of general registers, without shifts. -/
def isNarrow : A64.Instr → Bool
  | .addSubImm sf _ _ _ _ rn rd => !sf && rn != 31 && rd != 31
  | .addSubShifted sf _ _ shift rm imm6 rn rd =>
      !sf && shift != 3 && imm6 == 0 && rm != 31 && rn != 31 && rd != 31
  | .logicalShifted sf opc _ n rm imm6 rn rd =>
      !sf && opc == 0 && !n && imm6 == 0 && rm != 31 && rn != 31 && rd != 31
  | _ => false

/-- The condition on the guest under which the code of a 32-bit instruction is right. -/
def FitsNarrow (g : A64.State) : A64.Instr → Prop
  | .addSubImm _ op setsFlags sh imm12 rn _ =>
      FitsWord op setsFlags (g.x rn) (immediateOperand sh imm12)
  | .addSubShifted _ op setsFlags _ rm _ rn rd =>
      (rd = rm → (g.x rn).setWidth 32 = (g.x rm).setWidth 32) ∧
        FitsWord op setsFlags (g.x rn) (if rd = rm then g.x rn else g.x rm)
  | .logicalShifted _ _ _ _ rm _ rn _ => (g.x rn &&& g.x rm).toNat < 2 ^ 32
  | _ => True

section Blocks

variable {input : TranslateInput} {c : Compiler} {start : Address} {t : Translation} {entry : Nat}
  {s : LoopState}

/-- What the code of an addition or subtraction of an immediate leaves in the host. -/
theorem Succeeds.addSubImm (h : Succeeds input c start t entry) (hgenerated : input.table.Generated)
    {sf op setsFlags sh : Bool} {imm12 : BitVec 12} {rn rd : A64.Register}
    (hat : AtInstruction input c start s (.addSubImm sf op setsFlags sh imm12 rn rd)) :
    ∃ p, s.translateOpcode (addSubImmMetadata sf op setsFlags)
        (input.memory.word s.guestAddress) = s.withCompiler (s.compiler.apply p) ∧
      ∀ {base : Address} {host : State} {g : A64.State},
        Holds base s.compiler.allocator host g ∅ →
        p.allocator.Wf ∧ Holds base p.allocator (execAll host (instrsOf p.macros))
          (g.writeSum setsFlags rd (A64.addSub op (g.x rn) (immediateOperand sh imm12))) ∅ := by
  obtain ⟨⟨k, limit, hreach, hin⟩, hword⟩ := hat
  have houtcome : (addSubImmMetadata sf op setsFlags).outcome = .continues := by
    cases sf <;> cases op <;> rfl
  have huntrapped : isTrapped input.engineFlags (addSubImmMetadata sf op setsFlags) = false := by
    cases op <;> cases setsFlags <;>
      simp [isTrapped, addSubImmMetadata, addSubName, Metadata.nameStarts]
  obtain ⟨p, hplan, hswitch⟩ :=
    h.planned hreach hin (decode_addSubImm hgenerated hword).1 huntrapped houtcome
  have hwf := (h.mapped_touched hreach (h.runs hreach)).1
  rw [plan_addSubImm hgenerated hword] at hplan
  exact ⟨p, hswitch, fun hholds => hholds.planAddSubImm hwf (immediateOperand_lt sh imm12) hplan⟩

theorem sized_and (x y : BitVec 64) :
    A64.sized false (x &&& A64.sized false y) = ((x &&& y).setWidth 32).setWidth 64 := by
  have hlow : (x &&& A64.sized false y).setWidth 32 = (x &&& y).setWidth 32 := by
    rw [BitVec.setWidth_and, setWidth_sized, BitVec.setWidth_and]
  simp only [A64.sized, Bool.false_eq_true, if_false] at hlow ⊢
  rw [hlow]

/-- **32-bit forms.** In a block that touches at most nine registers, the macros of a 32-bit
instruction perform it exactly if its operands fit. -/
theorem Succeeds.narrow_performs_iff (h : Succeeds input c start t entry)
    (hgenerated : input.table.Generated) (hnine : {a | Touches input c start a}.ncard ≤ 9)
    {i : A64.Instr} (hat : AtInstruction input c start s i) (hnarrow : isNarrow i = true) :
    ∃ metadata p js, balDecodeArm64 input.table (input.memory.word s.guestAddress) = some metadata ∧
      s.translateOpcode metadata (input.memory.word s.guestAddress) =
        s.withCompiler (s.compiler.apply p) ∧
      CodeUpTo c start s js ∧
      (∀ {base : Address} {host : State} {g : A64.State}, Holds base .reset host g ∅ →
        ∃ g', Holds base s.compiler.allocator (execAll host js) g' ∅) ∧
      ∀ {base : Address} {host : State} {g : A64.State} (access : A64.TagAccess),
        Holds base s.compiler.allocator host g ∅ →
        (p.Performs base host access i g ↔ FitsNarrow g i) := by
  obtain ⟨⟨k, limit, hreach, hin⟩, hword⟩ := hat
  obtain ⟨js, hcode, hguest⟩ := h.guestUpTo hreach (h.runs hreach)
  cases i with
  | addSubImm sf op setsFlags sh imm12 rn rd =>
      simp only [isNarrow, Bool.and_eq_true, Bool.not_eq_true', bne_iff_ne] at hnarrow
      obtain ⟨⟨rfl, hrn⟩, hrd⟩ := hnarrow
      obtain ⟨p, hswitch, hleaves⟩ := h.addSubImm hgenerated ⟨⟨k, limit, hreach, hin⟩, hword⟩
      refine ⟨_, p, js, (decode_addSubImm hgenerated hword).1, hswitch, hcode, hguest, ?_⟩
      intro base host g access hholds
      obtain ⟨hwf, hleft⟩ := hleaves hholds
      rw [p.performs_iff hwf hleft rfl, A64.State.sameRegisters_advance,
        A64.State.sameRegisters_writeSum g hrd]
      exact addSub_narrow_iff _ _ op setsFlags
  | addSubShifted sf op setsFlags shift rm imm6 rn rd =>
      simp only [isNarrow, Bool.and_eq_true, Bool.not_eq_true', bne_iff_ne, beq_iff_eq] at hnarrow
      obtain ⟨⟨⟨⟨⟨rfl, hshift⟩, rfl⟩, hrm⟩, hrn⟩, hrd⟩ := hnarrow
      obtain ⟨p, hswitch, hleaves⟩ :=
        h.addSubReg hgenerated hnine ⟨⟨k, limit, hreach, hin⟩, hword⟩ hrm
      refine ⟨_, p, js, (decode_addSubShifted hgenerated hword).1, hswitch, hcode, hguest, ?_⟩
      intro base host g access hholds
      obtain ⟨hwf, hleft⟩ := hleaves hholds
      rw [p.performs_iff hwf hleft
          (exec_addSubShifted hshift hrn hrm (fun heq => absurd heq hrd) access g),
        A64.State.sameRegisters_advance, A64.State.sameRegisters_writeSum g hrd,
        addSubSized_congr _ _ op (setWidth_sized (g.x rm))]
      constructor
      · rintro ⟨hresult, hflags⟩
        have hlow := setWidth_eq_of_addSub_eq _ _ hresult
        rw [← addSubSized_congr _ _ op hlow] at hresult hflags
        refine ⟨fun hsame => ?_, (addSub_narrow_iff _ _ op setsFlags).mp ⟨hresult, hflags⟩⟩
        rwa [if_pos hsame] at hlow
      · rintro ⟨hlow, hfits⟩
        have hfound : (if rd = rm then g.x rn else g.x rm).setWidth 32 = (g.x rm).setWidth 32 := by
          split
          · next hsame => exact hlow hsame
          · rfl
        rw [← addSubSized_congr _ _ op hfound]
        exact (addSub_narrow_iff _ _ op setsFlags).mpr hfits
  | logicalShifted sf opc shift n rm imm6 rn rd =>
      simp only [isNarrow, Bool.and_eq_true, Bool.not_eq_true', bne_iff_ne, beq_iff_eq] at hnarrow
      obtain ⟨⟨⟨⟨⟨⟨rfl, rfl⟩, rfl⟩, rfl⟩, hrm⟩, hrn⟩, hrd⟩ := hnarrow
      obtain ⟨p, hswitch, hleaves⟩ :=
        h.andReg hgenerated hnine ⟨⟨k, limit, hreach, hin⟩, hword⟩ hrd
      refine ⟨_, p, js, (decode_andShifted hgenerated hword).1, hswitch, hcode, hguest, ?_⟩
      intro base host g access hholds
      obtain ⟨hwf, hleft⟩ := hleaves hholds
      rw [p.performs_iff hwf hleft (exec_andShifted false hrn hrm hrd access g),
        A64.State.sameRegisters_advance, A64.State.sameRegisters_setX, sized_and]
      exact eq_narrow_iff _
  | _ => cases hnarrow

end Blocks

/-- The block of `ADD W0, W1, #1`. -/
theorem narrow_performs_iff_add : ∃ t, ∃ p : Plan,
    Succeeds (.ofWords 0x1000 [0x11000420] 1) (.fresh 256) 0x1000 t 0 ∧
      ∀ {base : Address} {host : State} {g : A64.State} (access : A64.TagAccess),
        Holds base .reset host g ∅ →
        (p.Performs base host access (.addSubImm false false false false 1 1 0) g ↔
          FitsNarrow g (.addSubImm false false false false 1 1 0)) := by
  obtain ⟨t, -, h⟩ := succeeds_of_eval (.ofWords 0x1000 [0x11000420] 1) (.fresh 256) 0x1000 6
    (show _ = some 0 by decide)
  have hnine := ncard_touches_ofWords 0x1000 [0x11000420] 1 (.fresh 256) (by decide)
  have hcard : (registersOf [0x11000420]).toFinset.card ≤ 9 := by decide
  have hreadable : Readable (.ofWords 0x1000 [0x11000420] 1) 0x1000 4 :=
    ⟨by decide, by decide, by decide⟩
  have hat : AtInstruction (.ofWords 0x1000 [0x11000420] 1) (.fresh 256) 0x1000
      (startState (.fresh 256) 0x1000) (.addSubImm false false false false 1 1 0) :=
    atInstruction_start (.fresh 256) (by decide) hreadable (by decide)
  obtain ⟨-, p, -, -, -, -, -, hperforms⟩ :=
    h.narrow_performs_iff generatedTable_generated (hnine.trans hcard) hat (by decide)
  exact ⟨t, p, h, hperforms⟩

/-- The CPU record at zero with `X1 = 0xFFFFFFFF`. -/
def wideRecord : State :=
  { someCall 0 with memory := fun a => if 8 ≤ a.toNat ∧ a.toNat < 12 then 0xFF else 0 }

theorem wideRecord_call : Call wideRecord 0 0 := ⟨rfl, rfl, (someCall_call 0).disjoint⟩

/-- `ADD W0, W1, #1`, then `RET`: the carry goes into the upper half of `X0`. -/
theorem carries_addW : ∃ t u g,
    Succeeds (.ofWords 0x1000 [0x11000420, 0xD65F03C0] 8) (.fresh 256) 0x1000 t 0 ∧
      {a | Touches (.ofWords 0x1000 [0x11000420, 0xD65F03C0] 8) (.fresh 256) 0x1000 a}.ncard ≤ 9 ∧
      A64.decode 0x11000420 = some (.addSubImm false false false false 1 1 0) ∧
      Call wideRecord 0 0 ∧ runToRet t.compiler.assembler.buffer 40 wideRecord = some u ∧
      (A64.Instr.addSubImm false false false false 1 1 0).exec ⟨false, 0⟩
        (cpuState wideRecord.memory 0) = some g ∧
      g.x 0 = 0 ∧ (cpuState u.memory 0).x 0 = 0x100000000 := by
  obtain ⟨t, htranslate, h⟩ := succeeds_of_eval
    (.ofWords 0x1000 [0x11000420, 0xD65F03C0] 8) (.fresh 256) 0x1000 6
    (show _ = some 0 by decide)
  have hnine := ncard_touches_ofWords 0x1000 [0x11000420, 0xD65F03C0] 8 (.fresh 256) (by decide)
  have hcard : (registersOf [0x11000420, 0xD65F03C0]).toFinset.card ≤ 9 := by decide
  have hrun : ((balTier1CompilerTranslate (.ofWords 0x1000 [0x11000420, 0xD65F03C0] 8) (.fresh 256)
      0x1000 6).bind fun t => (runToRet t.compiler.assembler.buffer 40 wideRecord).map
        fun u => (cpuState u.memory 0).x 0) = some 0x100000000 := by
    decide
  rw [htranslate, Option.bind_some, Option.map_eq_some_iff] at hrun
  obtain ⟨u, hrun, hx⟩ := hrun
  exact ⟨t, u, _, h, hnine.trans hcard, by decide, wideRecord_call, hrun, rfl, by decide, hx⟩

end Ballistic
