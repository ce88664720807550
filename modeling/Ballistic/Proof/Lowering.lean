import Ballistic.Proof.Encoding
import Ballistic.SlidingWindow

/-!
# From macros to code

`Macro.instrs` is the meaning of a macro as a list of instructions. An assembler that has not failed
holds exactly the code of what was emitted (`Emitted`), and a window that is pushed into and flushed
any number of times has the effect of the pushed macros in order (`slidingWindowPush_code`): a full
window moves code from the window to the buffer, and the peephole pass only drops moves that change
nothing.
-/

namespace Ballistic

open Machine Machine.X86

/-! ### Writing to the buffer -/

theorem storeBytes_below {buffer : Nat → Byte} {start k : Nat} (bytes : List Byte) (h : k < start) :
    storeBytes buffer start bytes k = buffer k := by
  rw [storeBytes, if_neg (by omega)]

theorem bytesAt_storeBytes (buffer : Nat → Byte) (start : Nat) (bytes : List Byte) :
    BytesAt (storeBytes buffer start bytes) start bytes := by
  intro k hk
  rw [storeBytes, if_pos (by omega), Nat.add_sub_cancel_left]
  simp [List.getD_eq_getElem?_getD, hk]

/-- `a'` is `a` with code for `is` appended. -/
structure Emitted (a a' : Assembler) (is : List Instr) : Prop where
  capacity_eq : a'.capacity = a.capacity
  below : ∀ k < a.offset, a'.buffer k = a.buffer k
  code : CodeAt a'.buffer a.offset is a'.offset
  fits : is ≠ [] → a.offset ≤ a.capacity

namespace Emitted

theorem refl (a : Assembler) : Emitted a a [] := ⟨rfl, fun _ _ => rfl, rfl, fun h => absurd rfl h⟩

theorem trans {a b c : Assembler} {is js : List Instr} (hab : Emitted a b is)
    (hbc : Emitted b c js) : Emitted a c (is ++ js) := by
  have hle := hab.code.le
  refine ⟨hbc.capacity_eq.trans hab.capacity_eq, fun k hk => ?_, ?_, fun hne => ?_⟩
  · rw [hbc.below k (by omega), hab.below k hk]
  · exact (hab.code.congr fun k _ hk => hbc.below k hk).append hbc.code
  · by_cases hnil : is = []
    · subst hnil
      have hoffset : a.offset = b.offset := hab.code
      rw [hoffset, ← hab.capacity_eq]
      exact hbc.fits hne
    · exact hab.fits hnil

theorem offset_le {a a' : Assembler} {is : List Instr} (h : Emitted a a' is) :
    a.offset ≤ a'.offset := h.code.le

/-- Code that was there before stays. -/
theorem codeAt {a a' : Assembler} {is js : List Instr} {start stop : Nat} (h : Emitted a a' is)
    (hcode : CodeAt a.buffer start js stop) (hstop : stop ≤ a.offset) :
    CodeAt a'.buffer start js stop := hcode.congr fun k _ hk => h.below k (by omega)

end Emitted

theorem emitted_write {a : Assembler} {i : Instr} {bytes : List Byte} (hencodes : Encodes i bytes)
    {size : Nat} (hroom : a.canEmit size = true) : Emitted a (a.write bytes) [i] := by
  refine ⟨rfl, fun _ hk => storeBytes_below bytes hk,
    ⟨bytes, hencodes, bytesAt_storeBytes a.buffer a.offset bytes, rfl⟩, fun _ => ?_⟩
  simp only [Assembler.canEmit, Bool.and_eq_true, Bool.not_eq_true', decide_eq_false_iff_not] at hroom
  omega

/-! ### One emitter -/

namespace Assembler

variable {a : Assembler} {poisons : Bool} {encoding : Option Encoding}

/-- An emitter that ends in success wrote its bytes. -/
theorem emit_success (h : (a.emit poisons encoding).status = .success) :
    a.status = .success ∧ ∃ e, encoding = some e ∧ a.canEmit e.instructionSizeBytes = true ∧
      a.emit poisons encoding = a.write e.bytes := by
  unfold emit at h ⊢
  by_cases hstatus : a.status = .success
  · cases encoding with
    | none => simp [hstatus] at h
    | some e =>
        by_cases hroom : a.canEmit e.instructionSizeBytes = true
        · exact ⟨hstatus, e, rfl, hroom, by simp [hstatus, hroom]⟩
        · simp [hstatus, hroom] at h
  · cases poisons <;> simp [hstatus] at h

theorem emit_failed (h : a.status ≠ .success) : (a.emit poisons encoding).status ≠ .success :=
  fun hsuccess => h (emit_success hsuccess).1

theorem emitted_emit {i : Instr} (h : (a.emit poisons encoding).status = .success)
    (hencodes : ∀ e, encoding = some e → Encodes i e.bytes) :
    Emitted a (a.emit poisons encoding) [i] := by
  obtain ⟨-, e, he, hroom, hwrite⟩ := emit_success h
  rw [hwrite]
  exact emitted_write (hencodes e he) hroom

end Assembler

/-! ### The meaning of macros -/

/-- The instructions a macro stands for; none if an operand is invalid. -/
def Macro.instrs (m : Macro) : List Instr :=
  let unary (f : Reg → List Instr) : List Instr := m.destination.elim [] f
  let binary (f : Reg → Reg → List Instr) : List Instr :=
    m.destination.elim [] fun d => m.source.elim [] (f d)
  let immediate32 := m.immediateOrOffset.setWidth 32
  let immediate8 := m.immediateOrOffset.setWidth 8
  match m.opcode with
  | .nop | .ret | .testRegisterRegister => []
  | .addCpuIcount => [.addMemImm (BitVec.ofNat 32 offsetInstructionCount) immediate32]
  | .addRegisterImmediate => unary fun d => [.addImm d immediate32]
  | .addRegisterRegister => binary fun d s => [.alu .add d s]
  | .andRegisterImmediate => unary fun d => [.movImm .r11 m.immediateOrOffset, .alu .and d .r11]
  | .andRegisterRegister => binary fun d s => [.alu .and d s]
  | .jccRelative => [.jcc m.condition immediate32]
  | .jmpRegister => unary fun d => [.jmp d]
  | .jmpRelative => [.jmpRel immediate32]
  | .load => unary fun d => [.load d immediate32]
  | .movRegisterImmediate => unary fun d => [.movImm d m.immediateOrOffset]
  | .movRegisterRegister => binary fun d s => [.mov d s]
  | .orRegisterImmediate => unary fun d => [.movImm .r11 m.immediateOrOffset, .alu .or d .r11]
  | .orRegisterRegister => binary fun d s => [.alu .or d s]
  | .rorRegisterImmediate => unary fun d => [.shift .ror d immediate8]
  | .sarRegisterImmediate => unary fun d => [.shift .sar d immediate8]
  | .setcc => [.setcc m.condition immediate32]
  | .shlRegisterImmediate => unary fun d => [.shift .shl d immediate8]
  | .shrRegisterImmediate => unary fun d => [.shift .shr d immediate8]
  | .store => m.source.elim [] fun s => [.store s immediate32]
  | .subRegisterImmediate => unary fun d => [.subImm d immediate32]
  | .subRegisterRegister => binary fun d s => [.alu .sub d s]
  | .ud2 => [.ud2]
  | .xorRegisterRegister => binary fun d s => [.alu .xor d s]

/-- The instructions of a list of macros, in order. -/
def instrsOf (macros : List Macro) : List Instr := macros.flatMap Macro.instrs

@[simp]
theorem instrsOf_nil : instrsOf [] = [] := rfl

@[simp]
theorem instrsOf_cons (m : Macro) (macros : List Macro) :
    instrsOf (m :: macros) = m.instrs ++ instrsOf macros := rfl

@[simp]
theorem instrsOf_append (ms ns : List Macro) :
    instrsOf (ms ++ ns) = instrsOf ms ++ instrsOf ns := List.flatMap_append

/-! ### Emitters as emitted instructions -/

namespace Assembler

variable {a : Assembler}

/-- The frame of an emitter with two register operands. -/
theorem emitted_registerForm {poisons : Bool} {opcode : Byte} {d s : X86Register}
    {i : Reg → Reg → Instr}
    (hencodes : ∀ d s, Encodes (i d s)
      [rex 1 (d.number / 8) (s.number / 8), opcode, modrmRegister d.number s.number])
    (h : (a.emit poisons (registerForm opcode d s)).status = .success) :
    ∃ d' s', d = some d' ∧ s = some s' ∧
      Emitted a (a.emit poisons (registerForm opcode d s)) [i d' s'] := by
  obtain ⟨-, e, he, -, -⟩ := emit_success h
  obtain ⟨d', s', rfl, rfl, -⟩ := registerForm_eq_some he
  refine ⟨d', s', rfl, rfl, emitted_emit h fun e he => ?_⟩
  obtain ⟨d, s, hd, hs, hbytes⟩ := registerForm_eq_some he
  cases hd
  cases hs
  rw [hbytes]
  exact hencodes d' s'

theorem emitted_alu (op : AluOp) {poisons : Bool} {d s : X86Register}
    (h : (a.emit poisons (registerForm (aluOpcode op) d s)).status = .success) :
    ∃ d' s', d = some d' ∧ s = some s' ∧
      Emitted a (a.emit poisons (registerForm (aluOpcode op) d s)) [.alu op d' s'] :=
  emitted_registerForm (encodes_alu op) h

theorem emitted_movR64R64 {d s : X86Register} (h : (a.emitMovR64R64 d s).status = .success) :
    ∃ d' s', d = some d' ∧ s = some s' ∧ Emitted a (a.emitMovR64R64 d s) [.mov d' s'] :=
  emitted_registerForm encodes_mov h

/-- The frame of an emitter with one register operand. -/
theorem emitted_unary {poisons : Bool} {d : X86Register} {encoding : Reg → Encoding}
    {i : Reg → Instr} (hencodes : ∀ d, Encodes (i d) (encoding d).bytes)
    (h : (a.emit poisons (d.map encoding)).status = .success) :
    ∃ d', d = some d' ∧ Emitted a (a.emit poisons (d.map encoding)) [i d'] := by
  obtain ⟨-, e, he, -, -⟩ := emit_success h
  obtain ⟨d', rfl, rfl⟩ := Option.map_eq_some_iff.mp he
  refine ⟨d', rfl, emitted_emit h fun e he => ?_⟩
  cases he
  exact hencodes d'

/-- The frame of an emitter without register operands. -/
theorem emitted_fixed {poisons : Bool} {e : Encoding} {i : Instr} (hencodes : Encodes i e.bytes)
    (h : (a.emit poisons (some e)).status = .success) :
    Emitted a (a.emit poisons (some e)) [i] := by
  refine emitted_emit h fun e' he => ?_
  cases he
  exact hencodes

theorem emitted_movR64Imm64 {d : X86Register} {v : BitVec 64}
    (h : (a.emitMovR64Imm64 d v).status = .success) :
    ∃ d', d = some d' ∧ Emitted a (a.emitMovR64Imm64 d v) [.movImm d' v] := by
  refine emitted_unary (i := fun d => .movImm d v) (fun d => ?_) h
  have hencodes := encodes_movImm d v
  split at hencodes <;> next hsize => simpa only [hsize, if_true, if_false] using hencodes

theorem emitted_loadR64RbpOffset {d : X86Register} {offset : BitVec 32}
    (h : (a.emitLoadR64RbpOffset d offset).status = .success) :
    ∃ d', d = some d' ∧ Emitted a (a.emitLoadR64RbpOffset d offset) [.load d' offset] :=
  emitted_unary (fun d => encodes_load d offset) h

theorem emitted_storeR64RbpOffset {d : X86Register} {offset : BitVec 32}
    (h : (a.emitStoreR64RbpOffset d offset).status = .success) :
    ∃ d', d = some d' ∧ Emitted a (a.emitStoreR64RbpOffset d offset) [.store d' offset] :=
  emitted_unary (fun d => encodes_store d offset) h

theorem emitted_addR64Imm32 {d : X86Register} {v : BitVec 32}
    (h : (a.emitAddR64Imm32 d v).status = .success) :
    ∃ d', d = some d' ∧ Emitted a (a.emitAddR64Imm32 d v) [.addImm d' v] :=
  emitted_unary (fun d => encodes_addImm d v) h

theorem emitted_subR64Imm32 {d : X86Register} {v : BitVec 32}
    (h : (a.emitSubR64Imm32 d v).status = .success) :
    ∃ d', d = some d' ∧ Emitted a (a.emitSubR64Imm32 d v) [.subImm d' v] :=
  emitted_unary (fun d => encodes_subImm d v) h

theorem emitted_pushR64 {d : X86Register} (h : (a.emitPushR64 d).status = .success) :
    ∃ d', d = some d' ∧ Emitted a (a.emitPushR64 d) [.push d'] :=
  emitted_unary (fun d => encodes_push d) h

theorem emitted_popR64 {d : X86Register} (h : (a.emitPopR64 d).status = .success) :
    ∃ d', d = some d' ∧ Emitted a (a.emitPopR64 d) [.pop d'] :=
  emitted_unary (fun d => encodes_pop d) h

theorem emitted_jmpR64 {d : X86Register} (h : (a.emitJmpR64 d).status = .success) :
    ∃ d', d = some d' ∧ Emitted a (a.emitJmpR64 d) [.jmp d'] :=
  emitted_unary (fun d => encodes_jmp d) h

theorem emitted_ret (h : a.emitRet.status = .success) : Emitted a a.emitRet [.ret] :=
  emitted_fixed encodes_ret h

theorem emitted_setcc {condition : Condition} {offset : BitVec 32}
    (h : (a.emitSetccMem8RbpOffset condition offset).status = .success) :
    Emitted a (a.emitSetccMem8RbpOffset condition offset) [.setcc condition offset] :=
  emitted_fixed (encodes_setcc condition offset) h

theorem emitted_jcc {condition : Condition} {offset : BitVec 32}
    (h : (a.emitJccRel32 condition offset).status = .success) :
    Emitted a (a.emitJccRel32 condition offset) [.jcc condition offset] :=
  emitted_fixed (encodes_jcc condition offset) h

theorem emitted_cmpMem8 {offset : BitVec 32} {v : Byte}
    (h : (a.emitCmpMem8RbpOffsetImm offset v).status = .success) :
    Emitted a (a.emitCmpMem8RbpOffsetImm offset v) [.cmpMem8 offset v] :=
  emitted_fixed (encodes_cmpMem8 offset v) h

theorem emitted_addMem64 {offset v : BitVec 32}
    (h : (a.emitAddMem64RbpOffsetImm offset v).status = .success) :
    Emitted a (a.emitAddMem64RbpOffsetImm offset v) [.addMemImm offset v] := by
  refine emitted_fixed (encodes_addMemImm offset v _ fun hfits => ?_) h
  simpa only [Bool.and_eq_true, decide_eq_true_eq] using hfits

theorem emitted_shift (op : ShiftOp) {n : BitVec 3} (hop : ShiftOp.ofExtension n = some op)
    {d : X86Register} {i : Byte} (h : (a.emitShiftR64Imm8 d i n.toNat).status = .success) :
    ∃ d', d = some d' ∧ Emitted a (a.emitShiftR64Imm8 d i n.toNat) [.shift op d' i] := by
  obtain ⟨-, e, he, -, -⟩ := emit_success h
  obtain ⟨d', rfl, -⟩ := Option.bind_eq_some_iff.mp he
  refine ⟨d', rfl, emitted_emit h fun e he => ?_⟩
  simp only [Option.bind_some] at he
  split at he
  · cases he
  · cases he
    exact encodes_shift hop d' i

end Assembler

/-! ### Flushing -/

theorem flushSingleMacro_failed {a : Assembler} (m : Macro) (h : a.status ≠ .success) :
    flushSingleMacro a m = a := by
  rw [flushSingleMacro, if_pos h]

theorem checkBranchOffset_success {a : Assembler} {offset : BitVec 64}
    {emit : BitVec 32 → Assembler} (h : (checkBranchOffset a offset emit).status = .success) :
    checkBranchOffset a offset emit = emit (offset.setWidth 32) := by
  unfold checkBranchOffset at h ⊢
  split at h
  · next hsmall => rw [if_pos hsmall]
  · simp at h

/-- A macro that is flushed without failure has appended its instructions. -/
theorem flushSingleMacro_emitted {a : Assembler} {m : Macro}
    (h : (flushSingleMacro a m).status = .success) :
    Emitted a (flushSingleMacro a m) m.instrs := by
  have hstatus : a.status = .success := by
    by_contra hfailed
    rw [flushSingleMacro_failed m hfailed] at h
    exact hfailed h
  unfold flushSingleMacro at h ⊢
  simp only [hstatus, ne_eq, not_true_eq_false, if_false] at h ⊢
  obtain ⟨opcode, d, s, i, condition⟩ := m
  cases opcode with
  | nop | ret | testRegisterRegister => exact .refl a
  | addCpuIcount => exact Assembler.emitted_addMem64 h
  | addRegisterImmediate =>
      obtain ⟨d', rfl, hemitted⟩ := Assembler.emitted_addR64Imm32 h
      exact hemitted
  | subRegisterImmediate =>
      obtain ⟨d', rfl, hemitted⟩ := Assembler.emitted_subR64Imm32 h
      exact hemitted
  | movRegisterImmediate =>
      obtain ⟨d', rfl, hemitted⟩ := Assembler.emitted_movR64Imm64 h
      exact hemitted
  | load =>
      obtain ⟨d', rfl, hemitted⟩ := Assembler.emitted_loadR64RbpOffset h
      exact hemitted
  | store =>
      obtain ⟨s', rfl, hemitted⟩ := Assembler.emitted_storeR64RbpOffset h
      exact hemitted
  | addRegisterRegister =>
      obtain ⟨d', s', rfl, rfl, hemitted⟩ := Assembler.emitted_alu .add h
      exact hemitted
  | andRegisterRegister =>
      obtain ⟨d', s', rfl, rfl, hemitted⟩ := Assembler.emitted_alu .and h
      exact hemitted
  | orRegisterRegister =>
      obtain ⟨d', s', rfl, rfl, hemitted⟩ := Assembler.emitted_alu .or h
      exact hemitted
  | subRegisterRegister =>
      obtain ⟨d', s', rfl, rfl, hemitted⟩ := Assembler.emitted_alu .sub h
      exact hemitted
  | xorRegisterRegister =>
      obtain ⟨d', s', rfl, rfl, hemitted⟩ := Assembler.emitted_alu .xor h
      exact hemitted
  | movRegisterRegister =>
      obtain ⟨d', s', rfl, rfl, hemitted⟩ := Assembler.emitted_movR64R64 h
      exact hemitted
  | andRegisterImmediate =>
      have hmov := (Assembler.emit_success h).1
      obtain ⟨t, ht, hemitted⟩ := Assembler.emitted_movR64Imm64 hmov
      obtain ⟨d', t', rfl, ht', hemitted'⟩ := Assembler.emitted_alu .and h
      cases ht
      cases ht'
      exact hemitted.trans hemitted'
  | orRegisterImmediate =>
      have hmov := (Assembler.emit_success h).1
      obtain ⟨t, ht, hemitted⟩ := Assembler.emitted_movR64Imm64 hmov
      obtain ⟨d', t', rfl, ht', hemitted'⟩ := Assembler.emitted_alu .or h
      cases ht
      cases ht'
      exact hemitted.trans hemitted'
  | jccRelative =>
      have hcheck := checkBranchOffset_success h
      simp only [hcheck] at h ⊢
      exact Assembler.emitted_jcc h
  | jmpRelative =>
      have hcheck := checkBranchOffset_success h
      simp only [hcheck] at h ⊢
      exact Assembler.emitted_fixed (encodes_jmpRel _) h
  | jmpRegister =>
      obtain ⟨d', rfl, hemitted⟩ := Assembler.emitted_jmpR64 h
      exact hemitted
  | rorRegisterImmediate =>
      obtain ⟨d', rfl, hemitted⟩ := Assembler.emitted_shift .ror (n := 1) rfl h
      exact hemitted
  | sarRegisterImmediate =>
      obtain ⟨d', rfl, hemitted⟩ := Assembler.emitted_shift .sar (n := 7) rfl h
      exact hemitted
  | shlRegisterImmediate =>
      obtain ⟨d', rfl, hemitted⟩ := Assembler.emitted_shift .shl (n := 4) rfl h
      exact hemitted
  | shrRegisterImmediate =>
      obtain ⟨d', rfl, hemitted⟩ := Assembler.emitted_shift .shr (n := 5) rfl h
      exact hemitted
  | setcc => exact Assembler.emitted_setcc h
  | ud2 => exact Assembler.emitted_fixed encodes_ud2 h

theorem flushMacros_failed {a : Assembler} (macros : List Macro) (h : a.status ≠ .success) :
    flushMacros a macros = a := by
  induction macros with
  | nil => rfl
  | cons m macros ih =>
      rw [flushMacros, List.foldl_cons, flushSingleMacro_failed m h]
      exact ih

theorem flushMacros_append (a : Assembler) (ms ns : List Macro) :
    flushMacros a (ms ++ ns) = flushMacros (flushMacros a ms) ns := List.foldl_append

theorem flushMacros_head {a : Assembler} {m : Macro} {macros : List Macro}
    (h : (flushMacros a (m :: macros)).status = .success) :
    (flushSingleMacro a m).status = .success := by
  by_contra hfailed
  rw [flushMacros, List.foldl_cons, ← flushMacros, flushMacros_failed macros hfailed] at h
  exact hfailed h

theorem flushMacros_emitted {a : Assembler} {macros : List Macro}
    (h : (flushMacros a macros).status = .success) :
    Emitted a (flushMacros a macros) (instrsOf macros) := by
  induction macros generalizing a with
  | nil => exact .refl a
  | cons m macros ih => exact (flushSingleMacro_emitted (flushMacros_head h)).trans (ih h)

/-! ### The window -/

theorem exec_mov_self (s : State) (d : Reg) : (Instr.mov d d).exec s = s := by
  simp [Instr.exec, State.set]

theorem exec_mov_twice (s : State) (d r : Reg) :
    (Instr.mov d r).exec ((Instr.mov d r).exec s) = (Instr.mov d r).exec s := by
  by_cases hsame : r = d
  · subst hsame
    rw [exec_mov_self, exec_mov_self]
  · simp [Instr.exec, State.set, Function.update_of_ne hsame]

/-- The peephole pass does not change what the window does. -/
theorem execAll_runPeepholeOptimizer (s : State) (before : List Macro) (m : Macro) :
    execAll s (instrsOf (runPeepholeOptimizer before m)) =
      execAll s (instrsOf (before ++ [m])) := by
  obtain ⟨opcode, d, r, i, condition⟩ := m
  unfold runPeepholeOptimizer
  split
  · next hidentity =>
      obtain ⟨hopcode, hdr⟩ := hidentity
      simp only at hopcode hdr
      subst hopcode hdr
      cases d <;> simp [Macro.instrs, exec_mov_self]
  · split
    · rfl
    · next macro2 hlast =>
        split
        · next hredundant =>
            obtain ⟨hopcode, hopcode2, hd, hr⟩ := hredundant
            obtain ⟨opcode2, d2, r2, i2, condition2⟩ := macro2
            simp only at hopcode hopcode2 hd hr
            subst hopcode hopcode2 hd hr
            have hsplit : before = before.dropLast ++ [⟨.movRegisterRegister, d, r, i2, condition2⟩] := by
              obtain ⟨front, rfl⟩ := List.getLast?_eq_some_iff.mp hlast
              simp
            conv_rhs => rw [hsplit]
            cases d <;> cases r <;> simp [Macro.instrs, exec_mov_twice]
        · rfl

/-- The macros left by the peephole pass stand for instructions of the macros before it. -/
theorem mem_runPeepholeOptimizer {before : List Macro} {m : Macro} {i : Instr}
    (h : i ∈ instrsOf (runPeepholeOptimizer before m)) : i ∈ instrsOf (before ++ [m]) := by
  unfold runPeepholeOptimizer at h
  split at h
  · simp only [instrsOf_append, instrsOf_cons, instrsOf_nil, Macro.instrs, List.append_nil,
      List.mem_append] at h ⊢
    exact .inl h
  · split at h
    · exact h
    · next macro2 hlast =>
        split at h
        · have hmem : ∀ n ∈ before.dropLast, n ∈ before := fun n hn => List.mem_of_mem_dropLast hn
          simp only [instrsOf, List.flatMap_append, List.flatMap_cons, List.flatMap_nil,
            Macro.instrs, List.nil_append, List.append_nil, List.mem_append,
            List.mem_flatMap] at h ⊢
          obtain ⟨n, hn, hi⟩ | hi := h
          · exact .inl ⟨n, hmem n hn, hi⟩
          · exact .inr hi
        · exact h

/-- **Pushing a macro.** If the assembler does not fail, the code it emits meanwhile, followed by
what is then in the window, acts like the window before followed by the macro. -/
theorem slidingWindowPush_code {a : Assembler} {w : SlidingWindow} {m : Macro}
    (h : (slidingWindowPush a w m).1.status = .success) :
    ∃ is, Emitted a (slidingWindowPush a w m).1 is ∧
      (∀ s, execAll s (is ++ instrsOf (slidingWindowPush a w m).2.macros) =
        execAll s (instrsOf w.macros ++ m.instrs)) ∧
      ∀ i ∈ is ++ instrsOf (slidingWindowPush a w m).2.macros,
        i ∈ instrsOf w.macros ++ m.instrs := by
  unfold slidingWindowPush at h ⊢
  split at h
  · next hfull =>
      simp only [hfull, dite_true] at h ⊢
      simp only [h, ne_eq, not_true_eq_false, if_false]
      refine ⟨instrsOf w.macros, flushMacros_emitted h, fun s => ?_, fun i hi => ?_⟩
      · rw [execAll_append, execAll_runPeepholeOptimizer, ← execAll_append]
        simp
      · rcases List.mem_append.mp hi with hi | hi
        · exact List.mem_append_left _ hi
        · have hm := mem_runPeepholeOptimizer hi
          simp only [List.nil_append, instrsOf_cons, instrsOf_nil, List.append_nil] at hm
          exact List.mem_append_right _ hm
  · next hroom =>
      simp only [hroom, dite_false] at h ⊢
      simp only [h, ne_eq, not_true_eq_false, if_false]
      refine ⟨[], .refl a, fun s => ?_, fun i hi => ?_⟩
      · rw [List.nil_append, execAll_runPeepholeOptimizer]
        simp
      · have hm := mem_runPeepholeOptimizer (List.nil_append (instrsOf _) ▸ hi)
        simpa only [instrsOf_append, instrsOf_cons, instrsOf_nil, List.append_nil] using hm

theorem slidingWindowPush_failed {a : Assembler} {w : SlidingWindow} {m : Macro}
    (h : a.status ≠ .success) : (slidingWindowPush a w m).1 = a := by
  unfold slidingWindowPush
  split
  · exact flushMacros_failed _ h
  · rfl

end Ballistic
