import Ballistic.Proof.Room

/-!
# Where the buffer ends

A list of emitter calls either fits into what is left of the buffer or has a first call that finds no
room. The assembler then keeps the overflow exactly if none of the calls after it is of the kind that
overwrites the status (`EndsQuietly`). A macro makes its calls only while the assembler has not failed,
so of the calls after a macro that ends the buffer only those of the same macro count.
-/

namespace Ballistic

open Machine Machine.X86

/-! ### Calls -/

namespace EmitCall

/-- The bytes that a call writes where there is room for them. -/
def written (call : EmitCall) : Nat := (call.apply ⟨fun _ => 0, 16, 0, .success⟩).offset

/-- The bytes that a call asks for. -/
def asked (call : EmitCall) : Nat := call.written - call.undercounts.toNat

/-- The operands of the call are accepted, and there is room for what it asks for. -/
def Fits (capacity offset : Nat) (call : EmitCall) : Prop :=
  call.instr.isSome = true ∧ offset + call.asked ≤ capacity

instance decidableFits (capacity offset : Nat) (call : EmitCall) :
    Decidable (call.Fits capacity offset) :=
  inferInstanceAs (Decidable (call.instr.isSome = true ∧ offset + call.asked ≤ capacity))

/-- The calls fit one after another. -/
def AllFit (capacity : Nat) : Nat → List EmitCall → Prop
  | _, [] => True
  | offset, call :: calls => call.Fits capacity offset ∧ AllFit capacity (offset + call.written) calls

instance decidableAllFit (capacity : Nat) :
    (offset : Nat) → (calls : List EmitCall) → Decidable (AllFit capacity offset calls)
  | _, [] => .isTrue trivial
  | offset, call :: calls =>
      have := decidableAllFit capacity (offset + call.written) calls
      inferInstanceAs (Decidable (call.Fits capacity offset ∧ _))

/-- The first call that does not fit finds no room, and none after it overwrites the status. -/
def EndsQuietly (capacity : Nat) : Nat → List EmitCall → Prop
  | _, [] => False
  | offset, call :: calls =>
      if call.Fits capacity offset then EndsQuietly capacity (offset + call.written) calls
      else call.instr.isSome = true ∧ ∀ later ∈ calls, later.poisons = false

instance decidableEndsQuietly (capacity : Nat) :
    (offset : Nat) → (calls : List EmitCall) → Decidable (EndsQuietly capacity offset calls)
  | _, [] => .isFalse id
  | offset, call :: calls =>
      have := decidableEndsQuietly capacity (offset + call.written) calls
      inferInstanceAs (Decidable (if call.Fits capacity offset then _ else _ ∧ _))

/-- The bytes of a list of calls. -/
def writtenAll (calls : List EmitCall) : Nat := (calls.map written).sum

@[simp]
theorem writtenAll_nil : writtenAll [] = 0 := rfl

@[simp]
theorem writtenAll_cons (call : EmitCall) (calls : List EmitCall) :
    writtenAll (call :: calls) = call.written + writtenAll calls := List.sum_cons

theorem writtenAll_append (calls calls' : List EmitCall) :
    writtenAll (calls ++ calls') = writtenAll calls + writtenAll calls' := by
  simp [writtenAll]

variable {a : Assembler} {capacity offset : Nat}

/-- A call whose operands are accepted writes an encoding of the size it is described by. -/
theorem exists_encoding (call : EmitCall) (h : call.instr.isSome = true) :
    ∃ e : Encoding, call.written = e.bytes.length ∧ call.asked = e.instructionSizeBytes ∧
      e.instructionSizeBytes ≤ e.bytes.length ∧
      ∀ a, call.apply a = a.emit call.poisons (some e) := by
  obtain ⟨encoding, hencoding, -, hemit⟩ := call.apply_eq_emit
  obtain ⟨i, hi⟩ := Option.isSome_iff_exists.mp h
  rw [hi] at hencoding
  obtain ⟨e, rfl, hencodes⟩ := hencoding.encodes
  have hlength := hencoding.length_eq
  have hshort := hencodes.1
  have hwritten : call.written = e.bytes.length := by
    have hcan : (⟨fun _ => 0, 16, 0, .success⟩ : Assembler).canEmit e.instructionSizeBytes = true := by
      rw [Assembler.canEmit_iff]
      simp only [sizeMax]
      omega
    rw [written, hemit, Assembler.emit, if_neg (by decide)]
    simp only [hcan, if_true, Assembler.write, Nat.zero_add]
  exact ⟨e, hwritten, by rw [asked, hwritten, hlength, Nat.add_sub_cancel], by omega, hemit⟩

/-- A call that fits writes its bytes. -/
theorem apply_fits (call : EmitCall) (hok : a.status = .success) (hsize : a.capacity ≤ sizeMax)
    (h : call.Fits a.capacity a.offset) :
    (call.apply a).status = .success ∧ (call.apply a).offset = a.offset + call.written ∧
      (call.apply a).capacity = a.capacity := by
  obtain ⟨haccepted, hroom⟩ := h
  obtain ⟨e, hwritten, hasked, -, hemit⟩ := call.exists_encoding haccepted
  rw [hasked] at hroom
  have hcan : a.canEmit e.instructionSizeBytes = true := by
    rw [Assembler.canEmit_iff]
    omega
  have hwrite : call.apply a = a.write e.bytes := by
    rw [hemit, Assembler.emit, if_neg (not_not.mpr hok)]
    exact if_pos hcan
  rw [hwrite, hwritten]
  exact ⟨hok, rfl, rfl⟩

/-- A call that does not fit fails. -/
theorem apply_unfit (call : EmitCall) (hok : a.status = .success)
    (h : ¬call.Fits a.capacity a.offset) :
    (call.apply a).status =
      if call.instr.isSome = true then .instructionOverflow else .invalidArgument := by
  by_cases haccepted : call.instr.isSome = true
  · obtain ⟨e, -, hasked, -, hemit⟩ := call.exists_encoding haccepted
    have hcannot : ¬a.canEmit e.instructionSizeBytes = true := by
      rw [Assembler.canEmit_iff, ← hasked]
      exact fun hcan => h ⟨haccepted, hcan.2⟩
    rw [hemit, Assembler.emit, if_neg (not_not.mpr hok), if_pos haccepted]
    simp only [if_neg hcannot]
  · obtain ⟨encoding, hencoding, -, hemit⟩ := call.apply_eq_emit
    rw [Option.not_isSome_iff_eq_none.mp haccepted] at hencoding ⊢
    cases hencoding
    rw [hemit, Assembler.emit, if_neg (not_not.mpr hok)]
    rfl

/-- Calls that fit write their bytes. -/
theorem applyAll_fits (calls : List EmitCall) (hok : a.status = .success)
    (hsize : a.capacity ≤ sizeMax) (h : AllFit a.capacity a.offset calls) :
    (calls.foldl apply a).status = .success ∧
      (calls.foldl apply a).offset = a.offset + writtenAll calls ∧
      (calls.foldl apply a).capacity = a.capacity := by
  induction calls generalizing a with
  | nil => exact ⟨hok, rfl, rfl⟩
  | cons call calls ih =>
      obtain ⟨hstatus, hoffset, hcapacity⟩ := call.apply_fits hok hsize h.1
      obtain ⟨hstatus', hoffset', hcapacity'⟩ := ih hstatus (hcapacity.trans_le hsize)
        (by rw [hcapacity, hoffset]; exact h.2)
      refine ⟨hstatus', ?_, hcapacity'.trans hcapacity⟩
      rw [List.foldl_cons, hoffset', hoffset, writtenAll_cons, Nat.add_assoc]

/-- **Where the buffer ends.** Calls that do not all fit leave the overflow, or the error that
overwrites it. -/
theorem applyAll_unfit (calls : List EmitCall) (hok : a.status = .success)
    (hsize : a.capacity ≤ sizeMax) (h : ¬AllFit a.capacity a.offset calls) :
    (calls.foldl apply a).status =
      if EndsQuietly a.capacity a.offset calls then .instructionOverflow else .invalidArgument := by
  induction calls generalizing a with
  | nil => exact absurd trivial h
  | cons call calls ih =>
      rw [List.foldl_cons]
      by_cases hfits : call.Fits a.capacity a.offset
      · obtain ⟨hstatus, hoffset, hcapacity⟩ := call.apply_fits hok hsize hfits
        have hrest := ih hstatus (hcapacity.trans_le hsize) fun hall =>
          h ⟨hfits, by rw [hcapacity, hoffset] at hall; exact hall⟩
        rw [hrest, hcapacity, hoffset]
        simp only [EndsQuietly, if_pos hfits]
      · have hunfit := call.apply_unfit hok hfits
        have hfailed : (call.apply a).status ≠ .success := by
          rw [hunfit]
          split <;> decide
        rw [applyAll_failed calls hfailed]
        simp only [EndsQuietly, if_neg hfits]
        by_cases hpoisons : calls.any poisons = true
        · rw [if_pos hpoisons, if_neg]
          rintro ⟨-, hnone⟩
          obtain ⟨later, hlater, hpoison⟩ := List.any_eq_true.mp hpoisons
          exact absurd (hnone later hlater) (by simp [hpoison])
        · rw [if_neg hpoisons, hunfit]
          have hnone : ∀ later ∈ calls, later.poisons = false := by
            rw [Bool.not_eq_true, List.any_eq_false] at hpoisons
            exact fun later hlater => Bool.eq_false_iff.mpr (hpoisons later hlater)
          by_cases haccepted : call.instr.isSome = true
          · rw [if_pos haccepted, if_pos ⟨haccepted, hnone⟩]
          · rw [if_neg haccepted, if_neg fun hends => haccepted hends.1]

theorem allFit_append {calls calls' : List EmitCall} :
    AllFit capacity offset (calls ++ calls') ↔
      AllFit capacity offset calls ∧ AllFit capacity (offset + writtenAll calls) calls' := by
  induction calls generalizing offset with
  | nil => simp [AllFit]
  | cons call calls ih =>
      rw [List.cons_append, AllFit, AllFit, ih, writtenAll_cons, Nat.add_assoc, and_assoc]

theorem allFit_append_singleton {calls : List EmitCall} {last : EmitCall} :
    AllFit capacity offset (calls ++ [last]) ↔
      AllFit capacity offset calls ∧ last.Fits capacity (offset + writtenAll calls) := by
  rw [allFit_append]
  exact and_congr_right fun _ => and_iff_left trivial

theorem EndsQuietly.not_allFit {calls : List EmitCall} (h : EndsQuietly capacity offset calls) :
    ¬AllFit capacity offset calls := by
  induction calls generalizing offset with
  | nil => exact h.elim
  | cons call calls ih =>
      rintro ⟨hfits, hall⟩
      rw [EndsQuietly, if_pos hfits] at h
      exact ih h hall

/-- Before a last call that overwrites the status, everything has to fit. -/
theorem endsQuietly_append_poisons {calls : List EmitCall} {last : EmitCall}
    (hpoisons : last.poisons = true) (haccepted : last.instr.isSome = true) :
    EndsQuietly capacity offset (calls ++ [last]) ↔
      AllFit capacity offset calls ∧ ¬last.Fits capacity (offset + writtenAll calls) := by
  induction calls generalizing offset with
  | nil =>
      simp only [List.nil_append, EndsQuietly, AllFit, writtenAll_nil, Nat.add_zero, true_and]
      split
      · next hfits => simp [hfits]
      · next hunfit => simp [hunfit, haccepted]
  | cons call calls ih =>
      rw [List.cons_append, EndsQuietly, AllFit, writtenAll_cons, ← Nat.add_assoc]
      split
      · next hfits => rw [ih, and_assoc, and_iff_right hfits]
      · next hunfit =>
          refine iff_of_false ?_ fun hall => hunfit hall.1.1
          rintro ⟨-, hnone⟩
          have hlast := hnone last (List.mem_append_right calls List.mem_cons_self)
          rw [hpoisons] at hlast
          cases hlast

end EmitCall

/-! ### Macros -/

/-- The calls that a macro is lowered to; nothing for the macros that the compiler never pushes. -/
def Macro.calls (m : Macro) : List EmitCall :=
  let immediate := m.immediateOrOffset
  match m.opcode with
  | .addCpuIcount => [.addMem64RbpOffsetImm (BitVec.ofNat 32 offsetInstructionCount) (immediate.setWidth 32)]
  | .addRegisterImmediate => [.addR64Imm32 m.destination (immediate.setWidth 32)]
  | .addRegisterRegister => [.addR64R64 m.destination m.source]
  | .andRegisterImmediate =>
      [.movR64Imm64 assemblerTemporaryRegister immediate,
        .andR64R64 m.destination assemblerTemporaryRegister]
  | .andRegisterRegister => [.andR64R64 m.destination m.source]
  | .load => [.loadR64RbpOffset m.destination (immediate.setWidth 32)]
  | .movRegisterImmediate => [.movR64Imm64 m.destination immediate]
  | .movRegisterRegister => [.movR64R64 m.destination m.source]
  | .orRegisterImmediate =>
      [.movR64Imm64 assemblerTemporaryRegister immediate,
        .orR64R64 m.destination assemblerTemporaryRegister]
  | .setcc => [.setccMem8RbpOffset m.condition (immediate.setWidth 32)]
  | .store => [.storeR64RbpOffset m.source (immediate.setWidth 32)]
  | .subRegisterImmediate => [.subR64Imm32 m.destination (immediate.setWidth 32)]
  | .subRegisterRegister => [.subR64R64 m.destination m.source]
  | _ => []

/-- A macro with a case in the switch of `flush_single_macro`, or the test, which has none. -/
def Macro.isLowered (m : Macro) : Bool :=
  match m.opcode with
  | .nop | .addCpuIcount | .setcc | .load | .addRegisterImmediate | .subRegisterImmediate
  | .movRegisterImmediate | .andRegisterImmediate | .orRegisterImmediate | .store
  | .addRegisterRegister | .subRegisterRegister | .andRegisterRegister | .movRegisterRegister
  | .testRegisterRegister => true
  | _ => false

theorem Macro.isLowered_of_isEmittable {m : Macro} (h : m.isEmittable = true) : m.isLowered = true := by
  obtain ⟨opcode, destination, source, immediate, condition⟩ := m
  cases opcode with
  | jccRelative | jmpRegister | jmpRelative | orRegisterRegister | ret | rorRegisterImmediate
  | sarRegisterImmediate | shlRegisterImmediate | shrRegisterImmediate | ud2
  | xorRegisterRegister => cases h
  | _ => rfl

/-- The macros fit one after another. -/
def MacrosFit (capacity offset : Nat) (macros : List Macro) : Prop :=
  EmitCall.AllFit capacity offset (macros.flatMap Macro.calls)

instance decidableMacrosFit (capacity offset : Nat) (macros : List Macro) :
    Decidable (MacrosFit capacity offset macros) :=
  inferInstanceAs (Decidable (EmitCall.AllFit _ _ _))

/-- The first macro that does not fit ends the buffer quietly. -/
def MacrosEndQuietly (capacity : Nat) : Nat → List Macro → Prop
  | _, [] => False
  | offset, m :: macros =>
      if EmitCall.AllFit capacity offset m.calls then
        MacrosEndQuietly capacity (offset + EmitCall.writtenAll m.calls) macros
      else EmitCall.EndsQuietly capacity offset m.calls

instance decidableMacrosEndQuietly (capacity : Nat) :
    (offset : Nat) → (macros : List Macro) → Decidable (MacrosEndQuietly capacity offset macros)
  | _, [] => .isFalse id
  | offset, m :: macros =>
      have := decidableMacrosEndQuietly capacity (offset + EmitCall.writtenAll m.calls) macros
      inferInstanceAs (Decidable (if EmitCall.AllFit capacity offset m.calls then _ else _))

section Macros

variable {a : Assembler} {capacity offset : Nat}

theorem flushSingleMacro_calls {m : Macro} (hm : m.isLowered = true) (hok : a.status = .success) :
    flushSingleMacro a m = m.calls.foldl EmitCall.apply a := by
  obtain ⟨opcode, destination, source, immediate, condition⟩ := m
  rw [flushSingleMacro, if_neg (not_not.mpr hok)]
  cases opcode with
  | jccRelative | jmpRegister | jmpRelative | orRegisterRegister | ret | rorRegisterImmediate
  | sarRegisterImmediate | shlRegisterImmediate | shrRegisterImmediate | ud2
  | xorRegisterRegister => cases hm
  | _ => rfl

theorem macrosFit_cons {m : Macro} {macros : List Macro} :
    MacrosFit capacity offset (m :: macros) ↔
      EmitCall.AllFit capacity offset m.calls ∧
        MacrosFit capacity (offset + EmitCall.writtenAll m.calls) macros := by
  rw [MacrosFit, List.flatMap_cons, EmitCall.allFit_append, MacrosFit]

theorem flushMacros_fits {macros : List Macro} (hmacros : ∀ m ∈ macros, m.isLowered = true)
    (hok : a.status = .success) (hsize : a.capacity ≤ sizeMax)
    (h : MacrosFit a.capacity a.offset macros) :
    (flushMacros a macros).status = .success ∧
      (flushMacros a macros).offset =
        a.offset + EmitCall.writtenAll (macros.flatMap Macro.calls) ∧
      (flushMacros a macros).capacity = a.capacity := by
  induction macros generalizing a with
  | nil => exact ⟨hok, rfl, rfl⟩
  | cons m macros ih =>
      obtain ⟨hm, hmacros⟩ := List.forall_mem_cons.mp hmacros
      obtain ⟨hfits, hrest⟩ := macrosFit_cons.mp h
      obtain ⟨hstatus, hoffset, hcapacity⟩ := EmitCall.applyAll_fits m.calls hok hsize hfits
      rw [← flushSingleMacro_calls hm hok] at hstatus hoffset hcapacity
      obtain ⟨hstatus', hoffset', hcapacity'⟩ := ih hmacros hstatus (hcapacity.trans_le hsize)
        (by rw [hcapacity, hoffset]; exact hrest)
      refine ⟨hstatus', ?_, hcapacity'.trans hcapacity⟩
      change (flushMacros (flushSingleMacro a m) macros).offset = _
      rw [hoffset', hoffset, List.flatMap_cons, EmitCall.writtenAll_append, Nat.add_assoc]

theorem flushMacros_unfit {macros : List Macro} (hmacros : ∀ m ∈ macros, m.isLowered = true)
    (hok : a.status = .success) (hsize : a.capacity ≤ sizeMax)
    (h : ¬MacrosFit a.capacity a.offset macros) :
    (flushMacros a macros).status =
      if MacrosEndQuietly a.capacity a.offset macros then .instructionOverflow
      else .invalidArgument := by
  induction macros generalizing a with
  | nil => exact absurd trivial h
  | cons m macros ih =>
      obtain ⟨hm, hmacros⟩ := List.forall_mem_cons.mp hmacros
      change (flushMacros (flushSingleMacro a m) macros).status = _
      rw [macrosFit_cons] at h
      rw [flushSingleMacro_calls hm hok]
      by_cases hfits : EmitCall.AllFit a.capacity a.offset m.calls
      · obtain ⟨hstatus, hoffset, hcapacity⟩ := EmitCall.applyAll_fits m.calls hok hsize hfits
        rw [ih hmacros hstatus (hcapacity.trans_le hsize) fun hall =>
          h ⟨hfits, by rw [hcapacity, hoffset] at hall; exact hall⟩, hcapacity, hoffset]
        simp only [MacrosEndQuietly, if_pos hfits]
      · have hunfit := EmitCall.applyAll_unfit m.calls hok hsize hfits
        have hfailed : (m.calls.foldl EmitCall.apply a).status ≠ .success := by
          rw [hunfit]
          split <;> decide
        rw [flushMacros_failed _ hfailed, hunfit]
        simp only [MacrosEndQuietly, if_neg hfits]

theorem MacrosEndQuietly.not_fit {macros : List Macro} (h : MacrosEndQuietly capacity offset macros) :
    ¬MacrosFit capacity offset macros := by
  induction macros generalizing offset with
  | nil => exact h.elim
  | cons m macros ih =>
      rw [macrosFit_cons]
      rintro ⟨hfits, hrest⟩
      rw [MacrosEndQuietly, if_pos hfits] at h
      exact ih h hrest

end Macros

/-! ### The window -/

/-- The macros that leave the window while `macros` are pushed, and the window after them. -/
def drain (window : List Macro) : List Macro → List Macro × List Macro
  | [] => ([], window)
  | m :: macros =>
      if window.length = slidingWindowCapacity then
        let p := drain (runPeepholeOptimizer [] m) macros
        (window ++ p.1, p.2)
      else drain (runPeepholeOptimizer window m) macros

/-- The macros that are pushed and then flushed, as they are lowered. -/
def lowered (window macros : List Macro) : List Macro :=
  (drain window macros).1 ++ (drain window macros).2

theorem isLowered_runPeepholeOptimizer {before : List Macro} {m : Macro}
    (hbefore : ∀ m ∈ before, m.isLowered = true) (hm : m.isLowered = true) :
    ∀ m' ∈ runPeepholeOptimizer before m, m'.isLowered = true := by
  have hlast : ∀ m' ∈ before ++ [m], m'.isLowered = true := by
    simp only [List.mem_append, List.mem_singleton]
    rintro m' (hm' | rfl)
    · exact hbefore m' hm'
    · exact hm
  unfold runPeepholeOptimizer
  split
  · simp only [List.mem_append, List.mem_singleton]
    rintro m' (hm' | rfl)
    · exact hbefore m' hm'
    · rfl
  · split
    · exact hlast
    · split
      · simp only [List.mem_append, List.mem_cons, List.not_mem_nil, or_false]
        rintro m' (hm' | rfl | rfl)
        · exact hbefore m' (List.mem_of_mem_dropLast hm')
        · rfl
        · exact hm
      · exact hlast

theorem isLowered_drain {window macros : List Macro} (hwindow : ∀ m ∈ window, m.isLowered = true)
    (hmacros : ∀ m ∈ macros, m.isLowered = true) :
    (∀ m ∈ (drain window macros).1, m.isLowered = true) ∧
      ∀ m ∈ (drain window macros).2, m.isLowered = true := by
  induction macros generalizing window with
  | nil => exact ⟨by simp [drain], hwindow⟩
  | cons m macros ih =>
      obtain ⟨hm, hmacros⟩ := List.forall_mem_cons.mp hmacros
      simp only [drain]
      split
      · obtain ⟨hout, hleft⟩ := ih
          (isLowered_runPeepholeOptimizer (List.forall_mem_nil _) hm) hmacros
        exact ⟨List.forall_mem_append.mpr ⟨hwindow, hout⟩, hleft⟩
      · exact ih (isLowered_runPeepholeOptimizer hwindow hm) hmacros

namespace Compiler

variable {c : Compiler} {macros : List Macro}

theorem push_failed {m : Macro} (h : c.assembler.status ≠ .success) :
    (c.push m).assembler = c.assembler := slidingWindowPush_failed h

theorem pushAll_failed (h : c.assembler.status ≠ .success) :
    (c.pushAll macros).assembler = c.assembler := by
  induction macros generalizing c with
  | nil => rfl
  | cons m macros ih =>
      have hpushed := push_failed (m := m) h
      exact (ih (c := c.push m) (hpushed ▸ h)).trans hpushed

/-- What a list of pushes does to the assembler is to lower the macros that leave the window. -/
theorem pushAll_drain (hok : c.assembler.status = .success) :
    (c.pushAll macros).assembler = flushMacros c.assembler (drain c.window.macros macros).1 ∧
      ((c.pushAll macros).assembler.status = .success →
        (c.pushAll macros).window.macros = (drain c.window.macros macros).2) := by
  induction macros generalizing c with
  | nil => exact ⟨rfl, fun _ => rfl⟩
  | cons m macros ih =>
      change ((c.push m).pushAll macros).assembler = _ ∧ (_ → ((c.push m).pushAll macros).window.macros = _)
      by_cases hfull : c.window.macros.length = slidingWindowCapacity
      · have hpushed : (c.push m).assembler = flushMacros c.assembler c.window.macros := by
          simp only [push, slidingWindowPush, hfull, dite_true]
        simp only [drain, if_pos hfull]
        have hsplit : ∀ rest, flushMacros c.assembler (c.window.macros ++ rest) =
            flushMacros (c.push m).assembler rest := by
          intro rest
          rw [hpushed, flushMacros, List.foldl_append]
          rfl
        rw [hsplit]
        by_cases hstatus : (c.push m).assembler.status = .success
        · have hwindow : (c.push m).window.macros = runPeepholeOptimizer [] m := by
            rw [hpushed] at hstatus
            simp only [push, slidingWindowPush, hfull, dite_true, hstatus, ne_eq, not_true_eq_false,
              if_false]
          obtain ⟨hassembler, hleft⟩ := ih hstatus
          rw [hwindow] at hassembler hleft
          exact ⟨hassembler, hleft⟩
        · rw [flushMacros_failed _ hstatus]
          have hstays : ((c.push m).pushAll macros).assembler = (c.push m).assembler :=
            pushAll_failed hstatus
          exact ⟨hstays, fun hsuccess => absurd (hstays ▸ hsuccess) hstatus⟩
      · have hpushed : (c.push m).assembler = c.assembler := by
          simp only [push, slidingWindowPush, hfull, dite_false]
        have hwindow : (c.push m).window.macros = runPeepholeOptimizer c.window.macros m := by
          simp only [push, slidingWindowPush, hfull, dite_false, hok, ne_eq, not_true_eq_false,
            if_false]
        simp only [drain, if_neg hfull]
        obtain ⟨hassembler, hleft⟩ := ih (c := c.push m) (hpushed ▸ hok)
        rw [hwindow, hpushed] at hassembler
        rw [hwindow] at hleft
        exact ⟨hassembler, hleft⟩

/-- Pushes and the flush after them. -/
theorem flushAll_lowered :
    (c.pushAll macros).flushAll.assembler = flushMacros c.assembler (lowered c.window.macros macros) := by
  change flushMacros (c.pushAll macros).assembler (c.pushAll macros).window.macros = _
  by_cases hok : c.assembler.status = .success
  swap
  · rw [pushAll_failed hok, flushMacros_failed _ hok, flushMacros_failed _ hok]
  obtain ⟨hassembler, hleft⟩ : (c.pushAll macros).assembler = _ ∧ _ := pushAll_drain hok
  rw [lowered, flushMacros, flushMacros, List.foldl_append]
  by_cases hstatus : (c.pushAll macros).assembler.status = .success
  · rw [hleft hstatus, hassembler]
    rfl
  · rw [hassembler] at hstatus ⊢
    exact (flushMacros_failed _ hstatus).trans (flushMacros_failed _ hstatus).symm

end Compiler

/-! ### Sequences of emits -/

/-- `f` makes `calls` while they fit, and does not undo a failure. -/
structure Makes (calls : List EmitCall) (f : Assembler → Assembler) : Prop where
  fits : ∀ {a : Assembler}, a.status = .success → a.capacity ≤ sizeMax →
    EmitCall.AllFit a.capacity a.offset calls →
      (f a).status = .success ∧ (f a).offset = a.offset + EmitCall.writtenAll calls ∧
        (f a).capacity = a.capacity
  unfit : ∀ {a : Assembler}, a.status = .success → a.capacity ≤ sizeMax →
    ¬EmitCall.AllFit a.capacity a.offset calls → (f a).status ≠ .success
  failed : ∀ {a : Assembler}, a.status ≠ .success → (f a).status ≠ .success

namespace Makes

variable {calls calls' : List EmitCall} {f g : Assembler → Assembler}

theorem trans (hf : Makes calls f) (hg : Makes calls' g) : Makes (calls ++ calls') fun a => g (f a) where
  fits := by
    intro a hok hsize h
    obtain ⟨hfirst, hrest⟩ := EmitCall.allFit_append.mp h
    obtain ⟨hstatus, hoffset, hcapacity⟩ := hf.fits hok hsize hfirst
    obtain ⟨hstatus', hoffset', hcapacity'⟩ := hg.fits hstatus (hcapacity.trans_le hsize)
      (by rw [hcapacity, hoffset]; exact hrest)
    refine ⟨hstatus', ?_, hcapacity'.trans hcapacity⟩
    rw [hoffset', hoffset, EmitCall.writtenAll_append, Nat.add_assoc]
  unfit := by
    intro a hok hsize h
    by_cases hfirst : EmitCall.AllFit a.capacity a.offset calls
    · obtain ⟨hstatus, hoffset, hcapacity⟩ := hf.fits hok hsize hfirst
      refine hg.unfit hstatus (hcapacity.trans_le hsize) fun hrest => ?_
      rw [hcapacity, hoffset] at hrest
      exact h (EmitCall.allFit_append.mpr ⟨hfirst, hrest⟩)
    · exact hg.failed (hf.unfit hok hsize hfirst)
  failed := fun h => hg.failed (hf.failed h)

theorem emits (calls : List EmitCall) : Makes calls (calls.foldl EmitCall.apply) where
  fits := fun hok hsize h => EmitCall.applyAll_fits calls hok hsize h
  unfit := by
    intro a hok hsize h
    rw [EmitCall.applyAll_unfit calls hok hsize h]
    split <;> decide
  failed := by
    intro a h
    rw [EmitCall.applyAll_failed calls h]
    split
    · exact nofun
    · exact h

theorem flushMacros {macros : List Macro} (hmacros : ∀ m ∈ macros, m.isLowered = true) :
    Makes (macros.flatMap Macro.calls) (Ballistic.flushMacros · macros) where
  fits := fun hok hsize h => flushMacros_fits hmacros hok hsize h
  unfit := by
    intro a hok hsize h
    rw [flushMacros_unfit hmacros hok hsize h]
    split <;> decide
  failed := by
    intro a h
    rw [flushMacros_failed _ h]
    exact h

/-- A `ret` after a failure overwrites the status. -/
theorem emitRet_failed {a : Assembler} (h : a.status ≠ .success) :
    a.emitRet.status = .invalidArgument := by
  have hret := EmitCall.apply_failed .ret h
  change a.emitRet = _ at hret
  rw [hret]
  rfl

theorem endsQuietly_ret {capacity offset : Nat} :
    EmitCall.EndsQuietly capacity offset (calls ++ [.ret]) ↔
      EmitCall.AllFit capacity offset calls ∧
        ¬EmitCall.Fits capacity (offset + EmitCall.writtenAll calls) .ret :=
  EmitCall.endsQuietly_append_poisons rfl rfl

/-- **Code that ends with `ret`** leaves the overflow only if nothing but the `ret` finds no room. -/
theorem ret_status (h : Makes calls f) {a : Assembler} (hok : a.status = .success)
    (hsize : a.capacity ≤ sizeMax) :
    (f a).emitRet.status =
      if EmitCall.AllFit a.capacity a.offset (calls ++ [.ret]) then .success
      else if EmitCall.EndsQuietly a.capacity a.offset (calls ++ [.ret]) then .instructionOverflow
      else .invalidArgument := by
  have hends := @endsQuietly_ret calls a.capacity a.offset
  by_cases hfits : EmitCall.AllFit a.capacity a.offset calls
  · obtain ⟨hstatus, hoffset, hcapacity⟩ := h.fits hok hsize hfits
    by_cases hret : EmitCall.Fits a.capacity (a.offset + EmitCall.writtenAll calls) .ret
    · rw [if_pos (EmitCall.allFit_append_singleton.mpr ⟨hfits, hret⟩)]
      exact (EmitCall.apply_fits .ret hstatus (hcapacity.trans_le hsize)
        (by rw [hcapacity, hoffset]; exact hret)).1
    · rw [if_neg fun hall => hret (EmitCall.allFit_append_singleton.mp hall).2, if_pos (hends.mpr ⟨hfits, hret⟩)]
      exact EmitCall.apply_unfit .ret hstatus (by rw [hcapacity, hoffset]; exact hret)
  · rw [if_neg fun hall => hfits (EmitCall.allFit_append.mp hall).1, if_neg fun hquiet => hfits (hends.mp hquiet).1]
    exact emitRet_failed (h.unfit hok hsize hfits)

end Makes

end Ballistic
