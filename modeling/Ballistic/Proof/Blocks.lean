import Ballistic.Proof.Plan

/-!
# The code of a block

`Produces` is what a straight-line part of a translation does to the code: the code emitted meanwhile,
followed by what is then in the window, acts like the window before followed by the instructions of
the macros pushed. It composes, so a whole block is read off its pushes. The emits outside the window
(the prologue, the stores of the program counter and the two epilogues) append their instructions.
-/

namespace Ballistic

open Machine Machine.X86

/-- The instructions of the macros in the window. -/
def Compiler.pending (c : Compiler) : List Instr := instrsOf c.window.macros

/-- Between `c` and `c'` the instructions `js` were pushed, and some code was emitted. -/
def Produces (c c' : Compiler) (js : List Instr) : Prop :=
  ∃ is, Emitted c.assembler c'.assembler is ∧
    (∀ s, execAll s (is ++ c'.pending) = execAll s (c.pending ++ js)) ∧
    ∀ i ∈ is ++ c'.pending, i ∈ c.pending ++ js

namespace Produces

theorem refl (c : Compiler) : Produces c c [] :=
  ⟨[], .refl _, fun s => by simp, fun i hi => by simpa using hi⟩

theorem trans {c c' c'' : Compiler} {js ks : List Instr} (h : Produces c c' js)
    (h' : Produces c' c'' ks) : Produces c c'' (js ++ ks) := by
  obtain ⟨is, hemitted, hexec, hmem⟩ := h
  obtain ⟨is', hemitted', hexec', hmem'⟩ := h'
  refine ⟨is ++ is', hemitted.trans hemitted', fun s => ?_, fun i hi => ?_⟩
  · calc execAll s (is ++ is' ++ c''.pending)
        = execAll (execAll s is) (is' ++ c''.pending) := by rw [List.append_assoc, execAll_append]
      _ = execAll (execAll s (is ++ c'.pending)) ks := by
          rw [hexec', execAll_append, execAll_append]
      _ = execAll s (c.pending ++ (js ++ ks)) := by
          rw [hexec, ← execAll_append, List.append_assoc]
  · rw [← List.append_assoc, List.mem_append]
    rw [List.append_assoc, List.mem_append] at hi
    rcases hi with hi | hi
    · exact .inl (hmem i (List.mem_append_left _ hi))
    · rcases List.mem_append.mp (hmem' i hi) with hi | hi
      · exact .inl (hmem i (List.mem_append_right _ hi))
      · exact .inr hi

/-- The relation looks at the window and the assembler alone. -/
theorem congr_allocator {c c' : Compiler} {js : List Instr} (h : Produces c c' js)
    (r : RegisterAllocator) : Produces c { c' with allocator := r } js := h

end Produces

namespace Compiler

variable {c : Compiler}

theorem produces_push {m : Macro} (h : (c.push m).Ok) : Produces c (c.push m) m.instrs :=
  slidingWindowPush_code h.assembler

theorem produces_pushAll {ms : List Macro} (h : (c.pushAll ms).Ok) :
    Produces c (c.pushAll ms) (instrsOf ms) := by
  induction ms generalizing c with
  | nil => exact .refl c
  | cons m ms ih =>
      have hpushed : ((c.push m).pushAll ms).Ok := h
      have hpush : (c.push m).Ok := hpushed.of_pushAll
      exact (produces_push hpush).trans (ih h)

theorem produces_apply {p : Plan} (h : (c.apply p).Ok) : Produces c (c.apply p) (instrsOf p.macros) :=
  (produces_pushAll (apply_ok.mp h)).congr_allocator p.allocator

@[simp]
theorem flushAll_status (c : Compiler) : c.flushAll.status = c.status := rfl

@[simp]
theorem flushAll_allocator (c : Compiler) : c.flushAll.allocator = c.allocator := rfl

@[simp]
theorem flushAll_pending (c : Compiler) : c.flushAll.pending = [] := rfl

theorem Ok.of_flushAll (h : c.flushAll.Ok) : c.Ok := by
  refine ⟨h.status, ?_⟩
  by_contra hfailed
  have hsame : c.flushAll.assembler = c.assembler := flushMacros_failed _ hfailed
  exact hfailed (hsame ▸ h.assembler)

theorem produces_flushAll (h : c.flushAll.Ok) : Produces c c.flushAll [] :=
  ⟨c.pending, flushMacros_emitted h.assembler, fun s => by simp, fun i hi => by simpa using hi⟩

theorem flushDirtyRegisters_allocator (c : Compiler) :
    c.flushDirtyRegisters.allocator = c.allocator := pushAll_allocator ..

theorem flushDirtyRegisters_status (c : Compiler) :
    c.flushDirtyRegisters.status = c.status := pushAll_status ..

theorem Ok.of_flushDirtyRegisters (h : c.flushDirtyRegisters.Ok) : c.Ok := h.of_pushAll

theorem produces_flushDirtyRegisters (h : c.flushDirtyRegisters.Ok) :
    Produces c c.flushDirtyRegisters (instrsOf (dirtyStores c.allocator)) := produces_pushAll h

/-! ### Emits outside the window -/

@[simp]
theorem onAssembler_status (c : Compiler) (f : Assembler → Assembler) :
    (c.onAssembler f).status = c.status := rfl

@[simp]
theorem onAssembler_allocator (c : Compiler) (f : Assembler → Assembler) :
    (c.onAssembler f).allocator = c.allocator := rfl

@[simp]
theorem onAssembler_assembler (c : Compiler) (f : Assembler → Assembler) :
    (c.onAssembler f).assembler = f c.assembler := rfl

@[simp]
theorem onAssembler_pending (c : Compiler) (f : Assembler → Assembler) :
    (c.onAssembler f).pending = c.pending := rfl

/-- An emit on an empty window is a straight-line part of its own. -/
theorem produces_onAssembler {f : Assembler → Assembler} {js : List Instr} (hempty : c.pending = [])
    (h : Emitted c.assembler (f c.assembler) js) : Produces c (c.onAssembler f) js :=
  ⟨js, h, fun s => by simp [hempty], fun i hi => by simpa [hempty] using hi⟩

end Compiler

/-! ### Block frames -/

/-- The code at the start of every block. -/
def prologueCode : List Instr :=
  [.push .rbp, .push .r12, .push .r13, .push .r14, .push .r15, .mov .rbp .rdi]

/-- The code that restores the callee-saved registers. -/
def epilogueCode : List Instr := [.pop .r15, .pop .r14, .pop .r13, .pop .r12, .pop .rbp]

/-- The code that stores a constant in the program counter. -/
def storePcCode (pc : Address) : List Instr :=
  [.movImm .rax pc, .store .rax (BitVec.ofNat 32 offsetPc)]

namespace Assembler

variable {a : Assembler}

theorem emitted_prologue (h : a.emitPrologue.status = .success) :
    a.status = .success ∧ Emitted a a.emitPrologue prologueCode := by
  unfold emitPrologue at h ⊢
  have h5 := (emit_success h).1
  have h4 := (emit_success h5).1
  have h3 := (emit_success h4).1
  have h2 := (emit_success h3).1
  have h1 := (emit_success h2).1
  obtain ⟨_, h1', e1⟩ := emitted_pushR64 h1
  obtain ⟨_, h2', e2⟩ := emitted_pushR64 h2
  obtain ⟨_, h3', e3⟩ := emitted_pushR64 h3
  obtain ⟨_, h4', e4⟩ := emitted_pushR64 h4
  obtain ⟨_, h5', e5⟩ := emitted_pushR64 h5
  obtain ⟨_, _, h6', h6'', e6⟩ := emitted_movR64R64 h
  cases h1'
  cases h2'
  cases h3'
  cases h4'
  cases h5'
  cases h6'
  cases h6''
  exact ⟨(emit_success h1).1, ((((e1.trans e2).trans e3).trans e4).trans e5).trans e6⟩

theorem emitted_epilogue (h : a.emitEpilogue.status = .success) :
    a.status = .success ∧ Emitted a a.emitEpilogue (epilogueCode ++ [.ret]) := by
  unfold emitEpilogue at h ⊢
  have h5 := (emit_success h).1
  have h4 := (emit_success h5).1
  have h3 := (emit_success h4).1
  have h2 := (emit_success h3).1
  have h1 := (emit_success h2).1
  obtain ⟨_, h1', e1⟩ := emitted_popR64 h1
  obtain ⟨_, h2', e2⟩ := emitted_popR64 h2
  obtain ⟨_, h3', e3⟩ := emitted_popR64 h3
  obtain ⟨_, h4', e4⟩ := emitted_popR64 h4
  obtain ⟨_, h5', e5⟩ := emitted_popR64 h5
  cases h1'
  cases h2'
  cases h3'
  cases h4'
  cases h5'
  exact ⟨(emit_success h1).1, ((((e1.trans e2).trans e3).trans e4).trans e5).trans (emitted_ret h)⟩

theorem emitted_shortEpilogue (h : a.emitShortEpilogue.status = .success) :
    a.status = .success ∧ Emitted a a.emitShortEpilogue ([.pop .rbp] ++ [.ret]) := by
  unfold emitShortEpilogue at h ⊢
  have h1 := (emit_success h).1
  obtain ⟨_, h1', e1⟩ := emitted_popR64 h1
  cases h1'
  exact ⟨(emit_success h1).1, e1.trans (emitted_ret h)⟩

theorem emitted_storePc {pc : Address} (h : (a.emitStorePc pc).status = .success) :
    a.status = .success ∧ Emitted a (a.emitStorePc pc) (storePcCode pc) := by
  unfold emitStorePc at h ⊢
  have h1 := (emit_success h).1
  obtain ⟨_, h1', e1⟩ := emitted_movR64Imm64 h1
  obtain ⟨_, h2', e2⟩ := emitted_storeR64RbpOffset h
  cases h1'
  cases h2'
  exact ⟨(emit_success h1).1, e1.trans e2⟩

end Assembler

namespace Compiler

/-- What a block does after its last instruction and before its epilogue. -/
def tailCode (r : RegisterAllocator) (nextPc : Address) (isPcDynamic : Bool)
    (armInstructionCount : Nat) (engineFlags : EngineFlags) : List Instr :=
  (if engineFlags.has EngineFlags.instructionCounting then
    (immediateMacro .addCpuIcount (some .rbp) (BitVec.ofNat 64 armInstructionCount)).instrs
    else []) ++ instrsOf (dirtyStores r) ++ if isPcDynamic then [] else storePcCode nextPc

theorem terminateBlock_status (c : Compiler) (nextPc : Address) (isPcDynamic : Bool) (count : Nat)
    (engineFlags : EngineFlags) :
    (c.terminateBlock nextPc isPcDynamic count engineFlags).status = c.status := by
  simp only [terminateBlock, onAssembler_status]
  split <;> split <;> simp [flushDirtyRegisters_status]

/-- The end of a block: the window, the tail and the epilogue, as straight-line code. -/
theorem terminateBlock_code {c : Compiler} {nextPc : Address} {isPcDynamic : Bool} {count : Nat}
    {engineFlags : EngineFlags} (h : (c.terminateBlock nextPc isPcDynamic count engineFlags).Ok) :
    c.Ok ∧ ∃ is,
      Emitted c.assembler (c.terminateBlock nextPc isPcDynamic count engineFlags).assembler
        (is ++ (epilogueCode ++ [.ret])) ∧
      (∀ s, execAll s is =
        execAll s (c.pending ++ tailCode c.allocator nextPc isPcDynamic count engineFlags)) ∧
      ∀ i ∈ is, i ∈ c.pending ++ tailCode c.allocator nextPc isPcDynamic count engineFlags := by
  simp only [terminateBlock] at h ⊢
  generalize hcounted : (if engineFlags.has EngineFlags.instructionCounting = true then
      c.push (immediateMacro .addCpuIcount (some .rbp) (BitVec.ofNat 64 count)) else c) = c1 at h ⊢
  generalize hflushed : c1.flushDirtyRegisters.flushAll = c2 at h ⊢
  generalize hstored : (if isPcDynamic = true then c2
      else c2.onAssembler (·.emitStorePc nextPc)) = c3 at h ⊢
  have hassembled := h.assembler
  rw [onAssembler_assembler] at hassembled ⊢
  obtain ⟨hassembler, hepilogue⟩ := Assembler.emitted_epilogue hassembled
  have hok3 : c3.Ok := ⟨h.status, hassembler⟩
  have hstage3 : c2.Ok ∧ Produces c2 c3 (if isPcDynamic then [] else storePcCode nextPc) := by
    cases isPcDynamic with
    | true =>
        simp only [if_true] at hstored ⊢
        subst hstored
        exact ⟨hok3, .refl c2⟩
    | false =>
        simp only [Bool.false_eq_true, if_false] at hstored ⊢
        subst hstored
        have hassembled2 := hok3.assembler
        rw [onAssembler_assembler] at hassembled2
        obtain ⟨hstatus, hemitted⟩ := Assembler.emitted_storePc hassembled2
        exact ⟨⟨hok3.status, hstatus⟩, produces_onAssembler (by rw [← hflushed]; rfl) hemitted⟩
  obtain ⟨hok2, hproduces3⟩ := hstage3
  subst hflushed
  have hok1 : c1.flushDirtyRegisters.Ok := hok2.of_flushAll
  have hproduces2 := (produces_flushDirtyRegisters hok1).trans (produces_flushAll hok2)
  have hstage1 : c.Ok ∧ c1.allocator = c.allocator ∧ Produces c c1
      (if engineFlags.has EngineFlags.instructionCounting then
        (immediateMacro .addCpuIcount (some .rbp) (BitVec.ofNat 64 count)).instrs else []) := by
    have hok := hok1.of_flushDirtyRegisters
    split at hcounted
    · next hflag =>
        subst hcounted
        simp only [hflag, if_true]
        exact ⟨hok.of_push, rfl, produces_push hok⟩
    · next hflag =>
        subst hcounted
        simp only [hflag]
        exact ⟨hok, trivial, .refl c⟩
  obtain ⟨hok, hallocator, hproduces1⟩ := hstage1
  refine ⟨hok, ?_⟩
  obtain ⟨is, hemitted, hexec, hmem⟩ := (hproduces1.trans hproduces2).trans hproduces3
  have hpending : c3.pending = [] := by
    rw [← hstored]
    split <;> rfl
  rw [hpending, List.append_nil] at hmem
  have htail : ((if engineFlags.has EngineFlags.instructionCounting = true then
      (immediateMacro .addCpuIcount (some .rbp) (BitVec.ofNat 64 count)).instrs else []) ++
      (instrsOf (dirtyStores c1.allocator) ++ []) ++
      if isPcDynamic = true then [] else storePcCode nextPc) =
      tailCode c.allocator nextPc isPcDynamic count engineFlags := by
    rw [tailCode, hallocator, List.append_nil]
  rw [htail] at hexec hmem
  exact ⟨is, hemitted.trans hepilogue, fun s => by simpa [hpending] using hexec s, hmem⟩

end Compiler

end Ballistic
