import Ballistic.Proof.Coherence
import Ballistic.Proof.Faults
import Ballistic.Proof.Straight
import Ballistic.Proof.Threads

/-!
# Failed compilations

A block that cannot be compiled ends the call, and the status of the compiler becomes the status of
the engine. The compiler has its status from the memory interface, from an instruction it does not
support, or from the check of the assembler after each instruction. Nothing looks at the assembler
again after the last one: when the code of the block ends past the buffer, the status is right only
if an instruction in the middle of the block was the first to notice. Which status the loops end with
can be said without running the translators (`stopsWith_iff`).
-/

namespace Ballistic

open Machine Machine.X86

/-! ### Causes -/

def Compiler.withCapacity (c : Compiler) (capacity : Nat) : Compiler :=
  { c with assembler := { c.assembler with capacity := capacity } }

section Causes

variable (input : TranslateInput) (c : Compiler) (start : Address)

/-- The block goes on at an address that the memory interface does not know. -/
def MeetsUnmapped : Prop :=
  ∃ s, Reaches input c start .whileTest s ∧ s.isBlockTerminated = false ∧
    input.memory.translate s.guestAddress = none

/-- The block goes on at an address with no whole instruction behind it, or at an unaligned one
under the flag that forbids it. -/
def MeetsUnaligned : Prop :=
  ∃ s bytes, Reaches input c start .whileTest s ∧ s.isBlockTerminated = false ∧
    input.memory.translate s.guestAddress = some bytes ∧
    (bytes / 4 = 0 ∨
      (input.engineFlags.has EngineFlags.strictAlignment ∧ s.guestAddress.toNat % 4 ≠ 0))

/-- The loops come to the translation of an instruction. -/
def MeetsInstruction (s : LoopState) (metadata : Metadata) : Prop :=
  ∃ i limit, Reaches input c start (.forTest i limit) s ∧ i < limit ∧
    balDecodeArm64 input.table (input.memory.word s.guestAddress) = some metadata ∧
    isTrapped input.engineFlags metadata = false

def MeetsUnsupported : Prop :=
  ∃ s metadata, MeetsInstruction input c start s metadata ∧
    Unsupported metadata (input.memory.word s.guestAddress)

/-- With more room, the translation that starts now would write past the end of the buffer. -/
def Exhausts : Prop :=
  c.Ok ∧ ∃ capacity,
    (∃ p s, Reaches input (c.withCapacity capacity) start p s ∧
      c.assembler.capacity < s.compiler.assembler.offset) ∨
    ∃ t, Translates input (c.withCapacity capacity) start t ∧
      c.assembler.capacity < t.compiler.assembler.offset

/-- Why a block cannot be compiled, with the status that is documented for it. -/
inductive FailsFor : BalError → Prop
  | unmapped (h : MeetsUnmapped input c start) : FailsFor .memoryFault
  | unaligned (h : MeetsUnaligned input c start) : FailsFor .pcAlignment
  | unsupported (h : MeetsUnsupported input c start) : FailsFor .unknownInstruction
  | exhausted (h : Exhausts input c start) : FailsFor .instructionOverflow

/-- The loops are entered without a failure. -/
structure Compiler.Enters (c : Compiler) : Prop where
  ok : c.Ok
  fits : EmitCall.AllFit c.assembler.capacity c.assembler.offset prologueCalls

/-- The buffer ends at an instruction, and what overflows is not overwritten before the check: inside the
code of the instruction itself, or inside the prologue before the first instruction, if that is one that
leaves the assembler alone. -/
def EndsInside : Prop :=
  ∃ s metadata, MeetsInstruction input c start s metadata ∧
    ¬Unsupported metadata (input.memory.word s.guestAddress) ∧
    (c.Enters ∧ ¬LacksOperands s.compiler metadata (input.memory.word s.guestAddress) ∧
        (∀ error, ¬Refused s.compiler metadata (input.memory.word s.guestAddress) error) ∧
        CodeEndsQuietly s.compiler metadata (input.memory.word s.guestAddress) s.guestAddress ∨
      EmitCall.EndsQuietly c.assembler.capacity c.assembler.offset prologueCalls ∧
        metadata.irOpcode ≠ .and ∧ metadata.branches = false)

/-- Why the first instruction of a block stops it when the compiler, the assembler or the prologue has
failed before. -/
inductive FailsAtOnce (metadata : Metadata) (w : BitVec 32) : BalError → Prop
  | unsupported (h : Unsupported metadata w) : FailsAtOnce metadata w .unknownInstruction
  | operands (hsupported : ¬Unsupported metadata w) (h : metadata.irOpcode = .and) :
      FailsAtOnce metadata w .incorrectRegisterType
  | kept (hsupported : ¬Unsupported metadata w) (hand : metadata.irOpcode ≠ .and)
      (h : c.status ≠ .success) : FailsAtOnce metadata w c.status
  | overflow (hsupported : ¬Unsupported metadata w) (hand : metadata.irOpcode ≠ .and)
      (hbranch : metadata.branches = false) (hok : c.Ok)
      (h : EmitCall.EndsQuietly c.assembler.capacity c.assembler.offset prologueCalls) :
      FailsAtOnce metadata w .instructionOverflow
  | overwritten (hsupported : ¬Unsupported metadata w) (hand : metadata.irOpcode ≠ .and)
      (hstatus : c.status = .success)
      (h : metadata.branches = true ∨ c.assembler.status ≠ .success ∨
        ¬EmitCall.EndsQuietly c.assembler.capacity c.assembler.offset prologueCalls) :
      FailsAtOnce metadata w .invalidArgument

/-- Why the loops stop with an error, with the status that they leave. -/
inductive FailsWith : BalError → Prop
  | unmapped (h : MeetsUnmapped input c start) : FailsWith .memoryFault
  | unaligned (h : MeetsUnaligned input c start) : FailsWith .pcAlignment
  | instruction {s : LoopState} {metadata : Metadata} {error : BalError}
      (hmeets : MeetsInstruction input c start s metadata) (henters : c.Enters)
      (h : InstructionFails s.compiler metadata (input.memory.word s.guestAddress) s.guestAddress error) :
      FailsWith error
  | atOnce {s : LoopState} {metadata : Metadata} {error : BalError}
      (hmeets : MeetsInstruction input c start s metadata) (hfailed : ¬c.Enters)
      (h : FailsAtOnce c metadata (input.memory.word s.guestAddress) error) : FailsWith error
  | trapped {i limit : Nat} {s : LoopState} {metadata : Metadata}
      (hreach : Reaches input c start (.forTest i limit) s) (hin : i < limit)
      (hdecode : balDecodeArm64 input.table (input.memory.word s.guestAddress) = some metadata)
      (htrapped : isTrapped input.engineFlags metadata = true) (h : c.status ≠ .success) :
      FailsWith c.status

end Causes

/-! ### The status after the loops -/

section Statuses

variable {input : TranslateInput} {c : Compiler} {start : Address} {t : Translation}

theorem Translates.loops (hmax : input.maxInstructions ≠ 0) (h : Translates input c start t) :
    ∃ fuel s, runLoops input start c.assembler.offset fuel .whileTest (startState c start) = some s ∧
      t.compiler.status = s.compiler.status := by
  obtain ⟨fuel, htranslate⟩ := h
  rw [balTier1CompilerTranslate, if_neg hmax, Option.map_eq_some_iff] at htranslate
  obtain ⟨s, hrun, rfl⟩ := htranslate
  exact ⟨fuel, s, hrun, by rw [finishTranslation_compiler, Compiler.terminateBlock_status]⟩

/-- The translation stops with an error: at the memory interface, at an instruction that its
translator refuses, or, with an error that was there before, at an instruction left to the host. -/
inductive StopsWith (input : TranslateInput) (c : Compiler) (start : Address) : BalError → Prop
  | unmapped (h : MeetsUnmapped input c start) : StopsWith input c start .memoryFault
  | unaligned (h : MeetsUnaligned input c start) : StopsWith input c start .pcAlignment
  | refused {s : LoopState} {metadata : Metadata} (h : MeetsInstruction input c start s metadata)
      (hfailed : (s.translateOpcode metadata (input.memory.word s.guestAddress)).failed = true) :
      StopsWith input c start
        (s.translateOpcode metadata (input.memory.word s.guestAddress)).recordFailure.compiler.status
  | trapped {i limit : Nat} {s : LoopState} {metadata : Metadata}
      (hreach : Reaches input c start (.forTest i limit) s) (hin : i < limit)
      (hdecode : balDecodeArm64 input.table (input.memory.word s.guestAddress) = some metadata)
      (htrapped : isTrapped input.engineFlags metadata = true) :
      StopsWith input c start s.compiler.status

/-- Loops that come to a state from which they leave end. -/
theorem Reaches.runLoops_of_exit {p : LoopPoint} {s s' : LoopState} (hreach : Reaches input c start p s)
    (hexit : loopStep input start c.assembler.offset p s = .exit s') :
    ∃ fuel, Ballistic.runLoops input start c.assembler.offset fuel .whileTest (startState c start) =
      some s' := by
  have hrun : ∀ {p : LoopPoint} {s : LoopState}, Reaches input c start p s →
      ∀ fuel, Ballistic.runLoops input start c.assembler.offset fuel p s = some s' →
        ∃ fuel', Ballistic.runLoops input start c.assembler.offset fuel' .whileTest (startState c start) =
          some s' := by
    intro p s hreach
    induction hreach with
    | start => exact fun fuel hrun => ⟨fuel, hrun⟩
    | step _ hnext ih =>
        intro fuel hrun
        refine ih (fuel + 1) ?_
        rw [Ballistic.runLoops, hnext]
        exact hrun
  exact hrun hreach 1 (by rw [Ballistic.runLoops, hexit])

/-- They give a translation, with the status there. -/
theorem Reaches.translates_of_exit (hmax : input.maxInstructions ≠ 0) {p : LoopPoint}
    {s s' : LoopState} (hreach : Reaches input c start p s)
    (hexit : loopStep input start c.assembler.offset p s = .exit s') :
    ∃ t, Translates input c start t ∧ t.compiler.status = s'.compiler.status := by
  obtain ⟨fuel, hfinal⟩ := hreach.runLoops_of_exit hexit
  refine ⟨finishTranslation input start c.assembler.offset s', ⟨fuel, ?_⟩, ?_⟩
  · rw [balTier1CompilerTranslate, if_neg hmax, hfinal, Option.map_some]
  · rw [finishTranslation_compiler, Compiler.terminateBlock_status]

theorem Translates.entry_none (h : Translates input c start t)
    (hstatus : t.compiler.status ≠ .success) : t.entry = none := by
  cases hentry : t.entry with
  | none => rfl
  | some entry =>
      have hsucceeds : Succeeds input c start t entry := ⟨h, hentry⟩
      obtain ⟨-, ⟨s, hfinal⟩, -⟩ := hsucceeds.final
      exact absurd hfinal.ok.status hstatus

theorem StopsWith.translates (hmax : input.maxInstructions ≠ 0) {status : BalError}
    (h : StopsWith input c start status) :
    ∃ t, Translates input c start t ∧ t.compiler.status = status := by
  cases h with
  | unmapped h =>
      obtain ⟨s, hreach, hopen, hunmapped⟩ := h
      have hexit : loopStep input start c.assembler.offset .whileTest s =
          .exit (s.withCompiler { s.compiler with status := .memoryFault }) := by
        simp only [loopStep, hopen, hunmapped, Bool.false_eq_true, if_false]
      exact hreach.translates_of_exit hmax hexit
  | unaligned h =>
      obtain ⟨s, bytes, hreach, hopen, hmapped, hunaligned⟩ := h
      have hexit : loopStep input start c.assembler.offset .whileTest s =
          .exit (s.withCompiler { s.compiler with status := .pcAlignment }) := by
        simp only [loopStep, hopen, hmapped, Bool.false_eq_true, if_false]
        split
        · rfl
        · next hbytes => rw [if_pos (hunaligned.resolve_left hbytes)]
      exact hreach.translates_of_exit hmax hexit
  | @refused s metadata h hfailed =>
      obtain ⟨i, limit, hreach, hin, hdecode, htrapped⟩ := h
      have hnext : loopStep input start c.assembler.offset (.forTest i limit) s = .next .whileTest
          (s.translateOpcode metadata (input.memory.word s.guestAddress)).recordFailure := by
        simp only [loopStep, hin, if_true, translateInstruction_failed hdecode htrapped hfailed]
      exact (Reaches.step hreach hnext).translates_of_exit hmax (loopStep_terminated rfl)
  | @trapped i limit s metadata hreach hin hdecode htrapped =>
      have hnext : loopStep input start c.assembler.offset (.forTest i limit) s =
          .next .whileTest s.terminate := by
        simp only [loopStep, hin, if_true, translateInstruction_trapped hdecode htrapped]
      have hexit : loopStep input start c.assembler.offset .whileTest s.terminate =
          .exit s.terminate := loopStep_terminated rfl
      obtain ⟨t, ht, hstatus⟩ := (Reaches.step hreach hnext).translates_of_exit hmax hexit
      exact ⟨t, ht, hstatus⟩

/-- A block that is terminated with an error has met the reason for it. -/
theorem Reaches.stopsWith {p : LoopPoint} {s : LoopState} (hreach : Reaches input c start p s)
    (hterminated : s.isBlockTerminated = true) :
    s.compiler.status = .success ∨ StopsWith input c start s.compiler.status := by
  induction hreach with
  | start => cases hterminated
  | @step p p' s s' hreach hnext ih =>
      obtain ⟨_, _, _, _, _, rfl⟩ | ⟨_, _, _, _, _, rfl⟩ | ⟨i, limit, rfl, hin, rfl, _⟩ :=
        loopStep_next hnext
      · exact ih hterminated
      · exact ih hterminated
      · cases hdecode : balDecodeArm64 input.table (input.memory.word s.guestAddress) with
        | none =>
            rw [translateInstruction_undecoded hdecode] at hterminated
            cases hterminated
        | some metadata =>
            cases htrapped : isTrapped input.engineFlags metadata with
            | true =>
                rw [translateInstruction_trapped hdecode htrapped]
                have hstops : StopsWith input c start s.compiler.status :=
                  .trapped hreach hin hdecode htrapped
                exact .inr hstops
            | false =>
                generalize hs' : s.translateOpcode metadata (input.memory.word s.guestAddress) = s'
                cases hfailed : s'.failed with
                | true =>
                    subst hs'
                    rw [translateInstruction_failed hdecode htrapped hfailed]
                    exact .inr (.refused ⟨i, limit, hreach, hin, hdecode, htrapped⟩ hfailed)
                | false =>
                    have hok := LoopState.ok_of_not_failed hfailed
                    obtain ⟨s'', ⟨_, rfl⟩, heq⟩ := @translateInstruction_counted input start
                      c.assembler.offset i s metadata hdecode htrapped s' hs' hfailed
                    rw [heq]
                    refine .inl ?_
                    split
                    · exact hok.status
                    · split
                      · exact hok.status
                      · exact hok.status

theorem Translates.stopsWith (hmax : input.maxInstructions ≠ 0) (h : Translates input c start t)
    (hstatus : t.compiler.status ≠ .success) : StopsWith input c start t.compiler.status := by
  obtain ⟨fuel, s', hrun, hstatus'⟩ := h.loops hmax
  obtain ⟨p, s, hreach, hexit⟩ := runLoops_reaches .start hrun
  rw [hstatus'] at hstatus ⊢
  obtain ⟨rfl, ⟨hterminated, rfl⟩ | ⟨hopen, hunmapped, rfl⟩ | ⟨bytes, hopen, hmapped, hunaligned, rfl⟩⟩ :=
    loopStep_exit_cases hexit
  · exact (hreach.stopsWith hterminated).resolve_left hstatus
  · exact .unmapped ⟨s, hreach, hopen, hunmapped⟩
  · exact .unaligned ⟨s, bytes, hreach, hopen, hmapped, hunaligned⟩

theorem StopsWith.status (hmax : input.maxInstructions ≠ 0) {status : BalError}
    (hstops : StopsWith input c start status) (h : Translates input c start t) :
    t.compiler.status = status := by
  obtain ⟨t', ht', hstatus⟩ := hstops.translates hmax
  rw [h.unique ht']
  exact hstatus

theorem MeetsUnsupported.status (hmeets : MeetsUnsupported input c start)
    (hmax : input.maxInstructions ≠ 0) (h : Translates input c start t) :
    t.compiler.status = .unknownInstruction := by
  obtain ⟨s, metadata, hmeets, hunsupported⟩ := hmeets
  have hstatus := hunsupported.status s
  have hfailed :
      (s.translateOpcode metadata (input.memory.word s.guestAddress)).failed = true := by
    simp [LoopState.failed, hstatus]
  rw [(StopsWith.refused hmeets hfailed).status hmax h, LoopState.recordFailure]
  simp only [hstatus, reduceCtorEq, if_false]

/-! ### The status foretold -/

theorem startState_status (c : Compiler) (start : Address) :
    (startState c start).compiler.status = c.status := by
  simp only [startState]

/-- The status of the assembler behind the prologue. -/
theorem emitPrologue_status (c : Compiler) (hsize : c.assembler.capacity ≤ sizeMax) :
    c.assembler.emitPrologue.status =
      if c.assembler.status = .success then
        if EmitCall.AllFit c.assembler.capacity c.assembler.offset prologueCalls then .success
        else if EmitCall.EndsQuietly c.assembler.capacity c.assembler.offset prologueCalls then
          .instructionOverflow
        else .invalidArgument
      else .invalidArgument := by
  rw [emitPrologue_calls]
  by_cases hok : c.assembler.status = .success
  · rw [if_pos hok]
    by_cases hfits : EmitCall.AllFit c.assembler.capacity c.assembler.offset prologueCalls
    · rw [if_pos hfits, (EmitCall.applyAll_fits _ hok hsize hfits).1]
    · rw [if_neg hfits, EmitCall.applyAll_unfit _ hok hsize hfits]
  · rw [if_neg hok, EmitCall.applyAll_failed _ hok]
    rfl

theorem Compiler.enters_iff (hsize : c.assembler.capacity ≤ sizeMax) :
    c.Enters ↔ (startState c start).compiler.Ok := by
  have hassembler := emitPrologue_status c hsize
  rw [← startState_assembler c start] at hassembler
  constructor
  · rintro ⟨hok, hfits⟩
    rw [if_pos hok.assembler, if_pos hfits] at hassembler
    exact ⟨(startState_status c start).trans hok.status, hassembler⟩
  · intro h
    rw [h.assembler] at hassembler
    by_cases hok : c.assembler.status = .success
    · rw [if_pos hok] at hassembler
      by_cases hfits : EmitCall.AllFit c.assembler.capacity c.assembler.offset prologueCalls
      · exact ⟨⟨(startState_status c start).symm.trans h.status, hok⟩, hfits⟩
      · rw [if_neg hfits] at hassembler
        split at hassembler <;> cases hassembler
    · rw [if_neg hok] at hassembler
      cases hassembler

/-- What holds of the compiler while the loops go on. -/
structure Sound (c c' : Compiler) : Prop where
  ok : c'.Ok
  lowered : ∀ m ∈ c'.window.macros, m.isLowered = true
  capacity_eq : c'.assembler.capacity = c.assembler.capacity

/-- **Entered without a failure**, the loops go on without one until they are marked to end. -/
theorem Reaches.sound (henters : c.Enters) (hwindow : c.window.macros = [])
    (hsize : c.assembler.capacity ≤ sizeMax) {p : LoopPoint} {s : LoopState}
    (h : Reaches input c start p s) : Sound c s.compiler ∨ p = .whileTest ∧ s.isBlockTerminated = true := by
  induction h with
  | start =>
      refine .inl ⟨(Compiler.enters_iff hsize).mp henters, ?_, ?_⟩
      · rw [startState_window, hwindow]
        exact List.forall_mem_nil _
      · rw [startState_assembler]
        exact (closed_capacity _).emitPrologue rfl
  | @step p p' s s' hreach hnext ih =>
      obtain ⟨_, rfl, hopen, -, rfl, rfl⟩ | ⟨_, _, rfl, -, rfl, rfl⟩ | ⟨i, limit, rfl, hin, rfl, rfl⟩ :=
        loopStep_next hnext
      · exact .inl (ih.resolve_right fun hend => by rw [hopen] at hend; cases hend.2)
      · exact .inl (ih.resolve_right fun hend => by cases hend.1)
      · obtain ⟨hok, hlowered, hcapacity⟩ := ih.resolve_right fun hend => by cases hend.1
        cases hdecode : balDecodeArm64 input.table (input.memory.word s.guestAddress) with
        | none =>
            rw [translateInstruction_undecoded hdecode]
            exact .inl ⟨hok, hlowered, hcapacity⟩
        | some metadata =>
            cases htrapped : isTrapped input.engineFlags metadata with
            | true =>
                rw [translateInstruction_trapped hdecode htrapped]
                exact .inl ⟨hok, hlowered, hcapacity⟩
            | false =>
                generalize hs' : s.translateOpcode metadata (input.memory.word s.guestAddress) = s'
                cases hfailed : s'.failed with
                | true =>
                    subst hs'
                    rw [translateInstruction_failed hdecode htrapped hfailed]
                    exact .inr ⟨rfl, rfl⟩
                | false =>
                    have hok' := LoopState.ok_of_not_failed hfailed
                    have hsound : Sound c s'.compiler := by
                      subst hs'
                      refine ⟨hok', translateOpcode_window hok hlowered (hcapacity.trans_le hsize) hok', ?_⟩
                      exact (closed_capacity c.assembler.capacity).translateOpcode hcapacity metadata _
                    obtain ⟨s'', ⟨_, rfl⟩, heq⟩ := @translateInstruction_counted input start
                      c.assembler.offset i s metadata hdecode htrapped s' hs' hfailed
                    rw [heq]
                    refine .inl ?_
                    split
                    · exact hsound
                    · split
                      · exact hsound
                      · exact hsound

/-- Entered with a failure, the loops do not get past the first instruction. -/
theorem Reaches.stuck (hfailed : ¬(startState c start).compiler.Ok) {p : LoopPoint} {s : LoopState}
    (h : Reaches input c start p s) :
    s.compiler = (startState c start).compiler ∨ p = .whileTest ∧ s.isBlockTerminated = true := by
  induction h with
  | start => exact .inl rfl
  | @step p p' s s' hreach hnext ih =>
      obtain ⟨_, rfl, hopen, -, rfl, rfl⟩ | ⟨_, _, rfl, -, rfl, rfl⟩ | ⟨i, limit, rfl, hin, rfl, rfl⟩ :=
        loopStep_next hnext
      · exact .inl (ih.resolve_right fun hend => by rw [hopen] at hend; cases hend.2)
      · exact .inl (ih.resolve_right fun hend => by cases hend.1)
      · have hsame := ih.resolve_right fun hend => by cases hend.1
        cases hdecode : balDecodeArm64 input.table (input.memory.word s.guestAddress) with
        | none =>
            rw [translateInstruction_undecoded hdecode]
            exact .inl hsame
        | some metadata =>
            cases htrapped : isTrapped input.engineFlags metadata with
            | true =>
                rw [translateInstruction_trapped hdecode htrapped]
                exact .inl hsame
            | false =>
                cases hnot : (s.translateOpcode metadata (input.memory.word s.guestAddress)).failed with
                | true =>
                    rw [translateInstruction_failed hdecode htrapped hnot]
                    exact .inr ⟨rfl, rfl⟩
                | false =>
                    have hok := (LoopState.translateOpcode_ok (LoopState.ok_of_not_failed hnot)).1
                    exact absurd (hsame ▸ hok) hfailed

/-- The check after an instruction, on the status that it finds. -/
theorem LoopState.failed_iff (s : LoopState) : s.failed = true ↔ s.compiler.failure ≠ .success := by
  rw [LoopState.failed, Bool.or_eq_true, bne_iff_ne, bne_iff_ne, Compiler.failure]
  by_cases hstatus : s.compiler.status = .success
  · simp [hstatus]
  · simp [hstatus]

/-- Entered with a failure, the check after the first instruction finds one of the reasons. -/
theorem failsAtOnce (hfailed : ¬c.Enters) (hsize : c.assembler.capacity ≤ sizeMax) {s : LoopState}
    (hs : s.compiler = (startState c start).compiler) (metadata : Metadata) (w : BitVec 32) :
    FailsAtOnce c metadata w (s.translateOpcode metadata w).compiler.failure := by
  have hnot : ¬s.compiler.Ok := fun hok => hfailed ((Compiler.enters_iff hsize).mpr (hs ▸ hok))
  have hstatus : s.compiler.status = c.status := by rw [hs, startState_status]
  have hassembler := emitPrologue_status c hsize
  rw [← startState_assembler c start, ← hs] at hassembler
  by_cases hunsupported : Unsupported metadata w
  · have hsame := hunsupported.status s
    rw [Compiler.failure, if_neg (by rw [hsame]; decide), hsame]
    exact .unsupported hunsupported
  by_cases hand : metadata.irOpcode = .and
  · have hsame := translateOpcode_and_failed hnot hunsupported hand
    rw [Compiler.failure, if_neg (by rw [hsame]; decide), hsame]
    exact .operands hunsupported hand
  by_cases hkept : c.status = .success
  swap
  · have hsame := (translateOpcode_kept (hstatus ▸ hkept) hunsupported hand).trans hstatus
    rw [Compiler.failure, if_neg (hsame ▸ hkept), hsame]
    exact .kept hunsupported hand hkept
  -- The compiler is without an error, so it is the assembler that has failed.
  have hstopped : s.compiler.assembler.status ≠ .success := fun h => hnot ⟨hstatus.trans hkept, h⟩
  rw [translateOpcode_failed (hstatus.trans hkept) hstopped hunsupported hand, hassembler]
  cases hbranch : metadata.branches with
  | true =>
      rw [if_pos rfl]
      exact .overwritten hunsupported hand hkept (.inl hbranch)
  | false =>
      rw [if_neg Bool.false_ne_true]
      by_cases hok : c.assembler.status = .success
      swap
      · rw [if_neg hok]
        exact .overwritten hunsupported hand hkept (.inr (.inl hok))
      have hshort : ¬EmitCall.AllFit c.assembler.capacity c.assembler.offset prologueCalls :=
        fun hfits => hfailed ⟨⟨hkept, hok⟩, hfits⟩
      rw [if_pos hok, if_neg hshort]
      by_cases hquiet : EmitCall.EndsQuietly c.assembler.capacity c.assembler.offset prologueCalls
      · rw [if_pos hquiet]
        exact .overflow hunsupported hand hbranch ⟨hkept, hok⟩ hquiet
      · rw [if_neg hquiet]
        exact .overwritten hunsupported hand hkept (.inr (.inr hquiet))

/-- The reasons exclude each other. -/
theorem FailsAtOnce.unique {metadata : Metadata} {w : BitVec 32} {error error' : BalError}
    (h : FailsAtOnce c metadata w error) (h' : FailsAtOnce c metadata w error') : error = error' := by
  have hloud : metadata.branches = false → c.Ok →
      EmitCall.EndsQuietly c.assembler.capacity c.assembler.offset prologueCalls →
      ¬(metadata.branches = true ∨ c.assembler.status ≠ .success ∨
        ¬EmitCall.EndsQuietly c.assembler.capacity c.assembler.offset prologueCalls) := by
    rintro hbranch hok hquiet (hyes | hbad | hnot)
    · exact absurd (hbranch.symm.trans hyes) Bool.false_ne_true
    · exact hbad hok.assembler
    · exact hnot hquiet
  cases h with
  | unsupported h =>
      cases h' with
      | unsupported => rfl
      | operands hnot | kept hnot | overflow hnot | overwritten hnot => exact absurd h hnot
  | operands hsupported hand =>
      cases h' with
      | unsupported h => exact absurd h hsupported
      | operands => rfl
      | kept _ hne | overflow _ hne | overwritten _ hne => exact absurd hand hne
  | kept hsupported hand hstatus =>
      cases h' with
      | unsupported h => exact absurd h hsupported
      | operands _ h => exact absurd h hand
      | kept => rfl
      | overflow _ _ _ hok => exact absurd hok.status hstatus
      | overwritten _ _ hok => exact absurd hok hstatus
  | overflow hsupported hand hbranch hok hquiet =>
      cases h' with
      | unsupported h => exact absurd h hsupported
      | operands _ h => exact absurd h hand
      | kept _ _ hstatus => exact absurd hok.status hstatus
      | overflow => rfl
      | overwritten _ _ _ h => exact absurd h (hloud hbranch hok hquiet)
  | overwritten hsupported hand hstatus h =>
      cases h' with
      | unsupported h => exact absurd h hsupported
      | operands _ h => exact absurd h hand
      | kept _ _ hbad => exact absurd hstatus hbad
      | overflow _ _ hbranch hok hquiet => exact absurd h (hloud hbranch hok hquiet)
      | overwritten => rfl

/-- **The status foretold.** -/
theorem stopsWith_iff (hwindow : c.window.macros = []) (hsize : c.assembler.capacity ≤ sizeMax)
    {error : BalError} (herror : error ≠ .success) :
    StopsWith input c start error ↔ FailsWith input c start error := by
  have hsound : ∀ {s metadata}, c.Enters → MeetsInstruction input c start s metadata →
      Sound c s.compiler := by
    rintro s metadata henters ⟨i, limit, hreach, -⟩
    exact (hreach.sound henters hwindow hsize).resolve_right fun hend => by cases hend.1
  have hstuck : ∀ {i limit s}, ¬c.Enters → Reaches input c start (.forTest i limit) s →
      s.compiler = (startState c start).compiler := by
    intro i limit s hfailed hreach
    exact (hreach.stuck fun hok => hfailed ((Compiler.enters_iff hsize).mpr hok)).resolve_right
      fun hend => by cases hend.1
  constructor
  · intro h
    cases h with
    | unmapped h => exact .unmapped h
    | unaligned h => exact .unaligned h
    | @refused s metadata hmeets hfailed =>
        by_cases henters : c.Enters
        · obtain ⟨hok, hlowered, hcapacity⟩ := hsound henters hmeets
          exact .instruction hmeets henters
            ((failure_iff hok hlowered (hcapacity.trans_le hsize) herror).mp rfl)
        · obtain ⟨i, limit, hreach, -⟩ := id hmeets
          exact .atOnce hmeets henters (failsAtOnce henters hsize (hstuck henters hreach) _ _)
    | @trapped i limit s metadata hreach hin hdecode htrapped =>
        by_cases henters : c.Enters
        · have hsound' := (hreach.sound henters hwindow hsize).resolve_right fun hend => by cases hend.1
          exact absurd hsound'.ok.status herror
        · rw [hstuck henters hreach, startState_status] at herror ⊢
          exact .trapped hreach hin hdecode htrapped herror
  · intro h
    have hrefused : ∀ {s metadata}, MeetsInstruction input c start s metadata →
        (s.translateOpcode metadata (input.memory.word s.guestAddress)).compiler.failure = error →
        StopsWith input c start error := by
      rintro s metadata hmeets rfl
      exact .refused hmeets ((LoopState.failed_iff _).mpr herror)
    cases h with
    | unmapped h => exact .unmapped h
    | unaligned h => exact .unaligned h
    | instruction hmeets henters hfails =>
        obtain ⟨hok, hlowered, hcapacity⟩ := hsound henters hmeets
        exact hrefused hmeets ((failure_iff hok hlowered (hcapacity.trans_le hsize) herror).mpr hfails)
    | atOnce hmeets hfailed hfails =>
        obtain ⟨i, limit, hreach, -⟩ := id hmeets
        exact hrefused hmeets ((failsAtOnce hfailed hsize (hstuck hfailed hreach) _ _).unique hfails)
    | @trapped i limit s metadata hreach hin hdecode htrapped hkept =>
        have hfailed : ¬c.Enters := fun henters => hkept henters.ok.status
        have hstops : StopsWith input c start s.compiler.status :=
          .trapped hreach hin hdecode htrapped
        rw [hstuck hfailed hreach, startState_status] at hstops
        exact hstops

/-- With nothing wrong before, the loops stop with the overflow exactly if the buffer ends inside. -/
theorem failsWith_overflow_iff (hok : c.Ok) :
    FailsWith input c start .instructionOverflow ↔ EndsInside input c start := by
  constructor
  · intro h
    generalize herror : BalError.instructionOverflow = error at h
    cases h with
    | unmapped | unaligned => cases herror
    | instruction hmeets henters hfails =>
        cases hfails with
        | unsupported | operands | overwritten => cases herror
        | refused _ _ hrefused => exact absurd herror.symm (Script.refusal_ne_overflow hrefused.2)
        | overflow hsupported hoperands hserved hquiet =>
            exact ⟨_, _, hmeets, hsupported, .inl ⟨henters, hoperands, hserved, hquiet⟩⟩
    | atOnce hmeets _ hfails =>
        cases hfails with
        | unsupported | operands | overwritten => cases herror
        | kept _ _ hne => exact absurd hok.status hne
        | overflow hsupported hand hbranch _ hquiet =>
            exact ⟨_, _, hmeets, hsupported, .inr ⟨hquiet, hand, hbranch⟩⟩
    | trapped _ _ _ _ hne => exact absurd hok.status hne
  · rintro ⟨s, metadata, hmeets, hsupported, ⟨henters, hoperands, hserved, hquiet⟩ |
      ⟨hquiet, hand, hbranch⟩⟩
    · exact .instruction hmeets henters (.overflow hsupported hoperands hserved hquiet)
    · exact .atOnce hmeets (fun henters => hquiet.not_allFit henters.fits)
        (.overflow hsupported hand hbranch hok hquiet)

end Statuses

/-! ### Calls -/

section Calls

variable {Code : Type} {guest : Guest} {kind : CodeKind Code} {e : Engine Code} {c : Compiler}
  {t : Translation}

/-- The compiler with which the last translation of an iteration starts. -/
inductive Engine.CompilesFrom (guest : Guest) (e : Engine Code) : Compiler → Prop
  | once (hsteady : ∀ t, ¬Ballistic.Retries guest e.flags e.compiler e.cpu.pc t) :
      CompilesFrom guest e e.compiler
  | again {t : Translation} (hretries : Ballistic.Retries guest e.flags e.compiler e.cpu.pc t) :
      CompilesFrom guest e t.compiler.reset

/-- The block at the program counter cannot be compiled: the last translation of the iteration, from
`c`, returns `NULL`. -/
structure Engine.CannotCompile (guest : Guest) (e : Engine Code) (c : Compiler) (t : Translation) :
    Prop where
  proceeds : e.Proceeds
  miss : e.cacheDisabled = true ∨ e.blockCache.lookup e.cpu.pc = none
  from_compiler : e.CompilesFrom guest c
  translates : Translates (guest.input e.flags) c e.cpu.pc t
  entry_eq : t.entry = none

/-- The iteration is the last one of the call, which returns `status`. -/
def Engine.Returns (guest : Guest) (kind : CodeKind Code) (e : Engine Code) (status : BalError) :
    Prop :=
  ∃ e₁ e₂ executed, RunStep guest kind .dispatch e .release e₁ executed ∧
    RunStep guest kind .release e₁ (.returned status) e₂ none

/-- The call returns, with the status for a reason why the block cannot be compiled. -/
def Engine.ReportsCause (guest : Guest) (kind : CodeKind Code) (e : Engine Code) (c : Compiler) :
    Prop :=
  (∃ status, e.Returns guest kind status) ∧ ∀ status, e.Returns guest kind status →
    status ≠ .success ∧ FailsFor (guest.input e.flags) c e.cpu.pc status

theorem Guest.input_max (guest : Guest) (flags : EngineFlags) :
    (guest.input flags).maxInstructions ≠ 0 := by
  simp only [Guest.input]
  split <;> decide

theorem Engine.CannotCompile.compiles (h : e.CannotCompile guest c t) :
    Compiles guest e.flags e.compiler e.cpu.pc t := by
  have htranslates := h.translates
  cases h.from_compiler with
  | once hsteady =>
      refine .once htranslates (.inr fun hfull => ?_)
      exact hsteady t ⟨htranslates, h.entry_eq, hfull⟩
  | again hretries => exact .again hretries htranslates

theorem Engine.CannotCompile.unique (h : e.CannotCompile guest c t) {t' : Translation}
    (hcompiles : Compiles guest e.flags e.compiler e.cpu.pc t') : t' = t :=
  hcompiles.unique h.compiles

/-- The iteration executes nothing and ends the call. -/
theorem Engine.CannotCompile.dispatch (h : e.CannotCompile guest c t) {e' : Engine Code}
    {executed : Option Code} {again : Bool} (hdispatch : Dispatch guest kind e e' executed again) :
    e' = { e with compiler := t.compiler, status := t.compiler.status } ∧ executed = none ∧
      again = false := by
  cases hdispatch with
  | interrupt hpending => exact absurd (hpending.symm.trans h.proceeds.1) (by decide)
  | sentinel _ hpc => exact absurd hpc h.proceeds.2
  | failure _ _ hcompiles _ =>
      obtain rfl := h.unique hcompiles
      exact ⟨rfl, rfl, rfl⟩
  | block _ hobtains _ =>
      cases hobtains with
      | cached hcache hlookup =>
          rcases h.miss with hdisabled | hmiss
          · exact absurd (hcache.symm.trans hdisabled) (by decide)
          · exact absurd (hlookup.symm.trans hmiss) (by simp)
      | compiled _ hcompiles hentry =>
          rw [h.unique hcompiles, h.entry_eq] at hentry
          cases hentry

theorem Engine.CannotCompile.returns_iff (h : e.CannotCompile guest c t) {status : BalError} :
    e.Returns guest kind status ↔ status = t.compiler.status := by
  constructor
  · rintro ⟨e₁, e₂, executed, hdispatched, hreleased⟩
    generalize hpoint : RunPoint.release = q at hdispatched
    cases hdispatched with
    | dispatched hdispatch =>
        obtain ⟨rfl, -, -⟩ := h.dispatch hdispatch
        cases hreleased
        rfl
  · rintro rfl
    have hdispatch : Dispatch guest kind e
        { e with compiler := t.compiler, status := t.compiler.status } none false :=
      .failure h.proceeds h.miss h.compiles h.entry_eq
    exact ⟨_, _, none, .dispatched hdispatch, .released⟩

theorem Engine.CompilesFrom.reachable (h : e.CompilesFrom guest c) (hreachable : e.compiler.Reachable) :
    c.Reachable := by
  cases h with
  | once => exact hreachable
  | again hretries => exact (hreachable.translate hretries.1).reset

theorem Engine.CompilesFrom.capacity_eq (h : e.CompilesFrom guest c) :
    c.assembler.capacity = e.compiler.assembler.capacity := by
  cases h with
  | once => rfl
  | again hretries => exact hretries.1.capacity

/-- **Compile failures are reported.** The call returns the status documented for the cause exactly
if the loops of the translation stop at the memory interface or at an instruction that is not
supported, or if the buffer ends inside the translation of an instruction. -/
theorem reportsCause_iff (hreachable : e.compiler.Reachable)
    (hcapacity : e.compiler.assembler.capacity ≤ sizeMax) (h : e.CannotCompile guest c t) :
    e.ReportsCause guest kind c ↔
      MeetsUnmapped (guest.input e.flags) c e.cpu.pc ∨
        MeetsUnaligned (guest.input e.flags) c e.cpu.pc ∨
        MeetsUnsupported (guest.input e.flags) c e.cpu.pc ∨
        Exhausts (guest.input e.flags) c e.cpu.pc ∧ EndsInside (guest.input e.flags) c e.cpu.pc := by
  have hmax := guest.input_max e.flags
  have hwindow := (h.from_compiler.reachable hreachable).window
  have hsize : c.assembler.capacity ≤ sizeMax := h.from_compiler.capacity_eq.trans_le hcapacity
  have hoverflow : c.Ok → (StopsWith (guest.input e.flags) c e.cpu.pc .instructionOverflow ↔
      EndsInside (guest.input e.flags) c e.cpu.pc) := fun hok =>
    (stopsWith_iff hwindow hsize (by decide)).trans (failsWith_overflow_iff hok)
  constructor
  · rintro ⟨-, hreports⟩
    obtain ⟨-, hfails⟩ := hreports _ (h.returns_iff.mpr rfl)
    generalize hstatus : t.compiler.status = status at hfails
    cases hfails with
    | unmapped hmeets => exact .inl hmeets
    | unaligned hmeets => exact .inr (.inl hmeets)
    | unsupported hmeets => exact .inr (.inr (.inl hmeets))
    | exhausted hexhausts =>
        have hstops := h.translates.stopsWith hmax (by rw [hstatus]; decide)
        rw [hstatus] at hstops
        exact .inr (.inr (.inr ⟨hexhausts, (hoverflow hexhausts.1).mp hstops⟩))
  · intro hcondition
    refine ⟨⟨_, h.returns_iff.mpr rfl⟩, fun status hreturns => ?_⟩
    rw [h.returns_iff.mp hreturns]
    rcases hcondition with hmeets | hmeets | hmeets | ⟨hexhausts, hends⟩
    · rw [(StopsWith.unmapped hmeets).status hmax h.translates]
      exact ⟨nofun, .unmapped hmeets⟩
    · rw [(StopsWith.unaligned hmeets).status hmax h.translates]
      exact ⟨nofun, .unaligned hmeets⟩
    · rw [hmeets.status hmax h.translates]
      exact ⟨nofun, .unsupported hmeets⟩
    · rw [((hoverflow hexhausts.1).mpr hends).status hmax h.translates]
      exact ⟨nofun, .exhausted hexhausts⟩

end Calls

/-- A block that cannot be compiled, found by evaluation. -/
theorem cannotCompile_of_eval {Code : Type} (guest : Guest) (e : Engine Code) (fuel : Nat)
    (status assemblerStatus : BalError) (hproceeds : e.Proceeds)
    (hmiss : e.blockCache.lookup e.cpu.pc = none)
    (htranslate : (balTier1CompilerTranslate (guest.input e.flags) e.compiler e.cpu.pc fuel).map
      (fun t => (t.entry, t.compiler.status, t.compiler.assembler.status)) =
        some (none, status, assemblerStatus))
    (hsteady : assemblerStatus ≠ .instructionOverflow) :
    ∃ t, e.CannotCompile guest e.compiler t ∧ t.compiler.status = status := by
  obtain ⟨t, ht, hresult⟩ := Option.map_eq_some_iff.mp htranslate
  simp only [Prod.mk.injEq] at hresult
  obtain ⟨hentry, hstatus, rfl⟩ := hresult
  refine ⟨t, ⟨hproceeds, .inr hmiss, .once ?_, ⟨fuel, ht⟩, hentry⟩, hstatus⟩
  rintro t' ⟨ht', -, hfull⟩
  rw [ht'.unique ⟨fuel, ht⟩] at hfull
  exact hsteady hfull

/-- An engine with the guest state all zero whose buffer has the last `room` bytes left. -/
def engineWithRoom (room : Nat) : Engine Nat :=
  let c := Compiler.fresh (2 ^ 24)
  .init (cpuState (fun _ => 0) 0)
    { c with assembler := { c.assembler with offset := 2 ^ 24 - room } }

/-- A guest with nothing mapped: the memory fault is reported. -/
theorem reportsCause_iff_unmapped :
    (engineWithRoom (2 ^ 24)).ReportsCause ⟨generatedTable, fun _ => none, fun _ => 0⟩ positions
      (engineWithRoom (2 ^ 24)).compiler := by
  obtain ⟨t, hcannot, -⟩ := cannotCompile_of_eval ⟨generatedTable, fun _ => none, fun _ => 0⟩
    (engineWithRoom (2 ^ 24)) 2 .memoryFault .success ⟨by decide, by decide⟩ rfl (by decide)
    (by decide)
  have hreachable : (engineWithRoom (2 ^ 24)).compiler.Reachable := Compiler.fresh_reachable (by decide)
  exact (reportsCause_iff hreachable (by decide) hcannot).mpr (.inl ⟨_, .start, rfl, rfl⟩)

/-- A guest that jumps to itself, with thirty bytes left: the epilogue does not fit, and the call
returns success. -/
theorem epilogueOverflow_silent : ∃ t,
    (engineWithRoom 30).CannotCompile ⟨generatedTable, .ofWords 0 [0x14000000]⟩
      (engineWithRoom 30).compiler t ∧
    (engineWithRoom 30).Returns ⟨generatedTable, .ofWords 0 [0x14000000]⟩ positions .success ∧
    ¬(engineWithRoom 30).ReportsCause ⟨generatedTable, .ofWords 0 [0x14000000]⟩ positions
      (engineWithRoom 30).compiler := by
  obtain ⟨t, hcannot, hstatus⟩ := cannotCompile_of_eval
    ⟨generatedTable, .ofWords 0 [0x14000000]⟩ (engineWithRoom 30) 5 .success .invalidArgument
    ⟨by decide, by decide⟩ rfl (by decide) (by decide)
  have hreturns : (engineWithRoom 30).Returns ⟨generatedTable, .ofWords 0 [0x14000000]⟩ positions
      .success := hcannot.returns_iff.mpr hstatus.symm
  exact ⟨t, hcannot, hreturns, fun hreports => (hreports.2 _ hreturns).1 rfl⟩

end Ballistic
