import Ballistic.Proof.Frames

/-!
# Blocks without a conditional end

As long as the block goes on, each instruction adds the instructions of its plan to the code
(`Succeeds.running`), and every ending but a conditional branch adds at most one plan more
(`LeavesAt.plan`). Such a block is one piece of straight-line code up to its only `ret`
(`Succeeds.straight`), and a call of it runs that code (`StraightBlock.run`).
-/

namespace Ballistic

open Machine Machine.X86

section Blocks

variable {input : TranslateInput} {c : Compiler} {start : Address} {t : Translation} {entry : Nat}

theorem Compiler.Reachable.window (h : c.Reachable) : c.window.macros = [] := by
  induction h with
  | init h =>
      obtain ⟨assembler, -, rfl⟩ := Option.map_eq_some_iff.mp h
      rfl
  | reset => rfl
  | @translate input c a t _ h ih =>
      obtain ⟨fuel, h⟩ := h
      unfold balTier1CompilerTranslate at h
      split at h
      · cases h
        exact ih
      · obtain ⟨s, -, rfl⟩ := Option.map_eq_some_iff.mp h
        simp only [finishTranslation]
        split <;>
        · simp only [Compiler.terminateBlock]
          split <;> rfl

/-! ### The compiler before an instruction -/

/-- The states in which the compiler stands before an instruction of a block: a translation has begun,
and the block has gone on at some instructions. -/
inductive Compiler.Translating : Compiler → Prop
  | start {c : Compiler} (hreachable : c.Reachable) (guestAddress : Address) :
      Translating (startState c guestAddress).compiler
  | next {s : LoopState} {metadata : Metadata} {w : BitVec 32} (h : Translating s.compiler)
      (houtcome : metadata.outcome = .continues) (hok : (s.translateOpcode metadata w).compiler.Ok) :
      Translating (s.translateOpcode metadata w).compiler

theorem Compiler.Translating.invariant {c : Compiler} (h : c.Translating) :
    c.allocator.Wf ∧ ∀ i ∈ c.pending, Confined workingRegisters cpuSize i := by
  induction h with
  | @start c hreachable guestAddress =>
      refine ⟨RegisterAllocator.reset_wf, ?_⟩
      have hempty : (startState c guestAddress).compiler.pending = [] := by
        rw [Compiler.pending]
        simp [startState, hreachable.window]
      simp [hempty]
  | @next s metadata w _ houtcome hok ih =>
      have hswitch := (LoopState.translateOpcode_ok hok).2
      rw [houtcome] at hswitch
      obtain ⟨p, hplan, heq⟩ := hswitch
      have hsafe := RegisterAllocator.plan_safe ih.1 hplan
      rw [heq] at hok ⊢
      obtain ⟨is, -, -, hmem⟩ := Compiler.produces_apply (p := p) hok
      refine ⟨hsafe.wf, fun i hi => ?_⟩
      exact (List.mem_append.mp (hmem i (List.mem_append_right _ hi))).elim (ih.2 i)
        (confined_instrsOf hsafe.confined i)

/-! ### Running -/

/-- **Induction along a block**, with the place of the loops. -/
theorem Succeeds.pointInduction (h : Succeeds input c start t entry) {P : LoopPoint → LoopState → Prop}
    (hstart : P .whileTest (startState c start))
    (henter : ∀ {s bytes}, P .whileTest s → Readable input s.guestAddress bytes →
      P (.forTest 0 (min (bytes / 4) input.maxInstructions)) s)
    (hleave : ∀ {i limit s}, P (.forTest i limit) s → ¬i < limit → P .whileTest s)
    (hinstr : ∀ {i limit s s' metadata plan}, Reaches input c start (.forTest i limit) s →
      Running input start (.forTest i limit) s → P (.forTest i limit) s → i < limit →
      balDecodeArm64 input.table (input.memory.word s.guestAddress) = some metadata →
      endingOf input i metadata = none →
      s.compiler.allocator.plan metadata (input.memory.word s.guestAddress) = some plan →
      (s.compiler.apply plan).Ok → (s.withCompiler (s.compiler.apply plan)).Counts s' →
      P (.forTest (i + 1) limit) { s' with guestAddress := s.guestAddress + 4 })
    {p : LoopPoint} {s : LoopState} (hreach : Reaches input c start p s)
    (hrunning : Running input start p s) : P p s := by
  induction hreach with
  | start => exact hstart
  | @step p p' s s' hreach hnext ih =>
      have hok := h.ok (.step hreach hnext)
      rcases h.reached hreach with hbefore | ⟨rfl, s0, metadata, ending, hended⟩
      · obtain ⟨bytes, rfl, -, hreadable, rfl, rfl⟩ | ⟨i, limit, rfl, hout, rfl, rfl⟩ |
          ⟨i, limit, rfl, hin, rfl, rfl⟩ := loopStep_next hnext
        · exact henter (ih hbefore) hreadable
        · exact hleave (ih hbefore) hout
        · obtain ⟨metadata, hdecode⟩ := h.decodes hreach hin
          cases hending : endingOf input i metadata with
          | none =>
              obtain ⟨plan, s1, hplan, hokPlan, hcounts, heq⟩ :=
                translateInstruction_continues hdecode hending hbefore.notTerminated hok
              rw [heq]
              exact hinstr hreach hbefore (ih hbefore) hin hdecode hending hplan hokPlan hcounts
          | some ending =>
              have hleaves := (translateInstruction_ends hdecode hending hok).2
              have hterminated := hleaves.terminated
              rw [hrunning.notTerminated] at hterminated
              cases hterminated
      · obtain ⟨_, -, hfalse, _⟩ | ⟨_, _, habsurd, _⟩ | ⟨_, _, habsurd, _⟩ := loopStep_next hnext
        · rw [hended.leaves.terminated] at hfalse
          cases hfalse
        · cases habsurd
        · cases habsurd

/-- A property of the local variables that holds at the start and that every instruction at which the
block goes on keeps, holds as long as the block goes on. -/
theorem Succeeds.induction (h : Succeeds input c start t entry) {P : LoopState → Prop}
    (hstart : P (startState c start))
    (hinstr : ∀ {i limit s s' metadata plan}, Reaches input c start (.forTest i limit) s →
      Running input start (.forTest i limit) s → P s → i < limit →
      balDecodeArm64 input.table (input.memory.word s.guestAddress) = some metadata →
      endingOf input i metadata = none →
      s.compiler.allocator.plan metadata (input.memory.word s.guestAddress) = some plan →
      (s.compiler.apply plan).Ok → (s.withCompiler (s.compiler.apply plan)).Counts s' →
      P { s' with guestAddress := s.guestAddress + 4 })
    {p : LoopPoint} {s : LoopState} (hreach : Reaches input c start p s)
    (hrunning : Running input start p s) : P s :=
  h.pointInduction (P := fun _ s => P s) hstart (fun hs _ => hs) (fun hs _ => hs) hinstr hreach hrunning

/-- The code up to a point of the block: confined, and with a well-formed allocator. -/
structure CodeUpTo (c : Compiler) (start : Address) (s : LoopState) (js : List Instr) : Prop where
  wf : s.compiler.allocator.Wf
  produces : Produces (startState c start).compiler s.compiler js
  confined : ∀ i ∈ js, Confined workingRegisters cpuSize i

theorem CodeUpTo.apply {s s' : LoopState} {js : List Instr} (h : CodeUpTo c start s js) {p : Plan}
    (hsafe : p.Safe) (hok : (s.compiler.apply p).Ok) (heq : s'.compiler = s.compiler.apply p) :
    CodeUpTo c start s' (js ++ instrsOf p.macros) := by
  refine ⟨?_, ?_, fun i hi => ?_⟩
  · rw [heq]
    exact hsafe.wf
  · rw [heq]
    exact h.produces.trans (Compiler.produces_apply hok)
  · rcases List.mem_append.mp hi with hi | hi
    · exact h.confined i hi
    · exact confined_instrsOf hsafe.confined i hi

/-- The code up to a point leaves the instruction counter alone. -/
theorem Succeeds.sparing (h : Succeeds input c start t entry) {p : LoopPoint} {s : LoopState}
    (hreach : Reaches input c start p s) (hrunning : Running input start p s) :
    ∃ js, CodeUpTo c start s js ∧
      ∀ i ∈ js, Confined workingRegisters offsetInstructionCount i := by
  refine h.induction (P := fun s => ∃ js, CodeUpTo c start s js ∧
    ∀ i ∈ js, Confined workingRegisters offsetInstructionCount i) ?_ ?_ hreach hrunning
  · exact ⟨[], ⟨RegisterAllocator.reset_wf, .refl _, by simp⟩, by simp⟩
  · intro i limit s s' metadata plan _ _ hcode _ _ _ hplan hok hcounts
    obtain ⟨js, hcode, hspares⟩ := hcode
    have hsafe := RegisterAllocator.plan_safe hcode.wf hplan
    exact ⟨_, hcode.apply hsafe hok hcounts.eq.1, fun i hi =>
      (List.mem_append.mp hi).elim (hspares i) (spares_instrsOf hsafe.confined i)⟩

theorem Succeeds.running (h : Succeeds input c start t entry) {p : LoopPoint} {s : LoopState}
    (hreach : Reaches input c start p s) (hrunning : Running input start p s) :
    ∃ js, CodeUpTo c start s js := by
  obtain ⟨js, hcode, -⟩ := h.sparing hreach hrunning
  exact ⟨js, hcode⟩

/-! ### The last instruction -/

/-- The plan of the instruction at which a block ends; none for a conditional branch. -/
def RegisterAllocator.endPlan (r : RegisterAllocator) (metadata : Metadata) (w : BitVec 32) :
    Ending → Option Plan
  | .trapped | .opcode .stops | .opcode .jumps => some ⟨r, []⟩
  | .limit => r.plan metadata w
  | .opcode .movesRegister =>
      r.planMovRegister (Compiler.registerOperand metadata w 0) (Compiler.registerOperand metadata w 1)
  | .opcode .returns => r.planReturn (Compiler.registerOperand metadata w 0)
  | .opcode _ => none

theorem RegisterAllocator.endPlan_safe {r : RegisterAllocator} (h : r.Wf) {metadata : Metadata}
    {w : BitVec 32} {ending : Ending} {p : Plan} (hplan : r.endPlan metadata w ending = some p) :
    p.Safe := by
  unfold endPlan at hplan
  split at hplan
  · cases hplan
    exact ⟨h, by simp⟩
  · cases hplan
    exact ⟨h, by simp⟩
  · cases hplan
    exact ⟨h, by simp⟩
  · exact plan_safe h hplan
  · exact planMovRegister_safe h hplan
  · exact planReturn_safe h hplan
  · cases hplan

/-- The guest address with which a block ends at the instruction at `a`. -/
def endAddress (metadata : Metadata) (w : BitVec 32) (a : Address) : Ending → Address
  | .opcode .jumps => Compiler.translateJump metadata w a
  | _ => a

theorem LeavesAt.plan {s0 s : LoopState} {metadata : Metadata} {ending : Ending}
    (h : LeavesAt input s0 metadata ending s) {i : Nat}
    (hending : endingOf input i metadata = some ending) (hstatic : s0.isPcDynamic = false)
    (hne : ending ≠ .opcode .branches) :
    ∃ p, s0.compiler.allocator.endPlan metadata (input.memory.word s0.guestAddress) ending = some p ∧
      s.compiler = s0.compiler.apply p ∧
      s.guestAddress = endAddress metadata (input.memory.word s0.guestAddress) s0.guestAddress ending ∧
      s.isPcDynamic = decide (ending = .opcode .returns) := by
  obtain ⟨-, rfl⟩ | ⟨-, houtcome, rfl⟩ | ⟨-, houtcome, -, rfl⟩ := endingOf_some hending
  · obtain rfl : s = s0.terminate := h
    exact ⟨_, rfl, rfl, rfl, by simpa [LoopState.terminate] using hstatic⟩
  · obtain ⟨hok', s', hcounts, rfl⟩ := h
    obtain ⟨hcompiler, haddress, -, hdynamic⟩ := hcounts.eq
    have hswitch := (LoopState.translateOpcode_ok hok').2
    simp only [LoopState.terminate, hcompiler, haddress, hdynamic]
    cases hkind : metadata.outcome with
    | continues => exact absurd hkind houtcome
    | branches => exact absurd (by rw [hkind]) hne
    | fails => simp only [hkind] at hswitch
    | stops =>
        simp only [hkind] at hswitch
        rw [hswitch]
        exact ⟨_, rfl, rfl, rfl, by simpa [LoopState.terminate] using hstatic⟩
    | jumps =>
        simp only [hkind] at hswitch
        rw [hswitch]
        exact ⟨_, rfl, rfl, rfl, by simpa using hstatic⟩
    | movesRegister =>
        simp only [hkind] at hswitch
        obtain ⟨p, hplan, hswitch⟩ := hswitch
        rw [hswitch]
        exact ⟨p, hplan, rfl, rfl, by
          simpa [LoopState.terminate, LoopState.withCompiler] using hstatic⟩
    | returns =>
        simp only [hkind] at hswitch
        obtain ⟨p, hplan, hswitch⟩ := hswitch
        rw [hswitch]
        exact ⟨p, hplan, rfl, rfl, by simp⟩
  · obtain ⟨hok', s', hcounts, rfl⟩ := h
    obtain ⟨hcompiler, haddress, -, hdynamic⟩ := hcounts.eq
    have hswitch := (LoopState.translateOpcode_ok hok').2
    simp only [houtcome] at hswitch
    obtain ⟨p, hplan, hswitch⟩ := hswitch
    simp only [LoopState.terminate, hcompiler, haddress, hdynamic]
    rw [hswitch]
    exact ⟨p, hplan, rfl, rfl, by simpa [LoopState.withCompiler] using hstatic⟩

/-! ### The whole block -/

/-- The code at `entry` is a block with the straight-line body `is`. -/
structure StraightBlock (code : Nat → Byte) (entry : Nat) (is : List Instr) : Prop where
  layout : ∃ stop stop', CodeAt code entry (prologueCode ++ is ++ epilogueCode) stop ∧
    CodeAt code stop [.ret] stop'
  confined : ∀ i ∈ is, Confined workingRegisters cpuSize i

theorem StraightBlock.straight {code : Nat → Byte} {is : List Instr}
    (h : StraightBlock code entry is) :
    ∀ i ∈ prologueCode ++ is ++ epilogueCode, i.straight := by
  intro i hi
  rcases List.mem_append.mp hi with hi | hi
  · rcases List.mem_append.mp hi with hi | hi
    · exact straight_prologueCode i hi
    · exact (h.confined i hi).straight
  · exact straight_epilogueCode i hi

theorem StraightBlock.balanced {code : Nat → Byte} {is : List Instr}
    (h : StraightBlock code entry is) {s : State} {cpu : Address} (hcall : Call s cpu entry) :
    Balanced s (execAll s (prologueCode ++ is ++ epilogueCode)) ∧
      (execAll s (prologueCode ++ is ++ epilogueCode)).memory =
        (execAll (execAll s prologueCode) is).memory := by
  rw [execAll_append, execAll_append]
  exact (hcall.inside.execAll hcall h.confined).balanced

/-- A call of a straight-line block returns, with everything restored. -/
theorem StraightBlock.run {code : Nat → Byte} {is : List Instr} (h : StraightBlock code entry is)
    {s : State} {cpu : Address} (hcall : Call s cpu entry) :
    ∃ fuel u, runToRet code fuel s = some u ∧ Balanced s u ∧
      u.memory = (execAll (execAll s prologueCode) is).memory := by
  obtain ⟨stop, stop', hcode, hret⟩ := h.layout
  obtain ⟨hbalanced, hmemory⟩ := h.balanced hcall
  have hrun := runToRet_straight hcode h.straight hcall.rip 1
  have hstop := runToRet_atRet
    (s := { execAll s (prologueCode ++ is ++ epilogueCode) with rip := stop }) hret 0
  exact ⟨_, _, hrun.trans hstop, ⟨hbalanced.rsp, hbalanced.rbp, hbalanced.rbx, hbalanced.r12, hbalanced.r13,
    hbalanced.r14, hbalanced.r15⟩, hmemory⟩

/-- On every control path of a straight-line block everything is restored at the `ret`. -/
theorem StraightBlock.paths {code : Nat → Byte} {is : List Instr} (h : StraightBlock code entry is)
    {s u : State} {cpu : Address} (hcall : Call s cpu entry) (hpath : ControlPath code s u)
    (hret : atRet code u = true) : Balanced s u := by
  obtain ⟨stop, stop', hcode, hstop⟩ := h.layout
  obtain ⟨hbalanced, -⟩ := h.balanced hcall
  have hlast := hpath.straight hret hcode h.straight hcall.rip
  rw [hlast.eq_of_ret hstop]
  exact ⟨hbalanced.rsp, hbalanced.rbp, hbalanced.rbx, hbalanced.r12, hbalanced.r13, hbalanced.r14,
    hbalanced.r15⟩

/-- **A block without a conditional end is straight-line code**: its instructions, the last one and
the tail, in order. It stays so when the buffer is written behind it. -/
theorem Succeeds.straight (h : Succeeds input c start t entry) (hwindow : c.window.macros = [])
    {s s0 : LoopState} {metadata : Metadata} {ending : Ending} (hfinal : Final input c start t s)
    (hended : Ended input c start s s0 metadata ending) (hne : ending ≠ .opcode .branches)
    {js : List Instr} (hcode : CodeUpTo c start s0 js) :
    ∃ p is, s0.compiler.allocator.endPlan metadata (input.memory.word s0.guestAddress) ending = some p ∧
      (∀ code, (∀ k < t.compiler.assembler.offset, code k = t.compiler.assembler.buffer k) →
        StraightBlock code entry is) ∧
      ∀ m, execAll m is = execAll m (js ++ instrsOf p.macros ++
        Compiler.tailCode p.allocator
          (endAddress metadata (input.memory.word s0.guestAddress) s0.guestAddress ending)
          (decide (ending = .opcode .returns)) s.armInstructionCount input.engineFlags) := by
  obtain ⟨i, limit, -, hrunning, -, hending⟩ := hended.before
  obtain ⟨p, hplan, hcompiler, haddress, hdynamic⟩ :=
    hended.leaves.plan hending hrunning.static hne
  obtain ⟨rfl, -, -⟩ := h.final
  have hsafe := RegisterAllocator.endPlan_safe hcode.wf hplan
  have hok : (s0.compiler.apply p).Ok := hcompiler ▸ h.ok hfinal.reaches
  have hlast := hcode.apply hsafe hok hcompiler
  have hokFinal := hfinal.ok
  rw [hfinal.compiler_eq] at hokFinal
  obtain ⟨-, is2, hemitted2, hexec2, hmem2⟩ := Compiler.terminateBlock_code hokFinal
  obtain ⟨is1, hemitted1, hexec1, hmem1⟩ := hlast.produces
  have hempty : (startState c start).compiler.pending = [] := by
    rw [Compiler.pending]
    simp [startState, hwindow]
  rw [← hfinal.compiler_eq] at hemitted2
  have hstart := (h.ok .start).assembler
  rw [startState_assembler] at hstart hemitted1
  obtain ⟨-, hprologue⟩ := Assembler.emitted_prologue hstart
  have hall := (hprologue.trans hemitted1).trans hemitted2
  have hallocator : s.compiler.allocator = p.allocator := by rw [hcompiler]; rfl
  rw [hallocator, haddress, hdynamic] at hexec2 hmem2
  refine ⟨p, is1 ++ is2, hplan, fun code hsame => ⟨?_, fun j hj => ?_⟩, fun m => ?_⟩
  · have hsplit : prologueCode ++ is1 ++ (is2 ++ (epilogueCode ++ [.ret])) =
        prologueCode ++ (is1 ++ is2) ++ epilogueCode ++ [.ret] := by simp
    have hcodeAt := hall.code
    rw [hsplit] at hcodeAt
    exact (hcodeAt.congr fun k _ hk => hsame k hk).split
  · have htail := confined_tailCode hsafe.wf
      (endAddress metadata (input.memory.word s0.guestAddress) s0.guestAddress ending)
      (decide (ending = .opcode .returns)) s.armInstructionCount input.engineFlags
    have hfirst : ∀ k ∈ is1 ++ s.compiler.pending, Confined workingRegisters cpuSize k := by
      intro k hk
      have hk' := hmem1 k hk
      rw [hempty, List.nil_append] at hk'
      exact hlast.confined k hk'
    rcases List.mem_append.mp hj with hj | hj
    · exact hfirst j (List.mem_append_left _ hj)
    · rcases List.mem_append.mp (hmem2 j hj) with hj | hj
      · exact hfirst j (List.mem_append_right _ hj)
      · exact htail j hj
  · rw [execAll_append, hexec2, execAll_append, ← execAll_append m is1, hexec1, hempty,
      List.nil_append, ← execAll_append]

end Blocks

end Ballistic
