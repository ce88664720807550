import Ballistic.Proof.Coherence
import Ballistic.Proof.Emitters
import Ballistic.Proof.Termination

/-!
# Whose code a byte is

A macro waits in the window before its code is written, so code is often written while a later
instruction is translated. To say whose code a byte is, a translation is taken apart into operations
on the window (`windowOps`, `terminateOps`), and a `Provenance` goes along with them: the tags of the
macros in the window, and the stretches of code written so far with the tags of their macros.
-/

namespace Ballistic

open Machine Machine.X86

/-! ### A translation as operations on the window -/

inductive WindowOp where
  | push (m : Macro)
  | flush
  | emit (call : EmitCall)

namespace Compiler

def operate (c : Compiler) : WindowOp → Compiler
  | .push m => c.push m
  | .flush => c.flushAll
  | .emit call => c.onAssembler fun a => call.apply a

def operateAll (c : Compiler) (ops : List WindowOp) : Compiler := ops.foldl operate c

end Compiler

def pushOps (ms : List Macro) : List WindowOp := ms.map .push

def storePcOps (pc : Address) : List WindowOp :=
  [.emit (.movR64Imm64 (some .rax) pc),
    .emit (.storeR64RbpOffset (some .rax) (BitVec.ofNat 32 offsetPc))]

def epilogueOps : List WindowOp :=
  [.emit (.popR64 (some .r15)), .emit (.popR64 (some .r14)), .emit (.popR64 (some .r13)),
    .emit (.popR64 (some .r12)), .emit (.popR64 (some .rbp)), .emit .ret]

def shortEpilogueOps : List WindowOp := [.emit (.popR64 (some .rbp)), .emit .ret]

/-- `flush_dirty_registers` and the flush that follows it everywhere. -/
def writeBackOps (r : RegisterAllocator) : List WindowOp :=
  pushOps (Compiler.dirtyStores r) ++ [.flush]

/-- `terminate_block`. -/
def terminateOps (r : RegisterAllocator) (nextPc : Address) (isPcDynamic : Bool)
    (armInstructionCount : Nat) (engineFlags : EngineFlags) : List WindowOp :=
  (if engineFlags.has EngineFlags.instructionCounting then
      pushOps [immediateMacro .addCpuIcount (some .rbp) (BitVec.ofNat 64 armInstructionCount)]
    else []) ++
    writeBackOps r ++ (if isPcDynamic then [] else storePcOps nextPc) ++ epilogueOps

/-- `terminate_block_conditional`. -/
def conditionalOps (r : RegisterAllocator) (condition : Condition)
    (fallthroughPc takenPc : Address) : List WindowOp :=
  [.flush, .emit (.jccRel32 condition (BitVec.ofNat 32 (Compiler.epilogueSize r fallthroughPc)))] ++
    writeBackOps r ++ storePcOps fallthroughPc ++ epilogueOps ++
    writeBackOps r ++ storePcOps takenPc ++ shortEpilogueOps

/-- `translate_b_cond`. -/
def bCondOps (r : RegisterAllocator) (w : BitVec 32) (pc : Address) : List WindowOp :=
  let imm19 := w >>> 5 &&& 0x7FFFF
  let takenPc := pc + ((imm19 ^^^ 0x40000) - 0x40000).signExtend 64 * 4
  if w &&& 0xF = 0xE then writeBackOps r ++ storePcOps takenPc ++ shortEpilogueOps
  else
    match Compiler.conditionFlag (w &&& 0xF) with
    | none => []
    | some (flagOffset, testForZero) =>
        [.flush, .emit (.cmpMem8RbpOffsetImm (BitVec.ofNat 32 flagOffset) 0)] ++
          conditionalOps r (if testForZero then .e else .ne) (pc + 4) takenPc

/-- `translate_cbz_cbnz`. -/
def cbzOps (r : RegisterAllocator) (metadata : Metadata) (w : BitVec 32) (pc : Address)
    (isCbnz : Bool) : List WindowOp :=
  match r.allocate (Compiler.registerOperand metadata w 0) false with
  | none => []
  | some n =>
      pushOps (n.macros ++
          [registerMacro .testRegisterRegister (some n.register) (some n.register)]) ++
        conditionalOps n.allocator (if isCbnz then .ne else .e) (pc + 4)
          (pc + Compiler.branchOffset metadata w 1)

def planOps (plan : Option Plan) : List WindowOp := plan.elim [] fun p => pushOps p.macros

/-- What the opcode switch does with an instruction that it does not refuse. -/
def windowOps (r : RegisterAllocator) (metadata : Metadata) (w : BitVec 32) (pc : Address) :
    List WindowOp :=
  match metadata.outcome with
  | .continues => planOps (r.plan metadata w)
  | .movesRegister =>
      planOps (r.planMovRegister (Compiler.registerOperand metadata w 0)
        (Compiler.registerOperand metadata w 1))
  | .returns => planOps (r.planReturn (Compiler.registerOperand metadata w 0))
  | .branches =>
      match metadata.irOpcode with
      | .branchConditional => bCondOps r w pc
      | opcode => cbzOps r metadata w pc (opcode == .branchNotZero)
  | .stops | .jumps | .fails => []

namespace Compiler

variable {c : Compiler}

theorem operateAll_append (c : Compiler) (ops ops' : List WindowOp) :
    c.operateAll (ops ++ ops') = (c.operateAll ops).operateAll ops' := List.foldl_append ..

theorem operateAll_pushOps (c : Compiler) (ms : List Macro) : c.operateAll (pushOps ms) = c.pushAll ms :=
  List.foldl_map ..

theorem onAssembler_onAssembler (c : Compiler) (f f' : Assembler → Assembler) :
    (c.onAssembler f).onAssembler f' = c.onAssembler fun a => f' (f a) := rfl

theorem operateAll_storePcOps (c : Compiler) (pc : Address) :
    c.operateAll (storePcOps pc) = c.onAssembler (·.emitStorePc pc) := by
  simp only [operateAll, storePcOps, List.foldl_cons, List.foldl_nil, operate, onAssembler,
    EmitCall.apply, Assembler.emitStorePc]

theorem operateAll_epilogueOps (c : Compiler) :
    c.operateAll epilogueOps = c.onAssembler Assembler.emitEpilogue := by
  simp only [operateAll, epilogueOps, List.foldl_cons, List.foldl_nil, operate, onAssembler,
    EmitCall.apply, Assembler.emitEpilogue]

theorem operateAll_shortEpilogueOps (c : Compiler) :
    c.operateAll shortEpilogueOps = c.onAssembler Assembler.emitShortEpilogue := by
  simp only [operateAll, shortEpilogueOps, List.foldl_cons, List.foldl_nil, operate, onAssembler,
    EmitCall.apply, Assembler.emitShortEpilogue]

theorem operateAll_writeBackOps_of_eq {c : Compiler} {r : RegisterAllocator} (h : c.allocator = r) :
    c.operateAll (writeBackOps r) = c.flushDirtyRegisters.flushAll := by
  rw [← h, writeBackOps, operateAll_append, operateAll_pushOps]
  rfl

theorem terminateBlock_eq_operateAll (c : Compiler) (nextPc : Address) (isPcDynamic : Bool)
    (armInstructionCount : Nat) (engineFlags : EngineFlags) :
    c.terminateBlock nextPc isPcDynamic armInstructionCount engineFlags =
      c.operateAll
        (terminateOps c.allocator nextPc isPcDynamic armInstructionCount engineFlags) := by
  unfold terminateOps terminateBlock
  simp only [operateAll_append]
  generalize hcounted : (if engineFlags.has EngineFlags.instructionCounting = true then
    c.push (immediateMacro .addCpuIcount (some .rbp) (BitVec.ofNat 64 armInstructionCount))
    else c) = counted
  have hops : c.operateAll (if engineFlags.has EngineFlags.instructionCounting = true then
      pushOps [immediateMacro .addCpuIcount (some .rbp) (BitVec.ofNat 64 armInstructionCount)]
      else []) = counted := by
    rw [← hcounted]
    split <;> rfl
  have hallocator : counted.allocator = c.allocator := by
    rw [← hcounted]
    split <;> rfl
  rw [hops, operateAll_writeBackOps_of_eq hallocator, operateAll_epilogueOps]
  cases isPcDynamic with
  | true => rfl
  | false => rw [if_neg Bool.false_ne_true, if_neg Bool.false_ne_true, operateAll_storePcOps]

theorem terminateBlockConditional_eq_operateAll (c : Compiler) (condition : Condition)
    (fallthroughPc takenPc : Address) :
    c.terminateBlockConditional condition fallthroughPc takenPc =
      c.operateAll (conditionalOps c.allocator condition fallthroughPc takenPc) := by
  have hjump : c.operateAll [.flush, .emit (.jccRel32 condition
      (BitVec.ofNat 32 (epilogueSize c.allocator fallthroughPc)))] =
      c.flushAll.onAssembler (·.emitJccRel32 condition
        (BitVec.ofNat 32 (epilogueSize c.allocator fallthroughPc))) := rfl
  have hflushed : c.flushAll.allocator = c.allocator := rfl
  unfold conditionalOps terminateBlockConditional
  simp only [operateAll_append, hjump, hflushed, operateAll_storePcOps, operateAll_epilogueOps,
    operateAll_shortEpilogueOps]
  generalize hjumped : c.flushAll.onAssembler (·.emitJccRel32 condition
    (BitVec.ofNat 32 (epilogueSize c.allocator fallthroughPc))) = jumped
  have hfirst : jumped.allocator = c.allocator := by
    rw [← hjumped]
    rfl
  rw [operateAll_writeBackOps_of_eq hfirst]
  have hsecond : ((jumped.flushDirtyRegisters.flushAll.onAssembler
      (·.emitStorePc fallthroughPc)).onAssembler Assembler.emitEpilogue).allocator = c.allocator := by
    simp only [onAssembler_allocator, flushAll_allocator, flushDirtyRegisters_allocator, hfirst]
  rw [operateAll_writeBackOps_of_eq hsecond]
  simp only [onAssembler_onAssembler]

theorem translateBCond_eq_operateAll {w : BitVec 32} {pc : Address} (h : (c.translateBCond w pc).Ok) :
    c.translateBCond w pc = c.operateAll (bCondOps c.allocator w pc) := by
  simp only [translateBCond, bCondOps] at h ⊢
  split
  · rw [operateAll_append, operateAll_append, operateAll_writeBackOps_of_eq rfl,
      operateAll_storePcOps, operateAll_shortEpilogueOps, onAssembler_onAssembler]
  · next halways =>
      rw [if_neg halways] at h
      cases hflag : conditionFlag (w &&& 0xF) with
      | none =>
          simp only [hflag] at h
          exact absurd h.status (by simp)
      | some flag =>
          simp only
          rw [terminateBlockConditional_eq_operateAll, operateAll_append]
          rfl

/-- The window and the assembler do not look at the register allocator. -/
theorem operateAll_withAllocator (c : Compiler) (r : RegisterAllocator) (ops : List WindowOp) :
    ({ c with allocator := r }).operateAll ops = { c.operateAll ops with allocator := r } := by
  induction ops generalizing c with
  | nil => rfl
  | cons op ops ih =>
      cases op with
      | push m => exact ih (c.push m)
      | flush => exact ih c.flushAll
      | emit call => exact ih (c.operate (.emit call))

theorem translateCbzCbnz_eq_operateAll {metadata : Metadata} {w : BitVec 32} {pc : Address}
    {isCbnz : Bool} (h : (c.translateCbzCbnz metadata w pc isCbnz).Ok) :
    ∃ r, c.translateCbzCbnz metadata w pc isCbnz =
      { c.operateAll (cbzOps c.allocator metadata w pc isCbnz) with allocator := r } := by
  simp only [translateCbzCbnz, cbzOps] at h ⊢
  obtain ⟨n, hplan, heq⟩ := allocateX86Register_plan h.of_terminateBlockConditional.of_push
  simp only [hplan, heq]
  rw [terminateBlockConditional_eq_operateAll, apply_push, apply, operateAll_withAllocator,
    ← operateAll_pushOps, operateAll_append]
  exact ⟨n.allocator, rfl⟩

end Compiler

/-- **The opcode switch is its window operations**, up to the register allocator. -/
theorem LoopState.translateOpcode_eq_operateAll {s : LoopState} {metadata : Metadata} {w : BitVec 32}
    (h : (s.translateOpcode metadata w).compiler.Ok) :
    ∃ r, (s.translateOpcode metadata w).compiler =
      { s.compiler.operateAll (windowOps s.compiler.allocator metadata w s.guestAddress) with
        allocator := r } := by
  have hplan : ∀ {p : Plan}, ∃ r, s.compiler.apply p =
      { s.compiler.operateAll (planOps (some p)) with allocator := r } := by
    intro p
    exact ⟨p.allocator, by rw [planOps, Option.elim_some, Compiler.operateAll_pushOps]; rfl⟩
  have hswitch := (translateOpcode_ok h).2
  unfold windowOps
  cases houtcome : metadata.outcome with
  | continues =>
      simp only [houtcome] at hswitch ⊢
      obtain ⟨p, hp, heq⟩ := hswitch
      rw [heq, hp]
      exact hplan
  | movesRegister =>
      simp only [houtcome] at hswitch ⊢
      obtain ⟨p, hp, heq⟩ := hswitch
      rw [heq, hp]
      exact hplan
  | returns =>
      simp only [houtcome] at hswitch ⊢
      obtain ⟨p, hp, heq⟩ := hswitch
      rw [heq, hp]
      exact hplan
  | stops =>
      simp only [houtcome] at hswitch ⊢
      rw [hswitch]
      exact ⟨s.compiler.allocator, rfl⟩
  | jumps =>
      simp only [houtcome] at hswitch ⊢
      rw [hswitch]
      exact ⟨s.compiler.allocator, rfl⟩
  | branches =>
      simp only
      unfold translateOpcode at h ⊢
      unfold Metadata.outcome at houtcome
      cases hopcode : metadata.irOpcode with
      | branchZero | branchNotZero =>
          simp only [hopcode] at h ⊢
          exact Compiler.translateCbzCbnz_eq_operateAll h
      | branchConditional =>
          simp only [hopcode] at h ⊢
          exact ⟨_, Compiler.translateBCond_eq_operateAll h⟩
      | mov | add | sub | cmp =>
          simp only [hopcode] at houtcome
          split at houtcome
          · cases houtcome
          · split at houtcome <;> cases houtcome
      | jump | «return» | trap | and | load | store | xor | mul | div | callHost =>
          simp only [hopcode] at houtcome
          cases houtcome
  | fails =>
      simp only [houtcome] at hswitch

/-! ### Tags -/

/-- A stretch of code in the buffer, with the address of the instruction that pushed its macro; none
for the macros of `terminate_block`. -/
structure Span where
  tag : Option Address
  start : Nat
  finish : Nat
  deriving DecidableEq, Repr

/-- The tags of the macros in the window, oldest first, and the code written so far. -/
structure Provenance where
  tags : List (Option Address)
  spans : List Span
  deriving DecidableEq, Repr

/-- The code written when the macros are lowered one after the other. -/
def flushSpans (a : Assembler) : List Macro → List (Option Address) → List Span
  | m :: ms, tag :: tags =>
      ⟨tag, a.offset, (flushSingleMacro a m).offset⟩ :: flushSpans (flushSingleMacro a m) ms tags
  | _, _ => []

namespace Provenance

def flush (g : Provenance) (c : Compiler) : Provenance :=
  { tags := [], spans := g.spans ++ flushSpans c.assembler c.window.macros g.tags }

/-- One operation, for the instruction at `tag`. -/
def step (tag : Option Address) (c : Compiler) (g : Provenance) : WindowOp → Provenance
  | .push _ =>
      if c.window.macros.length = slidingWindowCapacity then { g.flush c with tags := [tag] }
      else { g with tags := g.tags ++ [tag] }
  | .flush => g.flush c
  | .emit _ => g

def run (tag : Option Address) : Compiler → Provenance → List WindowOp → Provenance
  | _, g, [] => g
  | c, g, op :: ops => run tag (c.operate op) (g.step tag c op) ops

theorem run_append (tag : Option Address) (c : Compiler) (g : Provenance)
    (ops ops' : List WindowOp) :
    run tag c g (ops ++ ops') = run tag (c.operateAll ops) (run tag c g ops) ops' := by
  induction ops generalizing c g with
  | nil => rfl
  | cons op ops ih => exact ih (c.operate op) (g.step tag c op)

/-! ### One tag for each macro -/

/-- Every macro in the window has a tag. -/
def Matches (g : Provenance) (c : Compiler) : Prop := g.tags.length = c.window.macros.length

theorem Matches.step {g : Provenance} {c : Compiler} (h : g.Matches c) (tag : Option Address)
    (op : WindowOp) : (g.step tag c op).Matches (c.operate op) := by
  unfold Matches at h ⊢
  cases op with
  | push m =>
      simp only [Provenance.step, Compiler.operate, Compiler.push, slidingWindowPush]
      split
      · split <;> simp [runPeepholeOptimizer_length]
      · split <;> simp [runPeepholeOptimizer_length, h]
  | flush => rfl
  | emit call => exact h

theorem Matches.run {g : Provenance} {c : Compiler} (h : g.Matches c) (tag : Option Address)
    (ops : List WindowOp) : (Provenance.run tag c g ops).Matches (c.operateAll ops) := by
  induction ops generalizing c g with
  | nil => exact h
  | cons op ops ih => exact ih (h.step tag op)

/-! ### Which tags there are -/

/-- Every tag, of a macro in the window or of written code, has the property. -/
structure All (P : Option Address → Prop) (g : Provenance) : Prop where
  tags : ∀ tag ∈ g.tags, P tag
  spans : ∀ span ∈ g.spans, P span.tag

theorem mem_flushSpans_tag {a : Assembler} {ms : List Macro} {tags : List (Option Address)}
    {span : Span} (h : span ∈ flushSpans a ms tags) : span.tag ∈ tags := by
  induction ms generalizing a tags with
  | nil => cases h
  | cons m ms ih =>
      cases tags with
      | nil => cases h
      | cons tag tags =>
          rcases List.mem_cons.mp h with rfl | h
          · exact List.mem_cons_self
          · exact List.mem_cons_of_mem _ (ih h)

theorem All.flush {P : Option Address → Prop} {g : Provenance} (h : g.All P) (c : Compiler) :
    (g.flush c).All P where
  tags := nofun
  spans := by
    intro span hspan
    rcases List.mem_append.mp hspan with hbefore | hnew
    · exact h.spans span hbefore
    · exact h.tags _ (mem_flushSpans_tag hnew)

theorem All.step {P : Option Address → Prop} {g : Provenance} (h : g.All P) {tag : Option Address}
    (htag : P tag) (c : Compiler) (op : WindowOp) : (g.step tag c op).All P := by
  cases op with
  | push m =>
      simp only [Provenance.step]
      split
      · exact ⟨by simpa using htag, (h.flush c).spans⟩
      · refine ⟨fun other hother => ?_, h.spans⟩
        rcases List.mem_append.mp hother with hbefore | hnew
        · exact h.tags other hbefore
        · rw [List.mem_singleton.mp hnew]
          exact htag
  | flush => exact h.flush c
  | emit call => exact h

theorem All.run {P : Option Address → Prop} {g : Provenance} (h : g.All P) {tag : Option Address}
    (htag : P tag) (c : Compiler) (ops : List WindowOp) : (Provenance.run tag c g ops).All P := by
  induction ops generalizing c g with
  | nil => exact h
  | cons op ops ih => exact ih (h.step htag c op) (c.operate op)

theorem All.imp {P Q : Option Address → Prop} {g : Provenance} (h : g.All P)
    (himp : ∀ tag, P tag → Q tag) : g.All Q :=
  ⟨fun tag htag => himp tag (h.tags tag htag), fun span hspan => himp _ (h.spans span hspan)⟩

end Provenance

/-! ### Macros are not lost -/

theorem Assembler.Closed.operate {P : Assembler → Prop} (hP : Assembler.Closed P) {c : Compiler}
    (h : P c.assembler) (op : WindowOp) : P (c.operate op).assembler := by
  cases op with
  | push m => exact hP.push h m
  | flush => exact hP.flushAll h
  | emit call =>
      obtain ⟨encoding, -, -, hemit⟩ := call.apply_eq_emit
      change P (call.apply c.assembler)
      rw [hemit]
      exact hP.emit _ _ h

theorem Assembler.Closed.operateAll {P : Assembler → Prop} (hP : Assembler.Closed P) {c : Compiler}
    (h : P c.assembler) (ops : List WindowOp) : P (c.operateAll ops).assembler := by
  induction ops generalizing c with
  | nil => exact h
  | cons op ops ih => exact ih (hP.operate h op)

namespace Compiler

variable {c : Compiler}

theorem Ok.of_operate {op : WindowOp} (h : (c.operate op).Ok) : c.Ok := by
  cases op with
  | push m => exact Ok.of_push h
  | flush => exact Ok.of_flushAll h
  | emit call =>
      refine ⟨h.status, ?_⟩
      by_contra hfailed
      have hassembler : (call.apply c.assembler).status = .success := h.assembler
      rw [call.apply_failed hfailed] at hassembler
      split at hassembler
      · cases hassembler
      · exact hfailed hassembler

theorem Ok.of_operateAll {ops : List WindowOp} (h : (c.operateAll ops).Ok) : c.Ok := by
  induction ops generalizing c with
  | nil => exact h
  | cons op ops ih => exact (ih h).of_operate

theorem operate_capacity (c : Compiler) (op : WindowOp) :
    (c.operate op).assembler.capacity = c.assembler.capacity :=
  (closed_capacity c.assembler.capacity).operate rfl op

theorem operate_offset_le (c : Compiler) (op : WindowOp) :
    c.assembler.offset ≤ (c.operate op).assembler.offset :=
  ((Assembler.Extends.closed c.assembler).operate (.refl _) op).offset_le

end Compiler

/-- The peephole pass leaves a lasting macro where it is. -/
theorem getElem?_runPeepholeOptimizer {before : List Macro} {m : Macro} {i : Nat}
    (hm : before[i]? = some m) (hlasting : m.isLasting = true) (n : Macro) :
    (runPeepholeOptimizer before n)[i]? = some m := by
  obtain ⟨hi, -⟩ := List.getElem?_eq_some_iff.mp hm
  have hkept : ∀ after : List Macro, (before ++ after)[i]? = some m := fun after => by
    rw [List.getElem?_append_left hi, hm]
  unfold runPeepholeOptimizer
  split
  · exact hkept _
  · split
    · exact hkept _
    · next macro2 hlast =>
        split
        · next hredundant =>
            -- The macro that is dropped is a move, so it is not this one.
            obtain ⟨front, rfl⟩ := List.getLast?_eq_some_iff.mp hlast
            have hfront : i < front.length := by
              by_contra hout
              rw [List.getElem?_append_right (Nat.le_of_not_lt hout)] at hm
              have hmem := List.mem_singleton.mp (List.mem_of_getElem? hm)
              rw [hmem, Macro.isLasting, hredundant.2.1] at hlasting
              simp at hlasting
            rw [List.getElem?_append_left hfront] at hm
            rw [List.dropLast_concat, List.getElem?_append_left hfront, hm]
        · exact hkept _

theorem runPeepholeOptimizer_of_lasting {before : List Macro} {m : Macro}
    (hlasting : m.isLasting = true) : runPeepholeOptimizer before m = before ++ [m] := by
  have hmove : m.opcode ≠ .movRegisterRegister := by
    intro hmove
    simp [Macro.isLasting, hmove] at hlasting
  unfold runPeepholeOptimizer
  rw [if_neg fun h => hmove h.1]
  split
  · rfl
  · rw [if_neg fun h => hmove h.1]

/-- The code of a lasting macro, when it is written. -/
theorem exists_mem_flushSpans {a : Assembler} {ms : List Macro} {tags : List (Option Address)}
    (hok : (flushMacros a ms).status = .success) {i : Nat} {m : Macro} {tag : Option Address}
    (hm : ms[i]? = some m) (hlasting : m.isLasting = true) (htag : tags[i]? = some tag) :
    ∃ span ∈ flushSpans a ms tags, span.tag = tag ∧ a.offset ≤ span.start ∧
      span.start < span.finish ∧ span.start ≤ a.capacity := by
  induction ms generalizing a tags i with
  | nil => cases hm
  | cons n ms ih =>
      cases tags with
      | nil => cases htag
      | cons tag' tags =>
          have hhead : (flushSingleMacro a n).status = .success := by
            by_contra hfailed
            exact hfailed (by rwa [flushMacros, List.foldl_cons, ← flushMacros,
              flushMacros_failed ms hfailed] at hok)
          have hemitted := flushSingleMacro_emitted hhead
          cases i with
          | zero =>
              cases hm
              cases htag
              refine ⟨_, List.mem_cons_self, rfl, le_rfl, ?_, ?_⟩
              · simp only [Macro.isLasting, Bool.and_eq_true, Bool.not_eq_true',
                  List.isEmpty_eq_false_iff] at hlasting
                have hlength := hemitted.code.length_le
                have hpos := List.length_pos_iff.mpr hlasting.2
                simp only
                omega
              · simp only [Macro.isLasting, Bool.and_eq_true, Bool.not_eq_true',
                  List.isEmpty_eq_false_iff] at hlasting
                exact hemitted.fits hlasting.2
          | succ i =>
              obtain ⟨span, hspan, hspanTag, hstart, hfinish, hfits⟩ := ih hok hm htag
              have hle := hemitted.code.length_le
              rw [hemitted.capacity_eq] at hfits
              exact ⟨span, List.mem_cons_of_mem _ hspan, hspanTag, by omega, hfinish, hfits⟩

namespace Provenance

/-- Code for the instruction at `address` has been written at or behind `floor`. -/
def Written (g : Provenance) (capacity : Nat) (address : Address) (floor : Nat) : Prop :=
  ∃ span ∈ g.spans, span.tag = some address ∧ floor ≤ span.start ∧ span.start < span.finish ∧
    span.start ≤ capacity

/-- A lasting macro of the instruction at `address` is in the window. -/
def Waiting (g : Provenance) (c : Compiler) (address : Address) : Prop :=
  ∃ (i : Nat) (m : Macro), c.window.macros[i]? = some m ∧ m.isLasting = true ∧
    g.tags[i]? = some (some address)

/-- Code for the instruction at `address` has been written at or behind `floor`, or will be. -/
def Delivers (g : Provenance) (c : Compiler) (address : Address) (floor : Nat) : Prop :=
  g.Written c.assembler.capacity address floor ∨
    g.Waiting c address ∧ floor ≤ c.assembler.offset

variable {g : Provenance} {c : Compiler} {address : Address} {floor : Nat}

theorem Written.step (h : g.Written c.assembler.capacity address floor) (tag : Option Address)
    (op : WindowOp) :
    (g.step tag c op).Written (c.operate op).assembler.capacity address floor := by
  obtain ⟨span, hspan, hfacts⟩ := h
  rw [c.operate_capacity]
  refine ⟨span, ?_, hfacts⟩
  cases op with
  | push m =>
      simp only [Provenance.step]
      split
      · exact List.mem_append_left _ hspan
      · exact hspan
  | flush => exact List.mem_append_left _ hspan
  | emit call => exact hspan

/-- What waits is written by a flush. -/
theorem Waiting.flush (h : g.Waiting c address) (hfloor : floor ≤ c.assembler.offset)
    (hok : (flushMacros c.assembler c.window.macros).status = .success) :
    (g.flush c).Written c.assembler.capacity address floor := by
  obtain ⟨i, m, hm, hlasting, htag⟩ := h
  obtain ⟨span, hspan, hspanTag, hstart, hfacts⟩ := exists_mem_flushSpans hok hm hlasting htag
  exact ⟨span, List.mem_append_right _ hspan, hspanTag, hfloor.trans hstart, hfacts⟩

theorem Delivers.step (h : g.Delivers c address floor) (tag : Option Address) {op : WindowOp}
    (hok : (c.operate op).Ok) : (g.step tag c op).Delivers (c.operate op) address floor := by
  rcases h with hwritten | ⟨hwaiting, hfloor⟩
  · exact .inl (hwritten.step tag op)
  · have hassembler := hok.assembler
    cases op with
    | push m =>
        by_cases hfull : c.window.macros.length = slidingWindowCapacity
        · left
          rw [c.operate_capacity]
          simp only [Provenance.step, if_pos hfull]
          simp only [Compiler.operate, Compiler.push, slidingWindowPush, dif_pos hfull] at hassembler
          exact hwaiting.flush hfloor hassembler
        · right
          obtain ⟨i, n, hn, hlasting, htag⟩ := hwaiting
          have hstatus := hok.of_operate.assembler
          simp only [Provenance.step, if_neg hfull, Compiler.operate, Compiler.push,
            slidingWindowPush, dif_neg hfull]
          refine ⟨⟨i, n, ?_, hlasting, ?_⟩, hfloor⟩
          · simp only [hstatus, ne_eq, not_true_eq_false, if_false]
            exact getElem?_runPeepholeOptimizer hn hlasting m
          · obtain ⟨hi, -⟩ := List.getElem?_eq_some_iff.mp htag
            rw [List.getElem?_append_left hi, htag]
    | flush =>
        left
        rw [c.operate_capacity]
        exact hwaiting.flush hfloor hassembler
    | emit call => exact .inr ⟨hwaiting, hfloor.trans (c.operate_offset_le _)⟩

theorem Delivers.run (h : g.Delivers c address floor) (tag : Option Address) {ops : List WindowOp}
    (hok : (c.operateAll ops).Ok) :
    (Provenance.run tag c g ops).Delivers (c.operateAll ops) address floor := by
  induction ops generalizing c g with
  | nil => exact h
  | cons op ops ih =>
      have hfirst : (c.operate op).Ok := Compiler.Ok.of_operateAll hok
      exact ih (h.step tag hfirst) hok

/-- The last of several macros is still in the window after it has been pushed. -/
theorem waiting_of_last (h : g.Matches c) {ms : List Macro} {m : Macro}
    (hlasting : m.isLasting = true) (hok : (c.operateAll (pushOps (ms ++ [m]))).Ok) :
    (Provenance.run (some address) c g (pushOps (ms ++ [m]))).Waiting
      (c.operateAll (pushOps (ms ++ [m]))) address := by
  rw [pushOps, List.map_append] at hok ⊢
  rw [Compiler.operateAll_append] at hok ⊢
  rw [run_append]
  have hmatches := h.run (some address) (ms.map .push)
  generalize c.operateAll (ms.map .push) = c' at hok hmatches ⊢
  generalize Provenance.run (some address) c g (ms.map .push) = g' at hmatches ⊢
  have hassembler := hok.assembler
  simp only [List.map_cons, List.map_nil, Provenance.run, Provenance.step, Compiler.operateAll,
    List.foldl_cons, List.foldl_nil, Compiler.operate, Compiler.push, slidingWindowPush]
    at hassembler ⊢
  split
  · next hfull =>
      simp only [dif_pos hfull] at hassembler
      refine ⟨0, m, ?_, hlasting, rfl⟩
      simp [hassembler, runPeepholeOptimizer_of_lasting hlasting]
  · next hroom =>
      simp only [dif_neg hroom] at hassembler
      refine ⟨c'.window.macros.length, m, ?_, hlasting, ?_⟩
      · simp [hassembler, runPeepholeOptimizer_of_lasting hlasting]
      · unfold Matches at hmatches
        rw [← hmatches]
        simp

end Provenance

end Ballistic
