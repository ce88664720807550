import Ballistic.Proof.DebugTable
import Ballistic.Proof.Provenance
import Ballistic.Proof.Straight

/-!
# Faults inside a block

`translate` notes for every instruction how much code there is before it is translated, and the
handler of faults takes an address for the last instruction whose note is not behind it. But the last
macro of an instruction is still in the window when the next one is noted, so its code is taken for
the code of a later instruction. Only blocks of one instruction are free of this, and those in which
nothing is noted for the second one, or the first one again.
-/

namespace Ballistic

open Machine Machine.X86

/-! ### The provenance of a block -/

/-- What one move of the loops does to the provenance. -/
def Provenance.after (input : TranslateInput) (p : LoopPoint) (s : LoopState) (g : Provenance) :
    Provenance :=
  match p with
  | .whileTest => g
  | .forTest i limit =>
      if i < limit then
        let w := input.memory.word s.guestAddress
        match balDecodeArm64 input.table w with
        | none => g
        | some metadata =>
            if isTrapped input.engineFlags metadata then g
            else
              Provenance.run (some s.guestAddress) s.compiler g
                (windowOps s.compiler.allocator metadata w s.guestAddress)
      else g

/-- The loops of a translation, with the provenance of the code. -/
inductive Traced (input : TranslateInput) (c : Compiler) (start : Address) :
    LoopPoint → LoopState → Provenance → Prop
  | start : Traced input c start .whileTest (startState c start) ⟨[], []⟩
  | step {p p' : LoopPoint} {s s' : LoopState} {g : Provenance} (h : Traced input c start p s g)
      (hnext : loopStep input start c.assembler.offset p s = .next p' s') :
      Traced input c start p' s' (g.after input p s)

/-- The provenance of a block, once `terminate_block` is done. -/
def LoopState.provenance (input : TranslateInput) (s : LoopState) (g : Provenance) : Provenance :=
  Provenance.run none s.compiler g
    (terminateOps s.compiler.allocator s.guestAddress s.isPcDynamic s.armInstructionCount
      input.engineFlags)

/-- For every byte that was written for a macro pushed while an instruction was translated, the search
of the handler ends at the address of that instruction. -/
def FaultsAttributed (input : TranslateInput) (c : Compiler) (start : Address) (t : Translation)
    (rxBuffer : Nat) : Prop :=
  ∀ s g, Final input c start t s → Traced input c start .whileTest s g →
    ∀ block, t.debugBlock = some block → ∀ span ∈ (s.provenance input g).spans,
      ∀ address, span.tag = some address →
        ∀ position, span.start ≤ position → position < span.finish →
          (block.entry rxBuffer).guestPc (rxBuffer + position) = address

theorem Traced.reaches {input : TranslateInput} {c : Compiler} {start : Address} {p : LoopPoint}
    {s : LoopState} {g : Provenance} (h : Traced input c start p s g) :
    Reaches input c start p s := by
  induction h with
  | start => exact .start
  | step _ hnext ih => exact ih.step hnext

theorem Reaches.traced {input : TranslateInput} {c : Compiler} {start : Address} {p : LoopPoint}
    {s : LoopState} (h : Reaches input c start p s) : ∃ g, Traced input c start p s g := by
  induction h with
  | start => exact ⟨_, .start⟩
  | step _ hnext ih =>
      obtain ⟨g, htraced⟩ := ih
      exact ⟨_, htraced.step hnext⟩

/-! ### The search -/

section Search

variable {baseGuestPc : Address} {x : BitVec 32}

/-- The mappings that begin at or before the offset are passed. -/
theorem searchMappings_append {front : List (BitVec 32 × BitVec 32)}
    (hfront : ∀ mapping ∈ front, mapping.1 ≤ x) (guestPc : Address)
    (rest : List (BitVec 32 × BitVec 32)) :
    searchMappings baseGuestPc x guestPc (front ++ rest) =
      searchMappings baseGuestPc x
        (front.getLast?.elim guestPc fun mapping => baseGuestPc + mapping.2.setWidth 64) rest := by
  induction front generalizing guestPc with
  | nil => rfl
  | cons mapping front ih =>
      have hle := hfront mapping List.mem_cons_self
      rw [List.cons_append, searchMappings, if_neg (by bv_omega),
        ih fun other hother => hfront other (List.mem_cons_of_mem _ hother)]
      cases front with
      | nil => rfl
      | cons other front => rfl

theorem searchMappings_all {mappings : List (BitVec 32 × BitVec 32)} {last : BitVec 32 × BitVec 32}
    (hpassed : ∀ mapping ∈ mappings ++ [last], mapping.1 ≤ x) (guestPc : Address) :
    searchMappings baseGuestPc x guestPc (mappings ++ [last]) =
      baseGuestPc + last.2.setWidth 64 := by
  have happend := @searchMappings_append baseGuestPc x _ hpassed guestPc []
  rw [List.append_nil, List.getLast?_concat, Option.elim_some] at happend
  rw [happend, searchMappings]

theorem searchMappings_start {mappings : List (BitVec 32 × BitVec 32)}
    (hstart : ∀ mapping ∈ mappings, mapping.2 = 0) :
    searchMappings baseGuestPc x baseGuestPc mappings = baseGuestPc := by
  induction mappings with
  | nil => rfl
  | cons mapping mappings ih =>
      have hzero : baseGuestPc + mapping.2.setWidth 64 = baseGuestPc := by
        rw [hstart mapping List.mem_cons_self]
        simp
      rw [searchMappings, hzero, ih fun other hother => hstart other (List.mem_cons_of_mem _ hother),
        ite_self]

end Search

/-! ### What one instruction notes -/

theorem Compiler.operateAll_hasDebugEntries (c : Compiler) (ops : List WindowOp) :
    (c.operateAll ops).hasDebugEntries = c.hasDebugEntries := by
  induction ops generalizing c with
  | nil => rfl
  | cons op ops ih =>
      refine (ih (c.operate op)).trans ?_
      cases op with
      | push m => rfl
      | flush => rfl
      | emit call => rfl

/-- The local variables of the loops that the opcode switch leaves alone, and the one that a jump
changes. -/
theorem LoopState.translateOpcode_locals {s : LoopState} {metadata : Metadata} {w : BitVec 32}
    (h : (s.translateOpcode metadata w).compiler.Ok) :
    (s.translateOpcode metadata w).mappings = s.mappings ∧
      (s.translateOpcode metadata w).guestAddress =
        if metadata.outcome = .jumps then Compiler.translateJump metadata w s.guestAddress
        else s.guestAddress := by
  have hswitch := (translateOpcode_ok h).2
  cases houtcome : metadata.outcome with
  | continues | movesRegister | returns =>
      simp only [houtcome] at hswitch
      obtain ⟨p, -, heq⟩ := hswitch
      rw [heq]
      exact ⟨rfl, rfl⟩
  | stops | jumps | branches =>
      simp only [houtcome] at hswitch
      rw [hswitch]
      exact ⟨rfl, rfl⟩
  | fails =>
      simp only [houtcome] at hswitch

section Step

variable {input : TranslateInput} {base : Address} {blockOffset i : Nat} {s : LoopState}
  {metadata : Metadata}

theorem translateInstruction_notes
    (hdecode : balDecodeArm64 input.table (input.memory.word s.guestAddress) = some metadata)
    (htrapped : isTrapped input.engineFlags metadata = false)
    (hok : (translateInstruction input base blockOffset i s).1.compiler.Ok)
    (hdebug : debugEnabled input s.compiler = true) (hroom : s.mappings.length < mappingsCapacity) :
    let s' := s.translateOpcode metadata (input.memory.word s.guestAddress)
    (translateInstruction input base blockOffset i s).1.compiler = s'.compiler ∧
      (translateInstruction input base blockOffset i s).1.armInstructionCount =
        s.armInstructionCount + 1 ∧
      (translateInstruction input base blockOffset i s).1.mappings =
        s.mappings ++ [(BitVec.ofNat 32 (s.compiler.assembler.offset - blockOffset),
          (s'.guestAddress - base).setWidth 32)] := by
  have hcount := s.translateOpcode_count metadata (input.memory.word s.guestAddress)
  by_cases hfailed : (s.translateOpcode metadata (input.memory.word s.guestAddress)).failed = true
  · rw [translateInstruction_failed hdecode htrapped hfailed] at hok
    exact absurd hok.status (LoopState.recordFailure_status hfailed)
  · have hok' := LoopState.ok_of_not_failed (Bool.eq_false_iff.mpr hfailed)
    obtain ⟨hmappings, -⟩ := LoopState.translateOpcode_locals hok'
    obtain ⟨r, hcompiler⟩ := LoopState.translateOpcode_eq_operateAll hok'
    have hdebug' : debugEnabled input
        (s.translateOpcode metadata (input.memory.word s.guestAddress)).compiler = true := by
      rw [hcompiler, debugEnabled, Compiler.operateAll_hasDebugEntries]
      exact hdebug
    simp only [translateInstruction, hdecode, htrapped, Bool.false_eq_true, if_false, hfailed,
      hdebug', hmappings, hroom, and_self, if_true]
    split
    · exact ⟨rfl, by simp only [LoopState.terminate, hcount], rfl⟩
    · split
      · exact ⟨rfl, by simp only [hcount], rfl⟩
      · exact ⟨rfl, by simp only [hcount], rfl⟩

end Step

/-! ### Every instruction is late -/

/-- The guest address of the instruction with this index in a block without branches. -/
def instructionAddress (start : Address) (k : Nat) : Address := start + BitVec.ofNat 64 (4 * k)

theorem instructionAddress_succ (start : Address) (k : Nat) :
    instructionAddress start k + 4 = instructionAddress start (k + 1) := by
  unfold instructionAddress
  bv_omega

theorem instructionAddress_offset (start : Address) (k : Nat) :
    (instructionAddress start k - start).setWidth 32 = BitVec.ofNat 32 (4 * k) := by
  rw [instructionAddress, BitVec.add_comm, BitVec.add_sub_cancel]
  exact BitVec.setWidth_ofNat_of_le (by decide) _

/-- The mappings were noted for code that begins between `base` and `floor`. -/
def Noted (base floor : Nat) (mappings : List (BitVec 32 × BitVec 32)) : Prop :=
  ∀ mapping ∈ mappings, ∃ x, base ≤ x ∧ x ≤ floor ∧ mapping.1 = BitVec.ofNat 32 (x - base)

/-- While the block goes on: the last instruction still has code to come, and so had the one before
it when the last one was noted. -/
structure Late (c : Compiler) (start : Address) (s : LoopState) (g : Provenance) : Prop where
  capacity_eq : s.compiler.assembler.capacity = c.assembler.capacity
  offset_le : c.assembler.offset ≤ s.compiler.assembler.offset
  debug_eq : s.compiler.hasDebugEntries = c.hasDebugEntries
  guestAddress_eq : s.guestAddress = instructionAddress start s.armInstructionCount
  matched : g.Matches s.compiler
  tagged : g.All fun tag => ∃ k < s.armInstructionCount, tag = some (instructionAddress start k)
  guestOffsets : s.mappings.map Prod.snd =
    (List.range s.armInstructionCount).map fun k => BitVec.ofNat 32 (4 * k)
  noted : Noted c.assembler.offset s.compiler.assembler.offset s.mappings
  last : ∀ k, s.armInstructionCount = k + 1 →
    g.Delivers s.compiler (instructionAddress start k) s.compiler.assembler.offset
  previous : ∀ k, s.armInstructionCount = k + 2 → ∃ floor,
    Noted c.assembler.offset floor s.mappings ∧
      g.Delivers s.compiler (instructionAddress start k) floor

theorem Late.mappings_length {c : Compiler} {start : Address} {s : LoopState} {g : Provenance}
    (h : Late c start s g) : s.mappings.length = s.armInstructionCount := by
  have hlength := congrArg List.length h.guestOffsets
  rwa [List.length_map, List.length_map, List.length_range] at hlength

theorem Late.start {c : Compiler} (hwindow : c.window.macros = []) (start : Address) :
    Late c start (startState c start) ⟨[], []⟩ where
  capacity_eq := by
    rw [startState_assembler]
    exact (closed_capacity _).emitPrologue rfl
  offset_le := by
    rw [startState_assembler]
    exact ((Assembler.Extends.closed c.assembler).emitPrologue (.refl _)).offset_le
  debug_eq := rfl
  guestAddress_eq := by simp [startState, instructionAddress]
  matched := by
    change 0 = c.window.macros.length
    rw [hwindow]
    rfl
  tagged := ⟨nofun, nofun⟩
  guestOffsets := rfl
  noted := nofun
  last := nofun
  previous := nofun

theorem Noted.snoc {base floor : Nat} {mappings : List (BitVec 32 × BitVec 32)}
    (h : Noted base floor mappings) (hfloor : base ≤ floor) (guestOffset : BitVec 32) :
    Noted base floor (mappings ++ [(BitVec.ofNat 32 (floor - base), guestOffset)]) := by
  intro mapping hmapping
  rcases List.mem_append.mp hmapping with hbefore | hlast
  · exact h mapping hbefore
  · rw [List.mem_singleton.mp hlast]
    exact ⟨floor, hfloor, le_rfl, rfl⟩

theorem Noted.mono {base floor floor' : Nat} {mappings : List (BitVec 32 × BitVec 32)}
    (h : Noted base floor mappings) (hle : floor ≤ floor') : Noted base floor' mappings := by
  intro mapping hmapping
  obtain ⟨x, hbase, hfloor, heq⟩ := h mapping hmapping
  exact ⟨x, hbase, hfloor.trans hle, heq⟩

section Trace

variable {input : TranslateInput} {c : Compiler} {start : Address} {t : Translation} {entry : Nat}
  {p : LoopPoint} {s : LoopState} {g : Provenance}

theorem Late.next (h : Late c start s g)
    (hdebug : debugEnabled input c = true) {i limit : Nat} (hin : i < limit) {metadata : Metadata}
    (hdecode : balDecodeArm64 input.table (input.memory.word s.guestAddress) = some metadata)
    (hmore : endingOf input i metadata = none) (hterminated : s.isBlockTerminated = false)
    (hok : (translateInstruction input start c.assembler.offset i s).1.compiler.Ok)
    (hroom : s.armInstructionCount < mappingsCapacity) :
    Late c start (translateInstruction input start c.assembler.offset i s).1
      (g.after input (.forTest i limit) s) := by
  obtain ⟨htrapped, houtcome, -⟩ := endingOf_none hmore
  obtain ⟨p, s1, hplan, happly, hcounts, heq⟩ :=
    translateInstruction_continues hdecode hmore hterminated hok
  have hdebug' : debugEnabled input s.compiler = true := by
    rw [debugEnabled, h.debug_eq]
    exact hdebug
  obtain ⟨hcompiler, hcount, hmappings⟩ := translateInstruction_notes hdecode htrapped hok hdebug'
    (h.mappings_length ▸ hroom)
  obtain ⟨happlied, -⟩ := hcounts.eq
  have hgoes : (translateInstruction input start c.assembler.offset i s).1.compiler =
      { s.compiler.operateAll (pushOps p.macros) with allocator := p.allocator } := by
    rw [heq, Compiler.operateAll_pushOps]
    exact happlied
  have hprovenance : g.after input (.forTest i limit) s =
      Provenance.run (some s.guestAddress) s.compiler g (pushOps p.macros) := by
    simp only [Provenance.after, if_pos hin, hdecode, htrapped, Bool.false_eq_true, if_false,
      windowOps, houtcome, hplan, planOps, Option.elim_some]
  have hguest : (translateInstruction input start c.assembler.offset i s).1.guestAddress =
      s.guestAddress + 4 := by rw [heq]
  have hnoted : ((s.translateOpcode metadata (input.memory.word s.guestAddress)).guestAddress -
      start).setWidth 32 = BitVec.ofNat 32 (4 * s.armInstructionCount) := by
    rw [hcompiler] at hok
    rw [(LoopState.translateOpcode_locals hok).2, houtcome, if_neg (by decide), h.guestAddress_eq,
      instructionAddress_offset]
  rw [hnoted] at hmappings
  rw [hgoes] at hok
  have hpushed : (s.compiler.operateAll (pushOps p.macros)).Ok := ⟨hok.status, hok.assembler⟩
  have hoffset : s.compiler.assembler.offset ≤
      (s.compiler.operateAll (pushOps p.macros)).assembler.offset :=
    ((Assembler.Extends.closed s.compiler.assembler).operateAll (.refl _) _).offset_le
  obtain ⟨front, m, hmacros, hlasting⟩ := RegisterAllocator.plan_concat hplan
  rw [hprovenance]
  refine ⟨?_, ?_, ?_, ?_, ?_, ?_, ?_, ?_, ?_, ?_⟩
  · rw [hgoes, ← h.capacity_eq]
    exact (closed_capacity _).operateAll rfl _
  · rw [hgoes]
    exact h.offset_le.trans hoffset
  · rw [hgoes, ← h.debug_eq]
    exact s.compiler.operateAll_hasDebugEntries _
  · rw [hguest, hcount, h.guestAddress_eq, instructionAddress_succ]
  · rw [hgoes]
    exact h.matched.run _ _
  · refine Provenance.All.run (h.tagged.imp ?_) ?_ _ _
    · rintro tag ⟨k, hk, htag⟩
      exact ⟨k, by omega, htag⟩
    · exact ⟨s.armInstructionCount, by omega, by rw [h.guestAddress_eq]⟩
  · rw [hmappings, hcount, List.map_append, h.guestOffsets, List.range_succ, List.map_append]
    rfl
  · rw [hmappings, hgoes]
    exact (h.noted.snoc h.offset_le _).mono hoffset
  · intro k hk
    have hkeq : k = s.armInstructionCount := by omega
    rw [hgoes, hkeq, ← h.guestAddress_eq]
    rw [hmacros] at hpushed ⊢
    exact .inr ⟨Provenance.waiting_of_last h.matched hlasting hpushed, le_rfl⟩
  · intro k hk
    rw [hmappings, hgoes]
    exact ⟨s.compiler.assembler.offset, h.noted.snoc h.offset_le _,
      (h.last k (by omega)).run _ hpushed⟩

/-- The state in which a block is terminated, with the last instruction and the provenance before
it. -/
structure LateEnd (input : TranslateInput) (c : Compiler) (start : Address) (s : LoopState)
    (g : Provenance) (s0 : LoopState) (g0 : Provenance) (metadata : Metadata) (ending : Ending) :
    Prop where
  ended : Ended input c start s s0 metadata ending
  late : s0.armInstructionCount ≤ mappingsCapacity → Late c start s0 g0
  step : ∃ i limit, i < limit ∧ endingOf input i metadata = some ending ∧
    s = (translateInstruction input start c.assembler.offset i s0).1 ∧
    g = g0.after input (.forTest i limit) s0

/-- **Every instruction is late**, as long as the block goes on, and then it ends. -/
theorem Traced.late (htraced : Traced input c start p s g) (h : Succeeds input c start t entry)
    (hdebug : debugEnabled input c = true) (hwindow : c.window.macros = []) :
    (Running input start p s ∧ (s.armInstructionCount ≤ mappingsCapacity → Late c start s g)) ∨
      (p = .whileTest ∧ ∃ s0 g0 metadata ending, LateEnd input c start s g s0 g0 metadata ending) := by
  induction htraced with
  | start => exact .inl ⟨⟨rfl, rfl, .refl⟩, fun _ => .start hwindow start⟩
  | @step p p' s s' g htraced hnext ih =>
      have hreach := htraced.reaches
      have hok := h.ok (hreach.step hnext)
      rcases ih with ⟨hrunning, hlate⟩ | ⟨rfl, s0, g0, metadata, ending, hend⟩
      · obtain ⟨bytes, rfl, -, hreadable, rfl, rfl⟩ | ⟨i, limit, rfl, hout, rfl, rfl⟩ |
          ⟨i, limit, rfl, hin, rfl, rfl⟩ := loopStep_next hnext
        · exact .inl ⟨⟨hrunning.notTerminated, hrunning.static,
            hrunning.scans.tail (.readable hreadable)⟩, hlate⟩
        · have hsame : g.after input (.forTest i limit) s' = g := by
            simp only [Provenance.after, if_neg hout]
          rw [hsame]
          exact .inl ⟨⟨hrunning.notTerminated, hrunning.static,
            hrunning.scans.tail (.exhausted hout)⟩, hlate⟩
        · obtain ⟨metadata, hdecode⟩ := h.decodes hreach hin
          have hreached := h.reached (hreach.step hnext)
          cases hending : endingOf input i metadata with
          | none =>
              obtain ⟨plan, s1, -, -, hcounts, heq⟩ :=
                translateInstruction_continues hdecode hending hrunning.notTerminated hok
              rw [heq] at hreached
              rcases hreached with hrunning' | ⟨habsurd, -⟩
              · rw [heq]
                refine .inl ⟨hrunning', fun hcount => ?_⟩
                have hroom : s.armInstructionCount < mappingsCapacity := by
                  obtain ⟨mappings, rfl⟩ := hcounts
                  exact hcount
                have hlate' := (hlate hroom.le).next hdebug hin hdecode hending
                  hrunning.notTerminated hok hroom
                rwa [heq] at hlate'
              · cases habsurd
          | some ending =>
              obtain ⟨hbreak, hleaves⟩ := translateInstruction_ends hdecode hending hok
              rw [hbreak]
              exact .inr ⟨rfl, s, g, metadata, ending,
                ⟨⟨i, limit, hreach, hrunning, hin, hending⟩, hdecode, hleaves⟩, hlate,
                i, limit, hin, hending, rfl, rfl⟩
      · -- A terminated block makes no further move.
        obtain ⟨_, -, hfalse, _⟩ | ⟨_, _, habsurd, _⟩ | ⟨_, _, habsurd, _⟩ := loopStep_next hnext
        · rw [hend.ended.leaves.terminated] at hfalse
          cases hfalse
        · cases habsurd
        · cases habsurd

theorem Final.late (hfinal : Final input c start t s) (htraced : Traced input c start .whileTest s g)
    (h : Succeeds input c start t entry) (hdebug : debugEnabled input c = true)
    (hwindow : c.window.macros = []) :
    ∃ s0 g0 metadata ending, LateEnd input c start s g s0 g0 metadata ending := by
  rcases htraced.late h hdebug hwindow with ⟨hrunning, -⟩ | ⟨-, hend⟩
  · have hterminated := hfinal.terminated
    rw [hrunning.notTerminated] at hterminated
    cases hterminated
  · exact hend

/-! ### The last instruction -/

theorem endingOf_trapped_or {i : Nat} {metadata : Metadata} {ending : Ending}
    (h : endingOf input i metadata = some ending) :
    (ending = .trapped ∧ isTrapped input.engineFlags metadata = true) ∨
      (ending ≠ .trapped ∧ isTrapped input.engineFlags metadata = false ∧
        (ending = .opcode .jumps ↔ metadata.outcome = .jumps)) := by
  obtain ⟨htrapped, rfl⟩ | ⟨htrapped, -, rfl⟩ | ⟨htrapped, houtcome, -, rfl⟩ := endingOf_some h
  · exact .inl ⟨rfl, htrapped⟩
  · exact .inr ⟨nofun, htrapped, Ending.opcode.injEq _ _ ▸ Iff.rfl⟩
  · refine .inr ⟨nofun, htrapped, ⟨nofun, fun hjumps => ?_⟩⟩
    rw [houtcome] at hjumps
    cases hjumps

/-- What a trapped instruction at the end leaves behind, and what any other one does. -/
theorem LateEnd.cases {s0 : LoopState} {g0 : Provenance} {metadata : Metadata} {ending : Ending}
    (h : LateEnd input c start s g s0 g0 metadata ending) (hdebug : debugEnabled input c = true)
    (hok : s.compiler.Ok) (hcount : s.armInstructionCount ≤ mappingsCapacity) :
    let w := input.memory.word s0.guestAddress
    let ops := windowOps s0.compiler.allocator metadata w s0.guestAddress
    Late c start s0 g0 ∧
      ((ending = .trapped ∧ s0.armInstructionCount ≤ mappingsCapacity ∧ s = s0.terminate ∧ g = g0) ∨
        (ending ≠ .trapped ∧ (ending = .opcode .jumps ↔ metadata.outcome = .jumps) ∧
          s0.armInstructionCount < mappingsCapacity ∧
          (∃ r, s.compiler = { s0.compiler.operateAll ops with allocator := r }) ∧
          g = Provenance.run (some s0.guestAddress) s0.compiler g0 ops ∧
          s.mappings = s0.mappings ++
            [(BitVec.ofNat 32 (s0.compiler.assembler.offset - c.assembler.offset),
              ((if metadata.outcome = .jumps then Compiler.translateJump metadata w s0.guestAddress
                else s0.guestAddress) - start).setWidth 32)])) := by
  obtain ⟨i, limit, hin, hending, hstate, hprovenance⟩ := h.step
  have hleaves := h.ended.leaves
  have hdecode := h.ended.decodes
  rcases endingOf_trapped_or hending with ⟨rfl, htrapped⟩ | ⟨hother, htrapped, hjumps⟩
  · have hs : s = s0.terminate := hleaves
    have hsame : s.armInstructionCount = s0.armInstructionCount := by rw [hs]; rfl
    refine ⟨h.late (hsame ▸ hcount), .inl ⟨rfl, hsame ▸ hcount, hs, ?_⟩⟩
    simp only [hprovenance, Provenance.after, if_pos hin, hdecode, htrapped, if_true]
  · have hroom : s0.armInstructionCount < mappingsCapacity := by
      have hone : s.armInstructionCount = s0.armInstructionCount + 1 := by
        have hmore := s0.translateOpcode_count metadata (input.memory.word s0.guestAddress)
        unfold LeavesAt at hleaves
        split at hleaves
        · exact absurd rfl hother
        · obtain ⟨-, s1, ⟨mappings, rfl⟩, rfl⟩ := hleaves
          simp only [LoopState.terminate, hmore]
      omega
    have hlate := h.late hroom.le
    have hdebug' : debugEnabled input s0.compiler = true := by
      rw [debugEnabled, hlate.debug_eq]
      exact hdebug
    rw [hstate] at hok
    obtain ⟨hcompiler, -, hmappings⟩ := translateInstruction_notes hdecode htrapped hok hdebug'
      (hlate.mappings_length ▸ hroom)
    rw [hcompiler] at hok
    rw [(LoopState.translateOpcode_locals hok).2, ← hstate] at hmappings
    rw [← hstate] at hcompiler
    obtain ⟨r, hops⟩ := LoopState.translateOpcode_eq_operateAll hok
    refine ⟨hlate, .inr ⟨hother, hjumps, hroom, ⟨r, hcompiler.trans hops⟩, ?_, hmappings⟩⟩
    simp only [hprovenance, Provenance.after, if_pos hin, hdecode, htrapped, Bool.false_eq_true,
      if_false]

/-- What was late before the last instruction is written in the end. -/
theorem LateEnd.written {s0 : LoopState} {g0 : Provenance} {metadata : Metadata} {ending : Ending}
    (h : LateEnd input c start s g s0 g0 metadata ending) (hdebug : debugEnabled input c = true)
    (hfinal : Final input c start t s) (htranslates : Translates input c start t)
    (hwindow : t.compiler.window.macros = []) (hcount : s.armInstructionCount ≤ mappingsCapacity) {address : Address} {floor : Nat}
    (hdelivers : g0.Delivers s0.compiler address floor) :
    (s.provenance input g).Written c.assembler.capacity address floor := by
  have hok := hfinal.ok
  rw [hfinal.compiler_eq, Compiler.terminateBlock_eq_operateAll] at hok
  have hoks := hok.of_operateAll
  have hend : g.Delivers s.compiler address floor := by
    obtain ⟨-, ⟨-, -, hs, hg⟩ | ⟨-, -, -, ⟨r, hcompiler⟩, hg, -⟩⟩ := h.cases hdebug hoks hcount
    · rw [hs, hg]
      exact hdelivers
    · rw [hcompiler] at hoks
      rw [hcompiler, hg]
      exact hdelivers.run _ ⟨hoks.status, hoks.assembler⟩
  have hdone := hend.run none hok
  rw [← Compiler.terminateBlock_eq_operateAll, ← hfinal.compiler_eq] at hdone
  rcases hdone with hwritten | ⟨⟨i, m, hm, -⟩, -⟩
  · rwa [htranslates.capacity] at hwritten
  · rw [hwindow] at hm
    cases hm

/-- The state in which the loops end is the one they return. -/
theorem Final.eq_of_runLoops (hfinal : Final input c start t s) {fuel : Nat} {s' : LoopState}
    (hrun : runLoops input start c.assembler.offset fuel .whileTest (startState c start) = some s') :
    s = s' := by
  obtain ⟨fuel', hrun'⟩ := hfinal.reaches.runLoops hrun
  cases fuel' with
  | zero => cases hrun'
  | succ fuel' =>
      simp only [runLoops, loopStep, hfinal.terminated, if_true, Option.some.injEq] at hrun'
      exact hrun'

theorem Succeeds.eq_finishTranslation (h : Succeeds input c start t entry)
    (hfinal : Final input c start t s) :
    t = finishTranslation input start c.assembler.offset s := by
  obtain ⟨⟨fuel, htranslate⟩, hentry⟩ := h
  unfold balTier1CompilerTranslate at htranslate
  split at htranslate
  · cases htranslate
    cases hentry
  · obtain ⟨s', hrun, rfl⟩ := Option.map_eq_some_iff.mp htranslate
    rw [hfinal.eq_of_runLoops hrun]

/-- The block for the debugger has the mappings of the loops. -/
theorem Succeeds.debugBlock_eq (h : Succeeds input c start t entry)
    (hfinal : Final input c start t s) (hdebug : debugEnabled input s.compiler = true) :
    t.debugBlock =
      if 0 < s.mappings.length then
        some
          { rxStart := c.assembler.offset
            rxSize := BitVec.ofNat 32 (t.compiler.assembler.offset - c.assembler.offset)
            guestAddressBase := start
            mappings := s.mappings }
      else none := by
  have hok := hfinal.ok
  have hdebug' : debugEnabled input t.compiler = true := by
    rw [hfinal.compiler_eq, Compiler.terminateBlock_eq_operateAll, debugEnabled,
      Compiler.operateAll_hasDebugEntries]
    exact hdebug
  rw [hfinal.compiler_eq] at hok hdebug' ⊢
  rw [h.eq_finishTranslation hfinal]
  simp only [finishTranslation, hok.status, hok.assembler, ne_eq, not_true_eq_false, or_self,
    if_false, hdebug', true_and]

end Trace

/-! ### Attribution -/

theorem instructionAddress_inj {start : Address} {j k : Nat} (hj : j ≤ mappingsCapacity)
    (hk : k ≤ mappingsCapacity) (h : instructionAddress start j = instructionAddress start k) :
    j = k := by
  unfold instructionAddress at h
  unfold mappingsCapacity at hj hk
  bv_omega

theorem add_setWidth_ofNat (start : Address) {k : Nat} (hk : k ≤ mappingsCapacity) :
    start + (BitVec.ofNat 32 (4 * k)).setWidth 64 = instructionAddress start k := by
  unfold instructionAddress
  unfold mappingsCapacity at hk
  bv_omega

theorem Noted.passed {base floor position : Nat} {mappings : List (BitVec 32 × BitVec 32)}
    (h : Noted base floor mappings) (hfloor : floor ≤ position) (hposition : position < 2 ^ 32) :
    ∀ mapping ∈ mappings, mapping.1 ≤ BitVec.ofNat 32 (position - base) := by
  intro mapping hmapping
  obtain ⟨x, hbase, hx, heq⟩ := h mapping hmapping
  rw [heq, BitVec.le_def, BitVec.toNat_ofNat, BitVec.toNat_ofNat, Nat.mod_eq_of_lt (by omega),
    Nat.mod_eq_of_lt (by omega)]
  omega

theorem Late.mappings_concat {c : Compiler} {start : Address} {s : LoopState} {g : Provenance}
    (h : Late c start s g) {k : Nat} (hk : s.armInstructionCount = k + 1) :
    ∃ front x, s.mappings = front ++ [(x, BitVec.ofNat 32 (4 * k))] := by
  have hoffsets := h.guestOffsets
  rw [hk, List.range_succ, List.map_append] at hoffsets
  obtain ⟨front, back, hmappings, -, hback⟩ := List.map_eq_append_iff.mp hoffsets
  obtain ⟨mapping, hmapping, hsnd⟩ := List.map_eq_singleton_iff.mp hback
  have hoffset : mapping.2 = BitVec.ofNat 32 (4 * k) := hsnd
  refine ⟨front, mapping.1, ?_⟩
  rw [hmappings, hmapping, ← hoffset]

/-- After at most one instruction every note is that of the start. -/
theorem Late.offsets_zero {c : Compiler} {start : Address} {s : LoopState} {g : Provenance}
    (h : Late c start s g) (hle : s.armInstructionCount ≤ 1) :
    ∀ mapping ∈ s.mappings, mapping.2 = 0 := by
  intro mapping hmapping
  have hmem := List.mem_map_of_mem (f := Prod.snd) hmapping
  rw [h.guestOffsets] at hmem
  obtain ⟨k, hk, heq⟩ := List.mem_map.mp hmem
  have hzero : k = 0 := by
    have hlt := List.mem_range.mp hk
    omega
  rw [← heq, hzero]
  rfl

theorem Late.tags_start {c : Compiler} {start : Address} {s : LoopState} {g : Provenance}
    (h : Late c start s g) (hle : s.armInstructionCount ≤ 1) : g.All fun tag => tag = some start := by
  refine h.tagged.imp fun tag ⟨k, hk, htag⟩ => ?_
  have hzero : k = 0 := by omega
  rw [htag, hzero]
  simp [instructionAddress]

/-- Nothing is noted for the block but its start: it has one instruction, or a second one that is left
to the host or jumps back to the start, as far as the 32 bits of a mapping can tell. -/
def NotesOnlyStart (input : TranslateInput) (start : Address) : Prop :=
  ∃ a metadata ending, EndsAt input start a metadata ending ∧
    (a = start ∨
      a = start + 4 ∧
        (ending = .trapped ∨
          ending = .opcode .jumps ∧
            (Compiler.translateJump metadata (input.memory.word a) a - start).setWidth 32 = 0))

section Attribution

variable {input : TranslateInput} {c : Compiler} {start : Address} {t : Translation} {entry : Nat}
  {s s0 : LoopState} {g g0 : Provenance} {metadata : Metadata} {ending : Ending} {rxBuffer : Nat}

theorem DebugBlock.entry_guestPc (block : DebugBlock) (rxBuffer position : Nat) :
    (block.entry rxBuffer).guestPc (rxBuffer + position) =
      searchMappings block.guestAddressBase (BitVec.ofNat 32 (position - block.rxStart))
        block.guestAddressBase block.mappings := by
  simp only [DebugBlock.entry, JitBlockEntry.guestPc, Nat.add_sub_add_left]

theorem FaultsAttributed.search (hattributed : FaultsAttributed input c start t rxBuffer)
    (hfinal : Final input c start t s) (htraced : Traced input c start .whileTest s g)
    {block : DebugBlock} (hblock : t.debugBlock = some block) {capacity floor : Nat}
    {address : Address} (hwritten : (s.provenance input g).Written capacity address floor) :
    ∃ position, floor ≤ position ∧ position ≤ capacity ∧
      searchMappings block.guestAddressBase (BitVec.ofNat 32 (position - block.rxStart))
        block.guestAddressBase block.mappings = address := by
  obtain ⟨span, hspan, htag, hfloor, hfinish, hfits⟩ := hwritten
  refine ⟨span.start, hfloor, hfits, ?_⟩
  rw [← block.entry_guestPc rxBuffer]
  exact hattributed s g hfinal htraced block hblock span hspan address htag _ le_rfl hfinish

theorem LateEnd.enabled (hend : LateEnd input c start s g s0 g0 metadata ending)
    (hdebug : debugEnabled input c = true) (hok : s.compiler.Ok)
    (hcount : s.armInstructionCount ≤ mappingsCapacity) :
    debugEnabled input s.compiler = true := by
  unfold debugEnabled at hdebug ⊢
  obtain ⟨hlate, ⟨-, -, hs, -⟩ | ⟨-, -, -, ⟨r, hcompiler⟩, -⟩⟩ := hend.cases hdebug hok hcount
  · have hsame : s.compiler.hasDebugEntries = s0.compiler.hasDebugEntries := by rw [hs]; rfl
    rw [hsame, hlate.debug_eq, hdebug]
  · rw [hcompiler, Compiler.operateAll_hasDebugEntries, hlate.debug_eq, hdebug]

/-- If faults are attributed, there are at most two instructions, and the second one is trapped or
jumps to the start. -/
theorem LateEnd.notesOnlyStart (hend : LateEnd input c start s g s0 g0 metadata ending)
    (h : Succeeds input c start t entry) (hdebug : debugEnabled input c = true)
    (hwindow : t.compiler.window.macros = []) (hcapacity : c.assembler.capacity < 2 ^ 32)
    (hfinal : Final input c start t s) (htraced : Traced input c start .whileTest s g)
    (hcount : s.armInstructionCount ≤ mappingsCapacity)
    (hattributed : FaultsAttributed input c start t rxBuffer) : NotesOnlyStart input start := by
  have hok := h.ok hfinal.reaches
  have hdebug' := hend.enabled hdebug hok hcount
  -- Code that was late for `floor` is somewhere behind it, and the search finds its instruction.
  have hsearch : ∀ {k floor : Nat}, 0 < s.mappings.length →
      g0.Delivers s0.compiler (instructionAddress start k) floor →
      ∃ position, floor ≤ position ∧ position < 2 ^ 32 ∧
        searchMappings start (BitVec.ofNat 32 (position - c.assembler.offset)) start s.mappings =
          instructionAddress start k := by
    intro k floor hpos hdelivers
    have hblock := h.debugBlock_eq hfinal hdebug'
    rw [if_pos hpos] at hblock
    obtain ⟨position, hfloor, hle, hfound⟩ := hattributed.search hfinal htraced hblock
      (hend.written hdebug hfinal h.translates hwindow hcount hdelivers)
    exact ⟨position, hfloor, by omega, hfound⟩
  obtain ⟨hlate, hcases⟩ := hend.cases hdebug hok hcount
  refine ⟨s0.guestAddress, metadata, ending, hend.ended.endsAt, ?_⟩
  cases hn : s0.armInstructionCount with
  | zero =>
      left
      rw [hlate.guestAddress_eq, hn]
      simp [instructionAddress]
  | succ n =>
      right
      obtain ⟨front, x, hmappings0⟩ := hlate.mappings_concat hn
      rcases hcases with ⟨htrapped, hroom, hs, -⟩ | ⟨-, hjumps, hroom, -, -, hmappings⟩
      · have hmappings : s.mappings = front ++ [(x, BitVec.ofNat 32 (4 * n))] := by
          rw [hs, ← hmappings0]
          rfl
        cases n with
        | zero =>
            refine ⟨?_, .inl htrapped⟩
            rw [hlate.guestAddress_eq, hn]
            rfl
        | succ k =>
            -- The code of the instruction before the last one is taken for that of the last one.
            obtain ⟨floor, hnoted, hdelivers⟩ := hlate.previous k hn
            obtain ⟨position, hfloor, hlt, hfound⟩ := hsearch (by simp [hmappings]) hdelivers
            rw [hmappings0] at hnoted
            rw [hmappings, searchMappings_all (hnoted.passed hfloor hlt),
              add_setWidth_ofNat start (by omega)] at hfound
            have hsame := instructionAddress_inj (by omega) (by omega) hfound
            omega
      · generalize hnote : ((if metadata.outcome = .jumps then
          Compiler.translateJump metadata (input.memory.word s0.guestAddress) s0.guestAddress
          else s0.guestAddress) - start).setWidth 32 = note at hmappings
        -- The last instruction before the end has its code behind every note.
        have hlast : start + note.setWidth 64 = instructionAddress start n := by
          obtain ⟨position, hfloor, hlt, hfound⟩ := hsearch (by simp [hmappings]) (hlate.last n hn)
          have hnoted := (hlate.noted.snoc hlate.offset_le note).passed hfloor hlt
          rwa [hmappings, searchMappings_all hnoted] at hfound
        have hjumps' : metadata.outcome = .jumps := by
          by_contra hother
          rw [if_neg hother, hlate.guestAddress_eq, hn, instructionAddress_offset] at hnote
          rw [← hnote, add_setWidth_ofNat start (by omega)] at hlast
          have hsame := instructionAddress_inj (by omega) (by omega) hlast
          omega
        cases n with
        | zero =>
            refine ⟨?_, .inr ⟨hjumps.mpr hjumps', ?_⟩⟩
            · rw [hlate.guestAddress_eq, hn]
              rfl
            · rw [if_pos hjumps'] at hnote
              rw [hnote]
              unfold instructionAddress at hlast
              bv_omega
        | succ k =>
            obtain ⟨floor, hnoted, hdelivers⟩ := hlate.previous k hn
            obtain ⟨position, hfloor, hlt, hfound⟩ := hsearch (by simp [hmappings]) hdelivers
            have hvalue : searchMappings start (BitVec.ofNat 32 (position - c.assembler.offset)) start
                s.mappings = instructionAddress start (k + 1) := by
              rw [hmappings, searchMappings_append (hnoted.passed hfloor hlt), hmappings0,
                List.getLast?_concat, Option.elim_some, add_setWidth_ofNat start (by omega),
                searchMappings, searchMappings, hlast, ite_self]
            have hsame := instructionAddress_inj (by omega) (by omega) (hvalue.symm.trans hfound)
            omega

/-- A block with no note but that of its start attributes all its faults. -/
theorem LateEnd.attributed (hend : LateEnd input c start s g s0 g0 metadata ending)
    (h : Succeeds input c start t entry) (hdebug : debugEnabled input c = true)
    (hfinal : Final input c start t s) (hcount : s.armInstructionCount ≤ mappingsCapacity)
    (hnotes : NotesOnlyStart input start) {block : DebugBlock} (hblock : t.debugBlock = some block)
    {span : Span} (hspan : span ∈ (s.provenance input g).spans) {address : Address}
    (htag : span.tag = some address) (position : Nat) :
    (block.entry rxBuffer).guestPc (rxBuffer + position) = address := by
  have hok := h.ok hfinal.reaches
  have hdebug' := hend.enabled hdebug hok hcount
  obtain ⟨hlate, hcases⟩ := hend.cases hdebug hok hcount
  obtain ⟨a, metadata', ending', hends, hshape⟩ := hnotes
  obtain ⟨rfl, rfl, rfl⟩ := hend.ended.endsAt.unique hends
  rw [h.debugBlock_eq hfinal hdebug'] at hblock
  split at hblock
  swap
  · cases hblock
  cases hblock
  rw [DebugBlock.entry_guestPc]
  have hdone : (∀ mapping ∈ s.mappings, mapping.2 = 0) → g.All (fun tag => tag = some start) →
      searchMappings start (BitVec.ofNat 32 (position - c.assembler.offset)) start s.mappings =
        address := by
    intro hzero htags
    have hall : (s.provenance input g).All fun tag => tag = none ∨ tag = some start :=
      (htags.imp fun tag htag => .inr htag).run (.inl rfl) _ _
    rw [searchMappings_start hzero]
    rcases hall.spans span hspan with hnone | hstart
    · rw [hnone] at htag
      cases htag
    · rw [hstart] at htag
      exact Option.some.inj htag
  have hindex : ∀ k ≤ 1, s0.armInstructionCount ≤ mappingsCapacity →
      s0.guestAddress = instructionAddress start k → s0.armInstructionCount = k := by
    intro k hk hroom haddress
    rw [hlate.guestAddress_eq] at haddress
    exact instructionAddress_inj hroom (hk.trans (by decide)) haddress
  have hone : s0.armInstructionCount ≤ mappingsCapacity → s0.armInstructionCount ≤ 1 := by
    intro hroom
    rcases hshape with hfirst | ⟨hsecond, -⟩
    · rw [hindex 0 (by omega) hroom (by rw [hfirst]; simp [instructionAddress])]
      omega
    · rw [hindex 1 le_rfl hroom hsecond]
  rcases hcases with ⟨-, hroom, hs, hg⟩ | ⟨hother, hjumps, hroom, -, hg, hmappings⟩
  · rw [hs] at hdone ⊢
    rw [hg] at hdone
    exact hdone (hlate.offsets_zero (hone hroom)) (hlate.tags_start (hone hroom))
  · by_cases houtcome : metadata.outcome = .jumps
    · -- A jump pushes nothing.
      have hsame : g = g0 := by
        rw [hg]
        simp only [windowOps, houtcome, Provenance.run]
      rcases hshape with hfirst | ⟨-, hending⟩
      · have hzero := hindex 0 (by omega) hroom.le (by rw [hfirst]; simp [instructionAddress])
        have hnone : (s.provenance input g).All fun tag => tag = none := by
          have htags : g0.All fun tag => tag = none := by
            refine hlate.tagged.imp ?_
            rintro tag ⟨k, hk, -⟩
            omega
          rw [hsame]
          exact htags.run rfl _ _
        rw [hnone.spans span hspan] at htag
        cases htag
      · rw [if_pos houtcome] at hmappings
        rw [hsame] at hdone
        refine hdone (fun mapping hmapping => ?_) (hlate.tags_start (hone hroom.le))
        rw [hmappings] at hmapping
        rcases List.mem_append.mp hmapping with hbefore | hlast
        · exact hlate.offsets_zero (hone hroom.le) mapping hbefore
        · rw [List.mem_singleton.mp hlast]
          exact (hending.resolve_left hother).2
    · rcases hshape with hfirst | ⟨-, hending⟩
      · rw [if_neg houtcome, hfirst, BitVec.sub_self] at hmappings
        have hzero := hone hroom.le
        refine hdone (fun mapping hmapping => ?_) ?_
        · rw [hmappings] at hmapping
          rcases List.mem_append.mp hmapping with hbefore | hlast
          · exact hlate.offsets_zero hzero mapping hbefore
          · rw [List.mem_singleton.mp hlast]
            rfl
        · rw [hg, hfirst]
          exact (hlate.tags_start hzero).run rfl _ _
      · exact absurd (hjumps.mp (hending.resolve_left hother).1) houtcome

theorem Succeeds.notesOnlyStart (h : Succeeds input c start t entry) (hreachable : c.Reachable)
    (hdebug : debugEnabled input c = true) (hcapacity : c.assembler.capacity < 2 ^ 32)
    (hcount : ∀ s, Final input c start t s → s.armInstructionCount ≤ mappingsCapacity)
    (hattributed : FaultsAttributed input c start t rxBuffer) : NotesOnlyStart input start := by
  obtain ⟨-, ⟨s, hfinal⟩, -⟩ := h.final
  obtain ⟨g, htraced⟩ := hfinal.reaches.traced
  obtain ⟨s0, g0, metadata, ending, hend⟩ := hfinal.late htraced h hdebug hreachable.window
  exact hend.notesOnlyStart h hdebug (hreachable.translate h.translates).window hcapacity hfinal
    htraced (hcount s hfinal) hattributed

/-- **Faults are attributed** to the instruction they belong to exactly in the blocks for which
nothing is noted but their start. -/
theorem Succeeds.faultsAttributed_iff (h : Succeeds input c start t entry) (hreachable : c.Reachable)
    (hdebug : debugEnabled input c = true) (hcapacity : c.assembler.capacity < 2 ^ 32)
    (hcount : ∀ s, Final input c start t s → s.armInstructionCount ≤ mappingsCapacity)
    (rxBuffer : Nat) :
    FaultsAttributed input c start t rxBuffer ↔ NotesOnlyStart input start := by
  constructor
  · exact h.notesOnlyStart hreachable hdebug hcapacity hcount
  · intro hnotes s g hfinal htraced block hblock span hspan address htag position _ _
    obtain ⟨s0, g0, metadata, ending, hend⟩ := hfinal.late htraced h hdebug hreachable.window
    exact hend.attributed h hdebug hfinal (hcount s hfinal) hnotes hblock hspan htag position

end Attribution

/-! ### An addition and a return -/

/-- `ADD X0, X0, #1` and `RET` at zero, compiled for the debugger. -/
def addReturnInput : TranslateInput where
  table := generatedTable
  memory := .ofWords 0 [0x91000400, 0xD65F03C0]
  maxInstructions := maxBlockInstructions
  engineFlags := EngineFlags.jitDebug

theorem debugCompiler_reachable : debugCompiler.Reachable :=
  .init (show Compiler.init (fun _ => 0) (2 ^ 24) true = some debugCompiler from rfl)

theorem addReturn_short (start : Address) (fuel n : Nat) {t : Translation}
    (hrun : (runLoops addReturnInput start 0 fuel .whileTest
      (startState debugCompiler start)).map (·.armInstructionCount) = some n)
    (hn : n ≤ mappingsCapacity) :
    ∀ s, Final addReturnInput debugCompiler start t s → s.armInstructionCount ≤ mappingsCapacity := by
  intro s hfinal
  obtain ⟨s', hrun', rfl⟩ := Option.map_eq_some_iff.mp hrun
  rwa [hfinal.eq_of_runLoops hrun']

/-- The return alone: its code is reported for its own address. -/
theorem faultsAttributed_iff_return : ∃ t, Succeeds addReturnInput debugCompiler 4 t 0 ∧
    FaultsAttributed addReturnInput debugCompiler 4 t 0 := by
  obtain ⟨t, -, h⟩ := succeeds_of_eval addReturnInput debugCompiler 4 5 (show _ = some 0 by decide)
  have hshort := addReturn_short 4 5 1 (t := t) (by decide) (by decide)
  have hends : EndsAt addReturnInput 4 4 retMetadata (.opcode .returns) := by
    have hreadable : Readable addReturnInput 4 4 := ⟨by decide, by decide, by decide⟩
    exact ⟨0, 1, .tail .refl (.readable hreadable), by decide, by decide, by decide⟩
  exact ⟨t, h, (h.faultsAttributed_iff debugCompiler_reachable rfl (by decide) hshort 0).mpr
    ⟨4, retMetadata, .opcode .returns, hends, .inl rfl⟩⟩

/-- The addition and the return: both are noted at the same place, and the code of the addition is
reported for the return. -/
theorem misattributed_add : ∃ t block, Succeeds addReturnInput debugCompiler 0 t 0 ∧
    (∀ s, Final addReturnInput debugCompiler 0 t s → s.armInstructionCount ≤ mappingsCapacity) ∧
      t.debugBlock = some block ∧ block.mappings = [(12, 0), (12, 4)] ∧
      (block.entry 0).guestPc 19 = 4 ∧ ¬FaultsAttributed addReturnInput debugCompiler 0 t 0 := by
  obtain ⟨t, htranslate, h⟩ := succeeds_of_eval addReturnInput debugCompiler 0 6
    (show _ = some 0 by decide)
  have hshort := addReturn_short 0 6 2 (t := t) (by decide) (by decide)
  have hblock : ((balTier1CompilerTranslate addReturnInput debugCompiler 0 6).bind
      (·.debugBlock)).map (fun block => (block.mappings, (block.entry 0).guestPc 19)) =
      some ([(12, 0), (12, 4)], 4) := by decide
  rw [htranslate, Option.bind_some] at hblock
  obtain ⟨block, hsome, hnotes⟩ := Option.map_eq_some_iff.mp hblock
  obtain ⟨hmappings, hreport⟩ := Prod.ext_iff.mp hnotes
  have hends : EndsAt addReturnInput 0 4 retMetadata (.opcode .returns) := by
    have hreadable : Readable addReturnInput 0 8 := ⟨by decide, by decide, by decide⟩
    have hdecode : balDecodeArm64 addReturnInput.table (addReturnInput.memory.word 0) =
        some (addSubImmMetadata true false false) := by decide
    exact ⟨1, 2, .tail (.tail .refl (.readable hreadable)) (.next (by decide) hdecode (by decide)),
      by decide, by decide, by decide⟩
  refine ⟨t, block, h, hshort, hsome, hmappings, hreport, fun hattributed => ?_⟩
  obtain ⟨a, metadata, ending, hends', hshape⟩ :=
    h.notesOnlyStart debugCompiler_reachable rfl (by decide) hshort hattributed
  obtain ⟨rfl, -, rfl⟩ := hends.unique hends'
  rcases hshape with hfirst | ⟨-, habsurd | ⟨habsurd, -⟩⟩
  · exact absurd hfirst (by decide)
  · cases habsurd
  · cases habsurd

end Ballistic
