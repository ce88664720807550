import Ballistic.Proof.Blocks

/-!
# The code of conditional ends

`terminate_block_conditional` writes a conditional jump and two arms, each with the stores of the
dirty registers and an epilogue of its own. The jump skips the first arm by a size computed
beforehand; `terminateBlockConditional_code` says that the size is right, so a taken jump lands at
the first instruction of the second arm.
-/

namespace Ballistic

open Machine Machine.X86

/-! ### Sizes -/

namespace Assembler

variable {a : Assembler}

theorem emit_offset {poisons : Bool} {encoding : Option Encoding}
    (h : (a.emit poisons encoding).status = .success) {n : Nat}
    (hlength : ∀ e, encoding = some e → e.bytes.length = n) :
    (a.emit poisons encoding).offset = a.offset + n := by
  obtain ⟨-, e, he, -, hwrite⟩ := emit_success h
  rw [hwrite, ← hlength e he]
  rfl

theorem emitStoreR64RbpOffset_offset {x : X86Register} {offset : BitVec 32}
    (h : (a.emitStoreR64RbpOffset x offset).status = .success) :
    (a.emitStoreR64RbpOffset x offset).offset = a.offset + 7 := by
  refine emit_offset h fun e he => ?_
  obtain ⟨x', rfl, rfl⟩ := Option.map_eq_some_iff.mp he
  rfl

theorem emitPopR64_offset {x : Reg} (h : (a.emitPopR64 (some x)).status = .success) :
    (a.emitPopR64 (some x)).offset = a.offset + if 7 < x.number then 2 else 1 := by
  refine emit_offset h fun e he => ?_
  cases he
  simp only [List.length_append, List.length_singleton]
  split <;> rfl

theorem emitRet_offset (h : a.emitRet.status = .success) : a.emitRet.offset = a.offset + 1 := by
  refine emit_offset h fun e he => ?_
  cases he
  rfl

/-- The size of the instruction that loads a constant into `rax`. -/
def movRaxSize (pc : Address) : Nat := if pc.toNat ≤ 0xFFFFFFFF then 5 else 10

theorem emitStorePc_offset {pc : Address} (h : (a.emitStorePc pc).status = .success) :
    (a.emitStorePc pc).offset = a.offset + (movRaxSize pc + 7) := by
  unfold emitStorePc at h ⊢
  have hmov := (emit_success h).1
  have hsize : (a.emitMovR64Imm64 (some .rax) pc).offset = a.offset + movRaxSize pc := by
    refine emit_offset hmov fun e he => ?_
    cases he
    unfold movRaxSize
    by_cases hsmall : pc.toNat ≤ 0xFFFFFFFF
    · simp only [hsmall, if_true]
      rfl
    · simp only [hsmall, if_false]
      rfl
  rw [emitStoreR64RbpOffset_offset h, hsize]
  omega

theorem emitEpilogue_offset (h : a.emitEpilogue.status = .success) :
    a.emitEpilogue.offset = a.offset + 10 := by
  unfold emitEpilogue at h ⊢
  have h5 := (emit_success h).1
  have h4 := (emit_success h5).1
  have h3 := (emit_success h4).1
  have h2 := (emit_success h3).1
  have h1 := (emit_success h2).1
  rw [emitRet_offset h, emitPopR64_offset h5, emitPopR64_offset h4, emitPopR64_offset h3,
    emitPopR64_offset h2, emitPopR64_offset h1]
  rfl

end Assembler

/-! ### Macros that the peephole pass leaves alone -/

theorem runPeepholeOptimizer_of_ne {m : Macro} (h : m.opcode ≠ .movRegisterRegister)
    (before : List Macro) : runPeepholeOptimizer before m = before ++ [m] := by
  unfold runPeepholeOptimizer
  simp only [h, false_and, if_false]
  split <;> rfl

namespace Compiler

variable {c : Compiler}

theorem push_flush {m : Macro} (h : m.opcode ≠ .movRegisterRegister) (ms : List Macro) :
    flushMacros (c.push m).assembler ((c.push m).window.macros ++ ms) =
      flushMacros c.assembler (c.window.macros ++ m :: ms) := by
  simp only [push, slidingWindowPush]
  split
  · simp only [runPeepholeOptimizer_of_ne h, List.nil_append, ite_self]
    rw [flushMacros_append c.assembler]
    rfl
  · simp only [runPeepholeOptimizer_of_ne h, ite_self, List.append_assoc]
    rfl

/-- Flushing after pushes that the peephole pass leaves alone lowers them in order, whatever the
window held and whenever it was lowered in between. -/
theorem pushAll_flushAll {ms : List Macro} (h : ∀ m ∈ ms, m.opcode ≠ .movRegisterRegister) :
    (c.pushAll ms).flushAll.assembler = flushMacros c.assembler (c.window.macros ++ ms) := by
  induction ms generalizing c with
  | nil => simp [pushAll, flushAll, slidingWindowFlushAll]
  | cons m ms ih =>
      have hrest := ih (c := c.push m) fun k hk => h k (by simp [hk])
      rw [push_flush (h m (by simp))] at hrest
      exact hrest

theorem dirtyStores_store (r : RegisterAllocator) :
    ∀ m ∈ dirtyStores r, m.opcode = .store := by
  intro m hm
  simp only [dirtyStores, List.mem_filterMap, List.mem_finRange, true_and] at hm
  obtain ⟨arm, hstore⟩ := hm
  split at hstore
  · cases hstore
    rfl
  · cases hstore

theorem flushDirtyRegisters_flushAll (hempty : c.window.macros = []) :
    c.flushDirtyRegisters.flushAll.assembler =
      flushMacros c.assembler (dirtyStores c.allocator) := by
  have hstores : ∀ m ∈ dirtyStores c.allocator, m.opcode ≠ .movRegisterRegister := by
    intro m hm
    simp [dirtyStores_store _ m hm]
  have hflush := pushAll_flushAll (c := c) hstores
  rwa [hempty, List.nil_append] at hflush

theorem flushStores_offset {a : Assembler} {ms : List Macro} (hstore : ∀ m ∈ ms, m.opcode = .store)
    (h : (flushMacros a ms).status = .success) :
    (flushMacros a ms).offset = a.offset + 7 * ms.length := by
  induction ms generalizing a with
  | nil => rfl
  | cons m ms ih =>
      have hhead : (flushSingleMacro a m).status = .success := flushMacros_head h
      have hrest := ih (a := flushSingleMacro a m) (fun k hk => hstore k (by simp [hk])) h
      have hsize : (flushSingleMacro a m).offset = a.offset + 7 := by
        have hstatus : a.status = .success := by
          by_contra hfailed
          rw [flushSingleMacro_failed m hfailed] at hhead
          exact hfailed hhead
        unfold flushSingleMacro at hhead ⊢
        simp only [hstatus, ne_eq, not_true_eq_false, if_false, hstore m (by simp)] at hhead ⊢
        exact Assembler.emitStoreR64RbpOffset_offset hhead
      rw [flushMacros, List.foldl_cons, ← flushMacros, hrest, hsize, List.length_cons]
      omega

theorem length_dirtyStores (r : RegisterAllocator) :
    (dirtyStores r).length = (List.finRange 32).countP fun arm : Fin 32 => r.dirty arm := by
  rw [dirtyStores, List.length_filterMap_eq_countP]
  congr 1
  funext arm
  split <;> next hdirty => simp [hdirty]

/-! ### The arms -/

theorem epilogueSize_eq (r : RegisterAllocator) (pc : Address) :
    epilogueSize r pc = 7 * (dirtyStores r).length + (Assembler.movRaxSize pc + 7) + 10 := by
  rw [length_dirtyStores, epilogueSize, Assembler.movRaxSize]
  omega

@[simp]
theorem terminateBlockConditional_allocator (c : Compiler) (condition : Condition)
    (fallthroughPc takenPc : Address) :
    (c.terminateBlockConditional condition fallthroughPc takenPc).allocator = c.allocator := by
  simp [terminateBlockConditional, flushDirtyRegisters]

@[simp]
theorem terminateBlockConditional_pending (c : Compiler) (condition : Condition)
    (fallthroughPc takenPc : Address) :
    (c.terminateBlockConditional condition fallthroughPc takenPc).pending = [] := rfl

/-- An arm: the stores, the constant program counter and what restores the registers. -/
def emitArm (stores : List Macro) (pc : Address) (epilogue : Assembler → Assembler)
    (a : Assembler) : Assembler := epilogue ((flushMacros a stores).emitStorePc pc)

theorem terminateBlockConditional_assembler {condition : Condition} {fallthroughPc takenPc : Address} :
    (c.terminateBlockConditional condition fallthroughPc takenPc).assembler =
      emitArm (dirtyStores c.allocator) takenPc Assembler.emitShortEpilogue
        (emitArm (dirtyStores c.allocator) fallthroughPc Assembler.emitEpilogue
          (c.flushAll.assembler.emitJccRel32 condition
            (BitVec.ofNat 32 (epilogueSize c.allocator fallthroughPc)))) := by
  simp only [terminateBlockConditional, flushAll_allocator]
  generalize hjump : c.flushAll.onAssembler (·.emitJccRel32 condition
    (BitVec.ofNat 32 (epilogueSize c.allocator fallthroughPc))) = c1
  generalize hfirst : c1.flushDirtyRegisters.flushAll.onAssembler
    (fun a => (a.emitStorePc fallthroughPc).emitEpilogue) = c2
  have hempty1 : c1.window.macros = [] := by rw [← hjump]; rfl
  have hempty2 : c2.window.macros = [] := by rw [← hfirst]; rfl
  have hallocator1 : c1.allocator = c.allocator := by rw [← hjump]; rfl
  have hallocator2 : c2.allocator = c.allocator := by
    rw [← hfirst]
    simp [flushDirtyRegisters, hallocator1]
  have hassembler2 : c2.assembler = emitArm (dirtyStores c.allocator) fallthroughPc
      Assembler.emitEpilogue c1.assembler := by
    rw [← hfirst, onAssembler_assembler, flushDirtyRegisters_flushAll hempty1, hallocator1, emitArm]
  rw [onAssembler_assembler, flushDirtyRegisters_flushAll hempty2, hallocator2, hassembler2, ← hjump,
    onAssembler_assembler]
  rfl

theorem emitted_arm {a : Assembler} {stores : List Macro}
    (hstore : ∀ m ∈ stores, m.opcode = .store) {pc : Address} {epilogue : Assembler → Assembler}
    {js : List Instr}
    (hepilogue : ∀ {a : Assembler}, (epilogue a).status = .success →
      a.status = .success ∧ Emitted a (epilogue a) js)
    (h : (emitArm stores pc epilogue a).status = .success) :
    a.status = .success ∧ ((flushMacros a stores).emitStorePc pc).status = .success ∧
      Emitted a (emitArm stores pc epilogue a) (instrsOf stores ++ storePcCode pc ++ js) ∧
      ((flushMacros a stores).emitStorePc pc).offset =
        a.offset + 7 * stores.length + (Assembler.movRaxSize pc + 7) := by
  obtain ⟨hstored, hemitted⟩ := hepilogue h
  obtain ⟨hflushed, hemitted'⟩ := Assembler.emitted_storePc hstored
  have hoffset := Assembler.emitStorePc_offset hstored
  have hstores := flushMacros_emitted hflushed
  have hstatus : a.status = .success := by
    by_contra hfailed
    rw [flushMacros_failed _ hfailed] at hflushed
    exact hfailed hflushed
  refine ⟨hstatus, hstored, (hstores.trans hemitted').trans hemitted, ?_⟩
  rw [hoffset, flushStores_offset hstore hflushed]

/-- **The two arms**, once the assembler has come to the end of both: the jump over the first one
lands at the start of the second. -/
theorem terminateBlockConditional_emitted {condition : Condition}
    {fallthroughPc takenPc : Address}
    (h : (c.terminateBlockConditional condition fallthroughPc takenPc).assembler.status = .success) :
    let jumped := c.flushAll.assembler.emitJccRel32 condition
      (BitVec.ofNat 32 (epilogueSize c.allocator fallthroughPc))
    jumped.status = .success ∧ ∃ a3 : Assembler,
      Emitted jumped a3 (instrsOf (dirtyStores c.allocator) ++ storePcCode fallthroughPc ++
        (epilogueCode ++ [.ret])) ∧
      a3.offset = jumped.offset + epilogueSize c.allocator fallthroughPc ∧
      Emitted a3 (c.terminateBlockConditional condition fallthroughPc takenPc).assembler
        (instrsOf (dirtyStores c.allocator) ++ storePcCode takenPc ++ ([.pop .rbp] ++ [.ret])) := by
  intro jumped
  have hstore := dirtyStores_store c.allocator
  rw [terminateBlockConditional_assembler] at h ⊢
  obtain ⟨hfirst, -, hsecondArm, -⟩ := emitted_arm hstore Assembler.emitted_shortEpilogue h
  obtain ⟨hjumped, -, hfirstArm, hsize⟩ := emitted_arm hstore Assembler.emitted_epilogue hfirst
  refine ⟨hjumped, _, hfirstArm, ?_, hsecondArm⟩
  have hend := Assembler.emitEpilogue_offset hfirst
  have hsum := epilogueSize_eq c.allocator fallthroughPc
  rw [hsize] at hend
  refine hend.trans ?_
  change jumped.offset + _ + _ + 10 = _
  omega

@[simp]
theorem terminateBlockConditional_status (c : Compiler) (condition : Condition)
    (fallthroughPc takenPc : Address) :
    (c.terminateBlockConditional condition fallthroughPc takenPc).status = c.status := by
  simp [terminateBlockConditional, flushDirtyRegisters]

theorem terminateBlockConditional_code {condition : Condition} {fallthroughPc takenPc : Address}
    (h : (c.terminateBlockConditional condition fallthroughPc takenPc).Ok) :
    c.Ok ∧ ∃ a1 a2 a3 : Assembler, Emitted c.assembler a1 c.pending ∧
      Emitted a1 a2
        [.jcc condition (BitVec.ofNat 32 (epilogueSize c.allocator fallthroughPc))] ∧
      Emitted a2 a3 (instrsOf (dirtyStores c.allocator) ++ storePcCode fallthroughPc ++
        (epilogueCode ++ [.ret])) ∧
      a3.offset = a2.offset + epilogueSize c.allocator fallthroughPc ∧
      Emitted a3 (c.terminateBlockConditional condition fallthroughPc takenPc).assembler
        (instrsOf (dirtyStores c.allocator) ++ storePcCode takenPc ++ ([.pop .rbp] ++ [.ret])) := by
  obtain ⟨hjump, a3, hfirst, hsize, hsecond⟩ := terminateBlockConditional_emitted h.assembler
  have hflushed := (Assembler.emit_success hjump).1
  have hstatus : c.status = .success := by simpa using h.status
  have hok : c.flushAll.Ok := ⟨hstatus, hflushed⟩
  exact ⟨hok.of_flushAll, c.flushAll.assembler, _, a3, flushMacros_emitted hflushed,
    Assembler.emitted_jcc hjump, hfirst, hsize, hsecond⟩

theorem Ok.of_terminateBlockConditional {condition : Condition} {fallthroughPc takenPc : Address}
    (h : (c.terminateBlockConditional condition fallthroughPc takenPc).Ok) : c.Ok :=
  (terminateBlockConditional_code h).1

theorem toInt_epilogueSize (r : RegisterAllocator) (pc : Address) :
    (BitVec.ofNat 32 (epilogueSize r pc)).toInt = epilogueSize r pc := by
  have hle : epilogueSize r pc < 2 ^ 31 := by
    have hcount := List.countP_le_length (p := fun arm : Fin 32 => r.dirty arm)
      (l := List.finRange 32)
    rw [List.length_finRange] at hcount
    simp only [epilogueSize]
    split <;> omega
  rw [BitVec.toInt_eq_toNat_of_lt] <;> rw [BitVec.toNat_ofNat] <;> omega

/-- A jump by the size of the first arm goes forward by that size. -/
theorem jumpTarget_epilogueSize (next : Nat) (r : RegisterAllocator) (pc : Address) :
    jumpTarget next (BitVec.ofNat 32 (epilogueSize r pc)) = next + epilogueSize r pc := by
  rw [jumpTarget, toInt_epilogueSize]
  omega

end Compiler

end Ballistic
