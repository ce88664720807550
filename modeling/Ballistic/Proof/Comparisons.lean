import Ballistic.Proof.Decoding
import Ballistic.Proof.Forks

/-!
# Compare and branch

`translate_cbz_cbnz` pushes a comparison of the register with itself and then jumps on the zero flag.
The comparison has no lowering, so no instruction sets the flag, and the jump goes by the flag that the
code before the branch has left.
-/

namespace Ballistic

open Machine Machine.X86

/-! ### Flags -/

namespace RegisterAllocator

variable {r : RegisterAllocator}

/-- The macros of an allocation are a store and a load, so they leave the host flags alone. -/
theorem allocate_opcodes {arm : Nat} {skipLoad : Bool} {p : Allocated}
    (hplan : r.allocate arm skipLoad = some p) :
    ∀ m ∈ p.macros, (∃ x offset, m = loadMacro (some x) offset) ∨
      ∃ x offset, m = storeMacro (some x) offset := by
  have hevict : ∀ (r : RegisterAllocator) (x : Reg), ∀ m ∈ (r.evict x).macros,
      ∃ offset, m = storeMacro (some x) offset := by
    intro r x m hm
    unfold evict at hm
    cases hx : r.x86ToArm x with
    | none => simp [hx] at hm
    | some victim =>
        simp only [hx] at hm
        split at hm
        · exact ⟨_, List.mem_singleton.mp hm⟩
        · simp at hm
  have htake : ∀ m ∈ r.take.macros, ∃ x offset, m = storeMacro (some x) offset := by
    intro m hm
    unfold take at hm
    cases hfree : r.freeRegister with
    | some free => simp [hfree] at hm
    | none =>
        cases hclean : r.cleanRegister with
        | some clean =>
            simp only [hfree, hclean] at hm
            exact ⟨_, hevict _ _ m hm⟩
        | none =>
            simp only [hfree, hclean] at hm
            exact ⟨_, hevict _ _ m hm⟩
  obtain ⟨-, ⟨x, -, -, rfl⟩ | ⟨-, rfl⟩⟩ := allocate_cases hplan
  · exact fun m hm => nomatch hm
  · intro m hm
    rcases List.mem_append.mp hm with hm | hm
    · exact .inr (htake m hm)
    · split at hm
      · cases hm
      · exact .inl ⟨_, _, List.mem_singleton.mp hm⟩

theorem allocate_flags {arm : Nat} {skipLoad : Bool} {p : Allocated}
    (hplan : r.allocate arm skipLoad = some p) (s : State) :
    (execAll s (instrsOf p.macros)).flags = s.flags := by
  have hopcodes := allocate_opcodes hplan
  generalize p.macros = ms at hopcodes ⊢
  induction ms generalizing s with
  | nil => rfl
  | cons m ms ih =>
      rw [instrsOf_cons, execAll_append, ih _ fun k hk => hopcodes k (by simp [hk])]
      rcases hopcodes m (by simp) with ⟨x, offset, rfl⟩ | ⟨x, offset, rfl⟩ <;> rfl

end RegisterAllocator

/-! ### The branch -/

/-- From `m` on, the code returns with `pc` in the program counter of the record at `base`. -/
def ReturnsWithPc (code : Nat → Byte) (m : State) (base pc : Address) : Prop :=
  ∃ fuel u, runToRet code fuel m = some u ∧ (cpuState u.memory base).pc = pc

theorem ReturnsWithPc.unique {code : Nat → Byte} {m : State} {base pc pc' : Address}
    (h : ReturnsWithPc code m base pc) (h' : ReturnsWithPc code m base pc') : pc = pc' := by
  obtain ⟨fuel, u, hrun, rfl⟩ := h
  obtain ⟨fuel', u', hrun', rfl⟩ := h'
  rw [runToRet_unique hrun hrun']

/-- Where `CBZ` or `CBNZ` at `a` goes, `x` being the value of its register. -/
def compareBranchTarget (isCbnz : Bool) (a x : Address) (imm19 : BitVec 19) : Address :=
  if (x == 0) != isCbnz then a + (imm19 ++ 0#2).signExtend 64 else a + 4

theorem signExtend_eq_four (imm19 : BitVec 19) : (imm19 ++ 0#2).signExtend 64 = 4 ↔ imm19 = 1 := by
  constructor
  · intro h
    apply BitVec.eq_of_getLsbD_eq
    intro i hi
    have hfour : (4 : BitVec 64) = BitVec.twoPow 64 2 := by decide
    have hone : (1 : BitVec 19) = BitVec.twoPow 19 0 := by decide
    have hbit := congrArg (fun v : BitVec 64 => v.getLsbD (i + 2)) h
    have hhigh : ¬i + 2 < 2 := by omega
    simp only [hfour, BitVec.getLsbD_signExtend, BitVec.getLsbD_append, BitVec.getLsbD_twoPow,
      show i + 2 < 64 by omega, show i + 2 < 19 + 2 by omega, hhigh, Nat.add_sub_cancel] at hbit
    rw [hone, BitVec.getLsbD_twoPow]
    simpa [eq_comm] using hbit
  · rintro rfl
    rfl

section Branch

variable {c : Compiler} {metadata : Metadata} {w : BitVec 32} {a base : Address} {isCbnz : Bool}
  {m : State} {g : A64.State}

/-- The code of a compare and branch goes by the zero flag that it finds. -/
theorem Compiler.Translating.compareBranch (hc : c.Translating)
    (himm : metadata.operand 1 = ⟨.immediate, 5, 19⟩)
    (hok : (c.translateCbzCbnz metadata w a isCbnz).Ok) (hrip : m.rip = c.assembler.offset)
    (hholds : Holds base c.allocator (execAll m c.pending) g ∅) :
    ReturnsWithPc (c.translateCbzCbnz metadata w a isCbnz).assembler.buffer m base
      (if (execAll m c.pending).flags.zf != isCbnz then
        a + (w.extractLsb' 5 19 ++ 0#2).signExtend 64 else a + 4) := by
  obtain ⟨hwf, hpending⟩ := hc.invariant
  obtain ⟨n, c1, hplan, hproduces, hallocator, heq⟩ := translateCbzCbnz_code hok
  rw [heq] at hok ⊢
  obtain ⟨is, hfork, hexec, hmem⟩ := hproduces.fork hok
  obtain ⟨hsafe, -⟩ := RegisterAllocator.allocate_safe hwf hplan
  have hstraight : ∀ i ∈ is, i.straight := fun i hi =>
    ((List.mem_append.mp (hmem i hi)).elim (hpending i)
      (confined_instrsOf hsafe.confined i)).straight
  obtain ⟨fuel, u, hrun, hmemory, -⟩ := hfork.run (hallocator ▸ hsafe.wf) hstraight hrip
  have hflags := RegisterAllocator.allocate_flags hplan (execAll m c.pending)
  have hwithin := execAll_within (by decide) (by decide) (confined_instrsOf hsafe.confined)
    (execAll m c.pending)
  have hrbp := (hwithin.regs .rbp (by decide)).trans hholds.rbp
  rw [hexec, execAll_append] at hmemory
  refine ⟨fuel, u, hrun, ?_⟩
  rw [hmemory, cpuState_armCode (hallocator ▸ hsafe.wf) hrbp, hflags,
    branchOffset_eq (by decide) (by decide) himm]
  cases isCbnz <;> simp [Flags.holds]

/-- **The direction of `CBZ` and `CBNZ`.** In every state of the compiler before an instruction, the
branch goes where the register says exactly if its target is the next instruction, or the host happens
to have its zero flag set just if the register is zero. -/
theorem compareBranch_iff (hc : c.Translating) (_hrt : metadata.operand 0 = ⟨.register64, 0, 5⟩)
    (himm : metadata.operand 1 = ⟨.immediate, 5, 19⟩)
    (hok : (c.translateCbzCbnz metadata w a isCbnz).Ok) (hrip : m.rip = c.assembler.offset)
    (hholds : Holds base c.allocator (execAll m c.pending) g ∅) :
    ReturnsWithPc (c.translateCbzCbnz metadata w a isCbnz).assembler.buffer m base
        (compareBranchTarget isCbnz a (g.x (A64.registerAt w 0)) (w.extractLsb' 5 19)) ↔
      w.extractLsb' 5 19 = 1 ∨
        (execAll m c.pending).flags.zf = (g.x (A64.registerAt w 0) == 0) := by
  have hreturns := hc.compareBranch himm hok hrip hholds
  rw [← signExtend_eq_four, ← BitVec.add_right_inj a]
  generalize w.extractLsb' 5 19 = imm19 at hreturns ⊢
  generalize hzf : (execAll m c.pending).flags.zf = zf at hreturns ⊢
  rw [compareBranchTarget]
  generalize (g.x (A64.registerAt w 0) == 0) = isZero
  constructor
  · intro hright
    have hsame := hreturns.unique hright
    by_cases hflag : zf = isZero
    · exact .inr hflag
    · left
      cases zf <;> cases isZero <;> cases isCbnz <;> simp_all
  · rintro (hsame | rfl)
    · rw [hsame] at hreturns ⊢
      rwa [ite_self] at hreturns ⊢
    · exact hreturns

end Branch

/-- An entry for `CBZ`. -/
def cbzMetadata : Metadata :=
  { name := ['C', 'B', 'Z'], mask := 0xFF000000, expected := 0xB4000000, irOpcode := .branchZero,
    operands := [⟨.register64, 0, 5⟩, ⟨.immediate, 5, 19⟩, .absent, .absent, .absent] }

/-- The start of a block, with a machine about to run what comes next; its zero flag is clear and the
record holds zeros. -/
theorem fresh_holds : Holds 0 (startState (.fresh 256) 0x1000).compiler.allocator
    (execAll (someCall 12) (startState (.fresh 256) 0x1000).compiler.pending)
    (cpuState (someCall 12).memory 0) ∅ := by
  refine ⟨rfl, ?_, fun _ _ _ => rfl, rfl, rfl, rfl, rfl⟩
  intro a _ x hx
  cases hx

/-- `CBZ X0, #4`, to the next instruction. -/
theorem compareBranch_iff_next :
    ReturnsWithPc ((startState (.fresh 256) 0x1000).compiler.translateCbzCbnz cbzMetadata 0xB4000020
        0x1000 false).assembler.buffer (someCall 12) 0
        (compareBranchTarget false 0x1000 ((cpuState (someCall 12).memory 0).x
          (A64.registerAt 0xB4000020 0)) ((0xB4000020#32).extractLsb' 5 19)) ↔
      (0xB4000020#32).extractLsb' 5 19 = 1 ∨
        (execAll (someCall 12) (startState (.fresh 256) 0x1000).compiler.pending).flags.zf =
          ((cpuState (someCall 12).memory 0).x (A64.registerAt 0xB4000020 0) == 0) :=
  compareBranch_iff (.start (Compiler.fresh_reachable (by decide)) 0x1000) rfl rfl
    ⟨by decide, by decide⟩ (by decide) fresh_holds

/-- `CBZ X0, #8` at the start of a block, with zero in `X0` and the zero flag of the host clear: the
branch is not taken. -/
theorem misses_cbz : ∃ u,
    (startState (.fresh 256) 0x1000).compiler.Translating ∧
      ((startState (.fresh 256) 0x1000).compiler.translateCbzCbnz cbzMetadata 0xB4000040 0x1000
        false).Ok ∧
      (cpuState (someCall 12).memory 0).x 0 = 0 ∧
      runToRet ((startState (.fresh 256) 0x1000).compiler.translateCbzCbnz cbzMetadata 0xB4000040
        0x1000 false).assembler.buffer 40 (someCall 12) = some u ∧
      (cpuState u.memory 0).pc = 0x1004 ∧
      ¬ReturnsWithPc ((startState (.fresh 256) 0x1000).compiler.translateCbzCbnz cbzMetadata 0xB4000040
        0x1000 false).assembler.buffer (someCall 12) 0
        (compareBranchTarget false 0x1000 ((cpuState (someCall 12).memory 0).x
          (A64.registerAt 0xB4000040 0)) ((0xB4000040#32).extractLsb' 5 19)) := by
  have hrun : (runToRet ((startState (.fresh 256) 0x1000).compiler.translateCbzCbnz cbzMetadata
      0xB4000040 0x1000 false).assembler.buffer 40 (someCall 12)).map
      (fun u => (cpuState u.memory 0).pc) = some 0x1004 := by decide
  obtain ⟨u, hrun, hpc⟩ := Option.map_eq_some_iff.mp hrun
  refine ⟨u, .start (Compiler.fresh_reachable (by decide)) 0x1000, ⟨by decide, by decide⟩, by decide,
    hrun, hpc, fun hreturns => ?_⟩
  have hsame := hreturns.unique ⟨40, u, hrun, hpc⟩
  exact absurd hsame (by decide)

end Ballistic
