import Ballistic.Proof.Balance
import Ballistic.Proof.Termination

/-!
# Where a block continues

A block that does not end in a control transfer stores a constant in the program counter: the address
of the instruction it visited last. That is the right place to continue if the instruction was not
translated (a trap flag, or an unsupported variant). If the block ended because the instruction limit
was reached, or after a register move, the instruction was translated and is executed again.
-/

namespace Ballistic

open Machine Machine.X86

/-- The instruction at which the block ends is a control transfer. -/
def Ending.transfers : Ending → Bool
  | .opcode .jumps | .opcode .returns | .opcode .branches => true
  | _ => false

/-- The effect of the instruction at which the block ends is part of the block. -/
def Ending.performed : Ending → Bool
  | .limit | .opcode .movesRegister => true
  | _ => false

/-- The first instruction whose effect is not part of a block that ends at `a`: all instructions
before `a` are part of it. -/
def firstUnperformed (a : Address) (ending : Ending) : Address := if ending.performed then a + 4 else a

/-- Every call of the block returns with `pc` in the program counter of the CPU record. -/
def StoresPc (code : Nat → Byte) (entry : Nat) (pc : Address) : Prop :=
  ∀ s cpu, Call s cpu entry →
    ∃ fuel u, runToRet code fuel s = some u ∧ (cpuState u.memory cpu).pc = pc

theorem StoresPc.runsBlock {code : Nat → Byte} {entry : Nat} {pc : Address}
    (h : StoresPc code entry pc) (m : Memory) :
    ∃ m', (cpuState m' 0).pc = pc ∧ RunsBlock code entry (cpuState m 0) (cpuState m' 0) := by
  have hcall : Call { someCall entry with memory := m } 0 entry :=
    ⟨rfl, rfl, (someCall_call entry).disjoint⟩
  obtain ⟨fuel, u, hrun, hpc⟩ := h _ _ hcall
  exact ⟨u.memory, hpc, _, u, 0, fuel, hcall, rfl, hrun, rfl⟩

/-! ### What is performed -/

/-- An instruction with a plan ends the block in one of these ways. -/
theorem RegisterAllocator.endPlan_ending {r : RegisterAllocator} {metadata : Metadata} {w : BitVec 32}
    {ending : Ending} {p : Plan} (hplan : r.endPlan metadata w ending = some p) :
    ending = .trapped ∨ ending = .opcode .stops ∨ ending.performed = true ∨ ending.transfers = true := by
  unfold endPlan at hplan
  split at hplan
  · exact .inl rfl
  · exact .inr (.inl rfl)
  · exact .inr (.inr (.inr rfl))
  · exact .inr (.inr (.inl rfl))
  · exact .inr (.inr (.inl rfl))
  · exact .inr (.inr (.inr rfl))
  · cases hplan

/-! ### The stored program counter -/

section Blocks

variable {input : TranslateInput} {c : Compiler} {start : Address} {t : Translation} {entry : Nat}
  {a : Address} {metadata : Metadata} {ending : Ending}

/-- The instruction at which a block ends has a plan, unless it is a conditional branch. -/
theorem Succeeds.endPlan (h : Succeeds input c start t entry)
    (hends : EndsAt input start a metadata ending) (htransfers : ending.transfers = false) :
    ∃ (r : RegisterAllocator) (w : BitVec 32) (p : Plan), r.endPlan metadata w ending = some p := by
  obtain ⟨s, s0, metadata', ending', -, hended⟩ := h.ended
  obtain ⟨rfl, rfl, rfl⟩ := hended.endsAt.unique hends
  obtain ⟨i, limit, -, hrunning, -, hending⟩ := hended.before
  obtain ⟨p, hplan, -⟩ := hended.leaves.plan hending hrunning.static (by rintro rfl; cases htransfers)
  exact ⟨_, _, p, hplan⟩

/-- A block that ends neither in a return nor in a conditional branch stores a constant, in every buffer
that begins like the compiler's. -/
theorem Succeeds.storesEndAddress (h : Succeeds input c start t entry)
    (hwindow : c.window.macros = []) (hends : EndsAt input start a metadata ending)
    (hbranch : ending ≠ .opcode .branches) (hreturn : ending ≠ .opcode .returns) {code : Nat → Byte}
    (hsame : ∀ k < t.compiler.assembler.offset, code k = t.compiler.assembler.buffer k) :
    StoresPc code entry (endAddress metadata (input.memory.word a) a ending) := by
  obtain ⟨s, s0, metadata', ending', hfinal, hended⟩ := h.ended
  obtain ⟨rfl, rfl, rfl⟩ := hended.endsAt.unique hends
  obtain ⟨i, limit, hreach, hrunning, -, -⟩ := hended.before
  obtain ⟨js, hcode⟩ := h.running hreach hrunning
  obtain ⟨p, is, hplan, hblock, hexec⟩ := h.straight hwindow hfinal hended hbranch hcode
  rw [decide_eq_false hreturn] at hexec
  generalize endAddress metadata' (input.memory.word s0.guestAddress) s0.guestAddress ending' = pc
    at hexec ⊢
  have hsafe := RegisterAllocator.endPlan_safe hcode.wf hplan
  intro m cpu hcall
  obtain ⟨fuel, u, hrun, -, hmemory⟩ := (hblock code hsame).run hcall
  refine ⟨fuel, u, hrun, ?_⟩
  -- Everything up to the last store is confined, so `rbp` still points at the CPU record there.
  have hbefore : ∀ k ∈ js ++ instrsOf p.macros ++
      Compiler.tailCode p.allocator pc true s.armInstructionCount input.engineFlags,
      Confined workingRegisters cpuSize k := by
    intro k hk
    rcases List.mem_append.mp hk with hk | hk
    · rcases List.mem_append.mp hk with hk | hk
      · exact hcode.confined k hk
      · exact confined_instrsOf hsafe.confined k hk
    · exact confined_tailCode hsafe.wf _ _ _ _ k hk
  have htail : Compiler.tailCode p.allocator pc false s.armInstructionCount input.engineFlags =
      Compiler.tailCode p.allocator pc true s.armInstructionCount input.engineFlags ++
        storePcCode pc := by simp [Compiler.tailCode]
  have hinside := hcall.inside.execAll hcall hbefore
  rw [hmemory, hexec, htail, ← List.append_assoc, execAll_append, execAll_storePcCode hinside.rbp]
  exact Memory.read64_write64_self ..

/-- A block that does not end in a control transfer stores the address of its last instruction. -/
theorem Succeeds.storesPc (h : Succeeds input c start t entry) (hwindow : c.window.macros = [])
    (hends : EndsAt input start a metadata ending) (htransfers : ending.transfers = false)
    {code : Nat → Byte}
    (hsame : ∀ k < t.compiler.assembler.offset, code k = t.compiler.assembler.buffer k) :
    StoresPc code entry a := by
  have hstores := h.storesEndAddress hwindow hends (by rintro rfl; cases htransfers)
    (by rintro rfl; cases htransfers) hsame
  have haddress : endAddress metadata (input.memory.word a) a ending = a := by
    unfold endAddress
    split
    · cases htransfers
    · rfl
  rwa [haddress] at hstores

/-- **Continuation PC.** A block that does not end in a control transfer continues at the first
instruction it has not performed exactly if it has not performed the last instruction it visited: if
it stopped at a trapped instruction or at an unsupported variant other than a register move. -/
theorem continuationPc_iff (hreachable : c.Reachable) (h : Succeeds input c start t entry)
    (hends : EndsAt input start a metadata ending) (htransfers : ending.transfers = false) :
    StoresPc t.compiler.assembler.buffer entry (firstUnperformed a ending) ↔
      ending = .trapped ∨ ending = .opcode .stops := by
  have hstores := h.storesPc hreachable.window hends htransfers fun _ _ => rfl
  obtain ⟨r, w, p, hplan⟩ := h.endPlan hends htransfers
  constructor
  · intro hnext
    by_contra hlast
    have hperformed : ending.performed = true := by
      rcases RegisterAllocator.endPlan_ending hplan with h | h | h | h
      · exact absurd (.inl h) hlast
      · exact absurd (.inr h) hlast
      · exact h
      · rw [htransfers] at h
        cases h
    have hcall := someCall_call entry
    obtain ⟨fuel, u, hrun, hpc⟩ := hstores _ _ hcall
    obtain ⟨fuel', u', hrun', hpc'⟩ := hnext _ _ hcall
    obtain rfl := runToRet_unique hrun hrun'
    rw [hpc, firstUnperformed, if_pos hperformed] at hpc'
    bv_omega
  · intro hlast
    have hunperformed : ending.performed = false := by
      rcases hlast with rfl | rfl <;> rfl
    rw [firstUnperformed, hunperformed]
    exact hstores

end Blocks

/-- `ADD X0, X0, #1` with the limit at one instruction: the block has increased `X0` and continues
at the same `ADD`. -/
theorem repeats_add : ∃ t u,
    Succeeds (.ofWords 0x1000 [0x91000400, 0xD65F03C0] 1) (.fresh 256) 0x1000 t 0 ∧
      EndsAt (.ofWords 0x1000 [0x91000400, 0xD65F03C0] 1) 0x1000 0x1000
        (addSubImmMetadata true false false) .limit ∧
      Call (someCall 0) 0 0 ∧ runToRet t.compiler.assembler.buffer 40 (someCall 0) = some u ∧
      (cpuState u.memory 0).x 0 = 1 ∧ (cpuState u.memory 0).pc = 0x1000 ∧
      ¬StoresPc t.compiler.assembler.buffer 0 (firstUnperformed 0x1000 .limit) := by
  obtain ⟨t, htranslate, h⟩ := succeeds_of_eval
    (.ofWords 0x1000 [0x91000400, 0xD65F03C0] 1) (.fresh 256) 0x1000 6
    (show _ = some 0 by decide)
  have hrun : ((balTier1CompilerTranslate (.ofWords 0x1000 [0x91000400, 0xD65F03C0] 1) (.fresh 256)
      0x1000 6).bind fun t => (runToRet t.compiler.assembler.buffer 40 (someCall 0)).map
        fun u => ((cpuState u.memory 0).x 0, (cpuState u.memory 0).pc)) = some (1, 0x1000) := by
    decide
  rw [htranslate, Option.bind_some, Option.map_eq_some_iff] at hrun
  obtain ⟨u, hrun, hstate⟩ := hrun
  obtain ⟨hx, hpc⟩ := Prod.ext_iff.mp hstate
  have hends : EndsAt (.ofWords 0x1000 [0x91000400, 0xD65F03C0] 1) 0x1000 0x1000
      (addSubImmMetadata true false false) .limit := by
    have hreadable : Readable (.ofWords 0x1000 [0x91000400, 0xD65F03C0] 1) 0x1000 8 :=
      ⟨by decide, by decide, by decide⟩
    exact ⟨0, 1, .tail .refl (.readable hreadable), by decide, by decide, by decide⟩
  refine ⟨t, u, h, hends, someCall_call 0, hrun, hx, hpc, fun hnext => ?_⟩
  obtain ⟨fuel, u', hrun', hpc'⟩ := hnext _ _ (someCall_call 0)
  obtain rfl := runToRet_unique hrun hrun'
  exact absurd (hpc.symm.trans hpc') (by decide)

end Ballistic
