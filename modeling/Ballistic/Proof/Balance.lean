import Ballistic.Proof.Forks

/-!
# Stack balance

Every block saves five registers. The epilogue of `terminate_block` restores all of them, but the arm
of a taken branch and the arm of `B.AL` restore `rbp` alone and return with the other four words
still on the stack. So a block is balanced on all of its control paths exactly if it does not end at
a conditional branch.
-/

namespace Ballistic

open Machine Machine.X86

/-- On every control path from the entry to the first `ret`, the stack pointer and the callee-saved
registers have their entry values at that `ret`. -/
def StackBalance (code : Nat → Byte) (entry : Nat) : Prop :=
  ∀ s cpu, Call s cpu entry → ∀ u, ControlPath code s u → atRet code u = true → Balanced s u

/-! ### The short epilogue -/

/-- The code comes, on a control path, to a place where only `rbp` is restored before the `ret`. -/
def ReachesShortEpilogue (code : Nat → Byte) (entry : Nat) : Prop :=
  ∀ s cpu, Call s cpu entry → ∃ t, Inside s t cpu ∧ ControlPath code s t ∧
    ∃ stop stop', CodeAt code t.rip [.pop .rbp] stop ∧ CodeAt code stop [.ret] stop'

theorem ReachesShortEpilogue.not_balance {code : Nat → Byte} {entry : Nat}
    (h : ReachesShortEpilogue code entry) : ¬StackBalance code entry := by
  intro hbalance
  have hcall := someCall_call entry
  obtain ⟨t, hinside, hpath, stop, stop', hpop, hret⟩ := h _ _ hcall
  have hstep := controlPath_execAll hpop (by decide) rfl
  have hbalanced := hbalance _ _ hcall _ (hpath.trans hstep) (atRet_of_codeAt hret)
  refine hinside.not_balanced_pop ((Balanced.congr ?_).mp hbalanced)
  rfl

/-! ### Conditional branches -/

section Blocks

variable {input : TranslateInput} {c : Compiler} {start : Address} {t : Translation} {entry : Nat}

/-- A block that ends at a conditional branch has a control path with the short epilogue. -/
theorem Succeeds.reachesShortEpilogue (h : Succeeds input c start t entry)
    (hwindow : c.window.macros = []) {s s0 : LoopState} {metadata : Metadata}
    (hfinal : Final input c start t s)
    (hended : Ended input c start s s0 metadata (.opcode .branches)) :
    ReachesShortEpilogue t.compiler.assembler.buffer entry := by
  obtain ⟨i, limit, hreach, hrunning, -, -⟩ := hended.before
  obtain ⟨js, hcode⟩ := h.running hreach hrunning
  obtain ⟨hok, -⟩ := hended.leaves.compiler_eq nofun
  obtain ⟨c1, ks, hproduces, hwf, hspares, hshape⟩ :=
    LoopState.translateBranch hended.outcome_eq hok hcode.wf
  have hconfined : ∀ {is : List Instr}, (∀ i ∈ is, i ∈ js ++ ks) →
      ∀ i ∈ is, Confined workingRegisters cpuSize i := fun hmem i hi =>
    (List.mem_append.mp (hmem i hi)).elim (hcode.confined i) fun hi =>
      (hspares i hi).mono (by decide)
  have hstraight : ∀ {is : List Instr}, (∀ i ∈ is, Confined workingRegisters cpuSize i) →
      ∀ i ∈ prologueCode ++ is, i.straight := fun hbody i hi =>
    (List.mem_append.mp hi).elim (straight_prologueCode i) fun hi => (hbody i hi).straight
  intro m cpu hcall
  rcases hshape with ⟨condition, fallthroughPc, takenPc, heq⟩ | ⟨hpending, heq⟩
  · obtain ⟨is, hfork, -, hmem⟩ := h.fork hwindow hfinal hended hcode hproduces heq
    have hbody := hconfined hmem
    obtain ⟨middle, stop, hpath, hshort⟩ := hfork.secondPath hwf (hstraight hbody) hcall.rip
    obtain ⟨middle', stop', hpop, hret⟩ := hshort.split
    have hinside : Inside m (execAll m (prologueCode ++ is)) cpu := by
      rw [execAll_append]
      exact hcall.inside.execAll hcall hbody
    exact ⟨_, (hinside.execAll hcall (confined_armCode hwf takenPc)).withRip middle, hpath, middle',
      stop', hpop, hret⟩
  · obtain ⟨is, hshort, -, hmem⟩ := h.short hwindow hfinal hended hcode hproduces hpending heq
    have hbody := hconfined hmem
    obtain ⟨stop, hcodeAt⟩ := hshort.layout
    obtain ⟨middle, stop, hbefore, hrest⟩ := hcodeAt.split
    obtain ⟨middle', stop', hpop, hret⟩ := hrest.split
    have hinside : Inside m (execAll m (prologueCode ++ is)) cpu := by
      rw [execAll_append]
      exact hcall.inside.execAll hcall hbody
    exact ⟨_, hinside.withRip middle, controlPath_execAll hbefore (hstraight hbody) hcall.rip, middle',
      stop', hpop, hret⟩

/-- **Stack and callee-saved balance.** A compiled block restores the stack pointer and the
callee-saved registers on all of its control paths exactly if it does not end at a conditional
branch. -/
theorem stackBalance_iff (hreachable : c.Reachable) (h : Succeeds input c start t entry) :
    StackBalance t.compiler.assembler.buffer entry ↔
      ¬∃ a metadata, EndsAt input start a metadata (.opcode .branches) := by
  obtain ⟨s, s0, metadata, ending, hfinal, hended⟩ := h.ended
  constructor
  · rintro hbalance ⟨a, metadata', hends⟩
    obtain ⟨-, -, rfl⟩ := hended.endsAt.unique hends
    exact (h.reachesShortEpilogue hreachable.window hfinal hended).not_balance hbalance
  · intro hno
    have hne : ending ≠ .opcode .branches := by
      rintro rfl
      exact hno ⟨_, _, hended.endsAt⟩
    obtain ⟨i, limit, hreach, hrunning, -, -⟩ := hended.before
    obtain ⟨js, hcode⟩ := h.running hreach hrunning
    obtain ⟨p, is, -, hblock, -⟩ :=
      h.straight hreachable.window hfinal hended hne hcode
    exact fun m cpu hcall u hpath hret => (hblock _ fun _ _ => rfl).paths hcall hpath hret

end Blocks

/-- `MOVZ X0, #1; RET` is compiled, and the condition above decides its balance. -/
theorem stackBalance_iff_movz : ∃ t,
    Succeeds (.ofWords 0x1000 [0xD2800020, 0xD65F03C0] 8) (.fresh 256) 0x1000 t 0 ∧
      (StackBalance t.compiler.assembler.buffer 0 ↔
        ¬∃ a metadata, EndsAt (.ofWords 0x1000 [0xD2800020, 0xD65F03C0] 8) 0x1000 a metadata
          (.opcode .branches)) := by
  obtain ⟨t, -, h⟩ := succeeds_of_eval (.ofWords 0x1000 [0xD2800020, 0xD65F03C0] 8)
    (.fresh 256) 0x1000 6 (show _ = some 0 by decide)
  exact ⟨t, h, stackBalance_iff (Compiler.fresh_reachable (by decide)) h⟩

/-- A machine with `Z` set in the CPU record at address zero. -/
def zeroFlagCall : State :=
  { someCall 0 with memory := fun x => if x = above 0 offsetFlagZ then 1 else 0 }

/-- `B.EQ` with `Z` set: the block returns with four of its five words left on the stack. -/
theorem unbalanced_bEq : ∃ t u,
    Succeeds (.ofWords 0x1000 [0x54000040] 4) (.fresh 256) 0x1000 t 0 ∧
      Call zeroFlagCall 0 0 ∧ runToRet t.compiler.assembler.buffer 40 zeroFlagCall = some u ∧
      u.regs .rsp = zeroFlagCall.regs .rsp - 32 ∧
      ¬StackBalance t.compiler.assembler.buffer 0 := by
  obtain ⟨t, htranslate, h⟩ := succeeds_of_eval (.ofWords 0x1000 [0x54000040] 4) (.fresh 256) 0x1000 5
    (show _ = some 0 by decide)
  have hrun : ((balTier1CompilerTranslate (.ofWords 0x1000 [0x54000040] 4) (.fresh 256) 0x1000 5).bind
      fun t => (runToRet t.compiler.assembler.buffer 40 zeroFlagCall).map (·.regs .rsp)) =
      some (zeroFlagCall.regs .rsp - 32) := by decide
  rw [htranslate, Option.bind_some, Option.map_eq_some_iff] at hrun
  obtain ⟨u, hrun, hrsp⟩ := hrun
  have hcall : Call zeroFlagCall 0 0 :=
    ⟨rfl, rfl, (someCall_call 0).disjoint⟩
  refine ⟨t, u, h, hcall, hrun, hrsp, fun hbalance => ?_⟩
  obtain ⟨hpath, hret⟩ := controlPath_of_runToRet hrun
  have hbalanced := (hbalance _ _ hcall u hpath hret).rsp
  rw [hrsp] at hbalanced
  exact absurd hbalanced (by decide)

end Ballistic
