import Ballistic.Proof.Coherence
import Ballistic.Proof.Threads

/-!
# Runs and the flags of their blocks

A block is compiled under the flags of one call of `bal_engine_run_thread` and may be executed under
those of another. Here host code is stamped with the flags that it was compiled under, and a run carries
along the blocks that were executed since the guest state was last looked at. As long as translations
are only tried again while the cache is empty, the code of every block that is executed is still what
was compiled for its address under its flags.
-/

namespace Ballistic

open Machine Machine.X86

/-- Host code with the flags it was compiled under. -/
structure FlaggedCode where
  position : Nat
  flags : EngineFlags
  deriving DecidableEq, Repr

def flaggedKind (flags : EngineFlags) : CodeKind FlaggedCode where
  position := FlaggedCode.position
  ofPosition := fun position => ⟨position, flags⟩

/-- A block that was executed: the guest address, and the host code. -/
structure ExecutedBlock where
  pc : Address
  code : FlaggedCode
  deriving DecidableEq, Repr

/-- The block is in the buffer as it was compiled, and none of it has been written over. -/
def ExecutedBlock.HeldBy (b : ExecutedBlock) (guest : Guest) (a : Assembler) : Prop :=
  ∃ (c : Compiler) (t : Translation), c.Reachable ∧
    Succeeds (guest.input b.code.flags) c b.pc t b.code.position ∧ t.compiler.assembler.Extends a

/-- Every entry of the cache is the block compiled for its address under its flags. -/
structure Engine.CoherentFlags (guest : Guest) (e : Engine FlaggedCode) : Prop where
  reachable : e.compiler.Reachable
  blocks : ∀ pc code, e.blockCache.Contains pc code →
    ExecutedBlock.HeldBy ⟨pc, code⟩ guest e.compiler.assembler

/-- The engine from `bal_engine_init` on, through any calls of `bal_engine_run_thread` and whatever
requests come in between, with the blocks executed since the guest was at `start`: since the host last
wrote the CPU record, or since any later time. Translations are only tried again while the cache is
empty. -/
inductive FlaggedRun (guest : Guest) :
    RunPoint → Engine FlaggedCode → Address → List ExecutedBlock → Prop
  | init (cpu : A64.State) {buffer : Nat → Byte} {size : Nat} {debug : Bool} {c : Compiler}
      (hc : Compiler.init buffer size debug = some c) :
      FlaggedRun guest .outside (.init cpu c) cpu.pc []
  | host {e : Engine FlaggedCode} {start : Address} {blocks : List ExecutedBlock}
      (flags : EngineFlags) (cpu : A64.State) (h : FlaggedRun guest .outside e start blocks) :
      FlaggedRun guest .outside { e with flags := flags, cpu := cpu } cpu.pc []
  | flags {e : Engine FlaggedCode} {start : Address} {blocks : List ExecutedBlock}
      (flags : EngineFlags) (h : FlaggedRun guest .outside e start blocks) :
      FlaggedRun guest .outside { e with flags := flags } start blocks
  | later {p : RunPoint} {e : Engine FlaggedCode} {start : Address} {blocks : List ExecutedBlock}
      (h : FlaggedRun guest p e start blocks) : FlaggedRun guest p e e.cpu.pc []
  | stop {p : RunPoint} {e : Engine FlaggedCode} {start : Address} {blocks : List ExecutedBlock}
      (h : FlaggedRun guest p e start blocks) : FlaggedRun guest p e.stopThread start blocks
  | clear {p : RunPoint} {e : Engine FlaggedCode} {start : Address} {blocks : List ExecutedBlock}
      (h : FlaggedRun guest p e start blocks) : FlaggedRun guest p e.clearCache start blocks
  | call {e : Engine FlaggedCode} {start : Address} {blocks : List ExecutedBlock}
      (h : FlaggedRun guest .outside e start blocks) : FlaggedRun guest .compareExchange e start blocks
  | returned {status : BalError} {e : Engine FlaggedCode} {start : Address}
      {blocks : List ExecutedBlock} (h : FlaggedRun guest (.returned status) e start blocks) :
      FlaggedRun guest .outside e start blocks
  | step {p p' : RunPoint} {e e' : Engine FlaggedCode} {start : Address} {blocks : List ExecutedBlock}
      {executed : Option FlaggedCode} (h : FlaggedRun guest p e start blocks)
      (hstep : RunStep guest (flaggedKind e.flags) p e p' e' executed)
      (hretry : p = .dispatch → e.Retries guest → e.CacheEmpty) :
      FlaggedRun guest p' e' start (blocks ++ executed.toList.map (⟨e.cpu.pc, ·⟩))

variable {guest : Guest}

theorem ExecutedBlock.HeldBy.mono {b : ExecutedBlock} {a a' : Assembler} (h : b.HeldBy guest a)
    (hextends : a.Extends a') : b.HeldBy guest a' := by
  obtain ⟨c, t, hreachable, hsucceeds, hkept⟩ := h
  exact ⟨c, t, hreachable, hsucceeds, hkept.trans hextends⟩

/-- A block is held as long as the buffer only grows. -/
theorem lasts_heldBy (guest : Guest) (flags : EngineFlags) :
    Lasts guest (flaggedKind flags) flags fun a pc code => ExecutedBlock.HeldBy ⟨pc, code⟩ guest a where
  mono h hextends := h.mono hextends
  compiled hreachable hsucceeds := ⟨_, _, hreachable, hsucceeds, .refl _⟩

section Steps

variable {e e' : Engine FlaggedCode}

theorem Engine.CoherentFlags.caches (h : e.CoherentFlags guest) :
    e.Caches fun a pc code => ExecutedBlock.HeldBy ⟨pc, code⟩ guest a :=
  ⟨h.reachable, h.blocks⟩

/-- The host code that an iteration gets is a block of the program counter. -/
theorem Obtains.held {c : Compiler} {code : FlaggedCode}
    (h : Obtains guest (flaggedKind e.flags) e c code) (hcoherent : e.CoherentFlags guest) :
    ExecutedBlock.HeldBy ⟨e.cpu.pc, code⟩ guest c.assembler :=
  h.lasts (lasts_heldBy guest e.flags) hcoherent.caches

/-- **A step keeps the cache coherent.** -/
theorem RunStep.coherentFlags {p p' : RunPoint} {executed : Option FlaggedCode}
    (h : RunStep guest (flaggedKind e.flags) p e p' e' executed)
    (hretry : p = .dispatch → e.Retries guest → e.CacheEmpty) (hcoherent : e.CoherentFlags guest) :
    e'.CoherentFlags guest := by
  have hcaches := h.caches (lasts_heldBy guest e.flags) hretry hcoherent.caches
  exact ⟨hcaches.reachable, hcaches.entries⟩

/-- A step that executes no block leaves the guest alone. -/
theorem RunStep.cpu_eq {p p' : RunPoint} (h : RunStep guest (flaggedKind e.flags) p e p' e' none) :
    e'.cpu = e.cpu := by
  generalize hexecuted : (none : Option FlaggedCode) = executed at h
  cases h with
  | dispatched hdispatch =>
      cases hdispatch with
      | interrupt | sentinel | failure => rfl
      | block => cases hexecuted
  | entered | refused | stopped | unstopped | cleared | uncleared | reset | stored | released => rfl

/-- A step that executes a block calls it where it is held. -/
theorem RunStep.runsBlock {p p' : RunPoint} {code : FlaggedCode}
    (h : RunStep guest (flaggedKind e.flags) p e p' e' (some code))
    (hcoherent : e.CoherentFlags guest) :
    ExecutedBlock.HeldBy ⟨e.cpu.pc, code⟩ guest e'.compiler.assembler ∧
      RunsBlock e'.compiler.assembler.buffer code.position e.cpu e'.cpu := by
  generalize hexecuted : some code = executed at h
  cases h with
  | dispatched hdispatch =>
      cases hdispatch with
      | interrupt | sentinel | failure => cases hexecuted
      | block _ hobtains hruns =>
          cases hexecuted
          exact ⟨hobtains.held hcoherent, hruns⟩
  | entered | refused | stopped | unstopped | cleared | uncleared | reset | stored | released =>
      cases hexecuted

end Steps

/-- **The cache is coherent** in every state of a run. -/
theorem FlaggedRun.coherentFlags {p : RunPoint} {e : Engine FlaggedCode} {start : Address}
    {blocks : List ExecutedBlock} (h : FlaggedRun guest p e start blocks) : e.CoherentFlags guest := by
  induction h with
  | init cpu hc =>
      exact ⟨.init hc, fun pc code hcode => (BlockCache.not_contains_empty pc code hcode).elim⟩
  | host _ _ _ ih | flags _ _ ih | stop _ ih | clear _ ih => exact ⟨ih.reachable, ih.blocks⟩
  | later _ ih | call _ ih | returned _ ih => exact ih
  | step _ hstep hretry ih => exact hstep.coherentFlags hretry ih

/-- An iteration that compiles a block does not try again. -/
theorem Succeeds.not_retries {e : Engine FlaggedCode} {t : Translation} {entry : Nat}
    (h : Succeeds (guest.input e.flags) e.compiler e.cpu.pc t entry) : ¬e.Retries guest := by
  rintro ⟨-, -, t', ht', hnone, -⟩
  rw [ht'.unique h.translates, h.entry_eq] at hnone
  cases hnone

/-- An iteration that compiles a block and executes it. -/
theorem Succeeds.dispatch {e : Engine FlaggedCode} {t : Translation} {entry : Nat} {cpu : A64.State}
    (h : Succeeds (guest.input e.flags) e.compiler e.cpu.pc t entry) (hproceeds : e.Proceeds)
    (hmiss : e.cacheDisabled = true ∨ e.blockCache.lookup e.cpu.pc = none)
    (hruns : RunsBlock t.compiler.assembler.buffer entry e.cpu cpu) :
    Dispatch guest (flaggedKind e.flags) e (e.afterBlock t.compiler ⟨entry, e.flags⟩ cpu)
      (some ⟨entry, e.flags⟩) (!e.flags.has EngineFlags.singleStep) := by
  have hdone : t.entry ≠ none := by
    rw [h.entry_eq]
    exact Option.some_ne_none _
  exact .block hproceeds (.compiled hmiss (.once h.translates (.inl hdone)) h.entry_eq) hruns

end Ballistic
