import Ballistic.Machine.Runs
import Ballistic.Proof.IntegerBlocks
import Ballistic.Proof.Threads

/-!
# Whole programs

The guest as a machine of its own: one A64 instruction after another, until the program counter is at
the sentinel. A program is supported if from every state it reaches there is a block of the integer
subset. Whatever an engine then does in the calls of one thread, with the requests of other threads
in between, the CPU record is always a state that the guest reaches (`EngineSession.reaches`).
-/

namespace Ballistic

open Machine Machine.X86

/-! ### The guest by itself -/

/-- One instruction. The guest has halted at the sentinel. -/
def Guest.next (guest : Guest) (access : A64.TagAccess) (g : A64.State) : Option A64.State :=
  if g.pc = engineSentinel then none
  else (A64.decode (guest.memory.word g.pc)).bind fun i => i.exec access g

/-- A block of the integer subset that does not reach across the sentinel. -/
structure Guest.Block (guest : Guest) (start : Address) (body : List A64.Instr) (last : A64.Instr) :
    Prop extends IntegerBlock (guest.input 0) start body last where
  ne_sentinel : ∀ k ≤ body.length, start + BitVec.ofNat 64 (4 * k) ≠ engineSentinel

/-- From `g` on the guest executes blocks of the subset, until it is at the sentinel. -/
def Guest.Supported (guest : Guest) (access : A64.TagAccess) (g : A64.State) : Prop :=
  ∀ g', StateTransition.Reaches (guest.next access) g g' →
    g'.pc = engineSentinel ∨ ∃ body last, guest.Block g'.pc body last

section Guests

variable {guest : Guest} {access : A64.TagAccess} {g g' : A64.State} {start : Address}
  {body : List A64.Instr} {last : A64.Instr}

theorem Guest.next_sentinel (h : g.pc = engineSentinel) : guest.next access g = none := if_pos h

theorem Guest.next_word {i : A64.Instr} (hpc : g.pc ≠ engineSentinel)
    (hword : A64.decode (guest.memory.word g.pc) = some i) :
    guest.next access g = i.exec access g := by
  rw [Guest.next, if_neg hpc, hword, Option.bind_some]

theorem Guest.next_first (access : A64.TagAccess) {i : A64.Instr}
    (hpc : g.pc + BitVec.ofNat 64 (4 * 0) ≠ engineSentinel)
    (hword : A64.decode (guest.memory.word (g.pc + BitVec.ofNat 64 (4 * 0))) = some i) :
    guest.next access g = i.exec access g := by
  rw [Nat.mul_zero, BitVec.add_zero] at hpc hword
  exact Guest.next_word hpc hword

theorem Guest.Supported.reaches (h : guest.Supported access g)
    (hreaches : StateTransition.Reaches (guest.next access) g g') : guest.Supported access g' :=
  fun _ hlater => h _ (hreaches.trans hlater)

/-- The instructions of the subset are defined, and go on to the next address. -/
theorem isInteger_next {i : A64.Instr} (h : isInteger i = true) (access : A64.TagAccess)
    (g : A64.State) : ∃ g', i.exec access g = some g' ∧ g'.pc = g.pc + 4 := by
  simp only [isInteger, Bool.or_eq_true] at h
  rcases h with himmediate | hregister
  · exact (slotExec_next access g (isSlotImmediate_of_isImmediate himmediate)).2
  · cases i with
    | addSubShifted sf op s shift rm imm6 rn rd =>
        simp only [isRegisterForm, Bool.and_eq_true, bne_iff_ne, beq_iff_eq, Bool.or_eq_true,
          and_assoc] at hregister
        obtain ⟨rfl, hshift, rfl, hrn, hrm, -, hrd⟩ := hregister
        have hset : rd = 31 → s = true := fun heq => hrd.resolve_right (not_not.mpr heq)
        exact ⟨_, exec_addSubShifted hshift hrn hrm hset access g,
          congrArg (· + 4) (A64.State.writeSum_pc _ _ _ _)⟩
    | logicalShifted sf opc shift n rm imm6 rn rd =>
        simp only [isRegisterForm, Bool.and_eq_true, bne_iff_ne, beq_iff_eq, Bool.not_eq_true',
          and_assoc] at hregister
        obtain ⟨rfl, rfl, rfl, rfl, hrn, hrm, hrd⟩ := hregister
        exact ⟨_, exec_andShifted true hrn hrm hrd access g, rfl⟩
    | _ => exact absurd hregister (by simp [isRegisterForm])

theorem isEnd_next {i : A64.Instr} (h : isEnd i = true) (access : A64.TagAccess) (g : A64.State) :
    ∃ g', i.exec access g = some g' := by
  cases i with
  | ret | branch => exact ⟨_, rfl⟩
  | branchCond imm19 cond => exact ⟨_, exec_branchCond access g imm19 cond⟩
  | _ => exact absurd h (by simp [isEnd, isExit])

/-- Instructions in sequence are as many steps of the guest, if all but the last go on to the next
address. -/
theorem Guest.stepN_execAll
    (hbody : ∀ i ∈ body, ∀ g : A64.State,
      ∃ g', i.exec access g = some g' ∧ g'.pc = g.pc + 4)
    (hwords : ∀ {k i}, (body ++ [last])[k]? = some i →
      A64.decode (guest.memory.word (g.pc + BitVec.ofNat 64 (4 * k))) = some i)
    (hsentinel : ∀ k ≤ body.length, g.pc + BitVec.ofNat 64 (4 * k) ≠ engineSentinel) :
    stepN (guest.next access) (body.length + 1) g = A64.execAll access g (body ++ [last]) := by
  induction body generalizing g with
  | nil =>
      have hlast := Guest.next_first access (hsentinel 0 le_rfl) (hwords (k := 0) rfl)
      rw [List.nil_append, List.length_nil, stepN_succ, hlast]
      rfl
  | cons i body ih =>
      have hfirst := Guest.next_first access (hsentinel 0 (Nat.zero_le _))
        (hwords (k := 0) rfl)
      rw [List.length_cons, stepN_succ, hfirst, List.cons_append, A64.execAll]
      refine Option.bind_congr fun g' hexec => ?_
      have hpc : ∀ k, g'.pc + BitVec.ofNat 64 (4 * k) = g.pc + BitVec.ofNat 64 (4 * (k + 1)) := by
        intro k
        obtain ⟨g'', hexec', hnext⟩ := hbody i List.mem_cons_self g
        cases hexec.symm.trans hexec'
        rw [hnext, Nat.mul_add, Nat.add_comm, BitVec.ofNat_add, ← BitVec.add_assoc]
        rfl
      refine ih (fun j hj => hbody j (List.mem_cons_of_mem _ hj)) (fun {k j} hj => ?_) fun k hk => ?_
      · rw [hpc]
        exact hwords (k := k + 1) hj
      · rw [hpc]
        exact hsentinel (k + 1) (Nat.succ_le_succ hk)

theorem Guest.Block.isInteger (h : guest.Block start body last) : ∀ i ∈ body, isInteger i = true := by
  intro i hi
  rcases h.body_integer with himmediate | ⟨touched, -, hinteger⟩
  · rw [Ballistic.isInteger, himmediate i hi, Bool.true_or]
  · exact (hinteger i hi).1

/-- A block of the subset, executed in sequence, is as many steps of the guest. -/
theorem Guest.Block.stepN (h : guest.Block g.pc body last) :
    stepN (guest.next access) (body.length + 1) g = A64.execAll access g (body ++ [last]) :=
  Guest.stepN_execAll (fun i hi g => isInteger_next (h.isInteger i hi) access g) h.words h.ne_sentinel

/-- Nothing in a block of the subset is undefined. -/
theorem Guest.Block.defined (h : guest.Block g.pc body last) (access : A64.TagAccess) :
    ∃ g', Machine.stepN (guest.next access) (body.length + 1) g = some g' := by
  obtain ⟨g', hbody, -⟩ := foldlM_next (fun i hi g => isInteger_next (h.isInteger i hi) access g) g
  obtain ⟨g'', hlast⟩ := isEnd_next h.last_end access g'
  refine ⟨g'', ?_⟩
  rw [h.stepN, A64.execAll_append, A64.execAll_eq_foldlM, hbody, Option.bind_some, A64.execAll, hlast]
  rfl

end Guests

/-! ### Sessions -/

/-- The code at `position` of the buffer is a block that was compiled for `pc` without a limit of one
instruction, and none of it has been written over. -/
def HoldsWhole (guest : Guest) (a : Assembler) (pc : Address) (position : Nat) : Prop :=
  ∃ (flags : EngineFlags) (c : Compiler) (t : Translation),
    flags.has EngineFlags.singleStep = false ∧ c.Reachable ∧
      Succeeds (guest.input flags) c pc t position ∧ t.compiler.assembler.Extends a

/-- The engine does not single-step, and every entry of its cache is a whole block for its address. -/
structure Engine.Whole (guest : Guest) (e : Engine Nat) : Prop where
  continuous : e.flags.has EngineFlags.singleStep = false
  reachable : e.compiler.Reachable
  blocks : ∀ pc position, e.blockCache.Contains pc position →
    HoldsWhole guest e.compiler.assembler pc position

/-- The runs of an engine without single steps. One thread calls `bal_engine_run_thread`, and writes
the CPU record and the flags between its calls; other threads make requests at any time. A
translation is only retried while the cache is empty. The first argument is the guest state that the
host wrote last. -/
inductive EngineSession (guest : Guest) : A64.State → RunPoint → Engine Nat → Prop
  | init (cpu : A64.State) {c : Compiler} (hc : c.Reachable) :
      EngineSession guest cpu .outside (.init cpu c)
  | write {g : A64.State} {e : Engine Nat} (cpu : A64.State) (h : EngineSession guest g .outside e) :
      EngineSession guest cpu .outside { e with cpu := cpu }
  | configure {g : A64.State} {e : Engine Nat} (flags : EngineFlags)
      (hflags : flags.has EngineFlags.singleStep = false) (h : EngineSession guest g .outside e) :
      EngineSession guest g .outside { e with flags := flags }
  | stop {g : A64.State} {p : RunPoint} {e : Engine Nat} (h : EngineSession guest g p e) :
      EngineSession guest g p e.stopThread
  | clear {g : A64.State} {p : RunPoint} {e : Engine Nat} (h : EngineSession guest g p e) :
      EngineSession guest g p e.clearCache
  | interrupt {g : A64.State} {p : RunPoint} {e : Engine Nat} (h : EngineSession guest g p e) :
      EngineSession guest g p { e with flags := e.flags ||| EngineFlags.interruptPending }
  | call {g : A64.State} {e : Engine Nat} (h : EngineSession guest g .outside e) :
      EngineSession guest g .compareExchange e
  | step {g : A64.State} {p p' : RunPoint} {e e' : Engine Nat} {executed : Option Nat}
      (h : EngineSession guest g p e) (hstep : RunStep guest positions p e p' e' executed)
      (hretries : p = .dispatch → e.Retries guest → ∀ pc position,
        ¬e.blockCache.Contains pc position) : EngineSession guest g p' e'
  | back {g : A64.State} {status : BalError} {e : Engine Nat}
      (h : EngineSession guest g (.returned status) e) : EngineSession guest g .outside e

section Sessions

variable {guest : Guest} {access : A64.TagAccess} {e e' : Engine Nat} {g : A64.State} {p : RunPoint}

theorem EngineFlags.has_singleStep_interrupt (flags : EngineFlags) :
    EngineFlags.has (flags ||| interruptPending) singleStep = flags.has singleStep := by
  have hother : interruptPending &&& singleStep = 0 := by decide
  rw [has, has, BitVec.and_comm, BitVec.and_or_distrib_left, BitVec.and_comm _ interruptPending,
    hother, BitVec.and_comm]
  congr 1
  exact BitVec.or_zero

theorem EngineFlags.has_singleStep_acknowledge (flags : EngineFlags) :
    EngineFlags.has (flags &&& ~~~interruptPending) singleStep = flags.has singleStep := by
  have hkept : ~~~interruptPending &&& singleStep = singleStep := by decide
  rw [has, has, BitVec.and_assoc, hkept]

theorem HoldsWhole.mono {a a' : Assembler} {pc : Address} {position : Nat}
    (h : HoldsWhole guest a pc position) (hextends : a.Extends a') :
    HoldsWhole guest a' pc position := by
  obtain ⟨flags, c, t, hflags, hreachable, hsucceeds, hkept⟩ := h
  exact ⟨flags, c, t, hflags, hreachable, hsucceeds, hkept.trans hextends⟩

/-- Without single steps the input does not depend on the flags as far as a block is concerned. -/
theorem IntegerBlock.withFlags {flags : EngineFlags}
    (hflags : flags.has EngineFlags.singleStep = false) {start : Address} {body : List A64.Instr}
    {last : A64.Instr} (h : IntegerBlock (guest.input 0) start body last) :
    IntegerBlock (guest.input flags) start body last where
  words := h.words
  length_le := by
    have hlength := h.length_le
    simp only [Guest.input, hflags, Bool.false_eq_true, if_false]
    exact hlength
  body_integer := h.body_integer
  last_end := h.last_end

/-- A whole block of the subset, run from the buffer, takes the guest to a state that it reaches. -/
theorem HoldsWhole.reaches (hgenerated : guest.table.Generated) {a : Assembler} {position : Nat}
    {before after : A64.State} (h : HoldsWhole guest a before.pc position) {body : List A64.Instr}
    {last : A64.Instr} (hblock : guest.Block before.pc body last)
    (hruns : RunsBlock a.buffer position before after) (access : A64.TagAccess) :
    stepN (guest.next access) (body.length + 1) before = some after := by
  obtain ⟨flags, c, t, hflags, hreachable, hsucceeds, hextends⟩ := h
  rw [hblock.stepN]
  exact hsucceeds.integerRuns hreachable hgenerated (hblock.toIntegerBlock.withFlags hflags)
    hextends.below rfl hruns access

/-- A whole block stays one as long as the buffer only grows. -/
theorem lasts_holdsWhole {flags : EngineFlags} (hflags : flags.has EngineFlags.singleStep = false) :
    Lasts guest positions flags (HoldsWhole guest) where
  mono h hextends := h.mono hextends
  compiled hreachable hsucceeds := ⟨flags, _, _, hflags, hreachable, hsucceeds, .refl _⟩

theorem Engine.Whole.caches (h : e.Whole guest) : e.Caches (HoldsWhole guest) :=
  ⟨h.reachable, h.blocks⟩

theorem Engine.Whole.afterBlock {c : Compiler} {position : Nat} {cpu : A64.State}
    (h : ({ e with compiler := c } : Engine Nat).Whole guest)
    (hholds : HoldsWhole guest c.assembler e.cpu.pc position) :
    (e.afterBlock c position cpu).Whole guest := by
  have hcaches : (e.afterBlock c position cpu).Caches (HoldsWhole guest) :=
    h.caches.afterBlock hholds
  exact ⟨h.continuous, hcaches.reachable, hcaches.entries⟩

/-- No step turns single steps on. -/
theorem RunStep.singleStep_eq {p' : RunPoint} {executed : Option Nat}
    (hstep : RunStep guest positions p e p' e' executed) :
    e'.flags.has EngineFlags.singleStep = e.flags.has EngineFlags.singleStep := by
  cases hstep with
  | dispatched hdispatch =>
      cases hdispatch with
      | interrupt => exact EngineFlags.has_singleStep_acknowledge _
      | sentinel | failure | block => rfl
  | entered | refused | stopped | unstopped | cleared | uncleared | reset | stored | released => rfl

theorem RunStep.whole {p' : RunPoint} {executed : Option Nat}
    (hstep : RunStep guest positions p e p' e' executed) (h : e.Whole guest)
    (hretries : p = .dispatch → e.Retries guest → ∀ pc position,
      ¬e.blockCache.Contains pc position) : e'.Whole guest := by
  have hcaches := hstep.caches (lasts_holdsWhole h.continuous) hretries h.caches
  exact ⟨hstep.singleStep_eq.trans h.continuous, hcaches.reachable, hcaches.entries⟩

theorem EngineSession.whole (h : EngineSession guest g p e) : e.Whole guest := by
  induction h with
  | init cpu hc =>
      have hflags : EngineFlags.has 0 EngineFlags.singleStep = false := by decide
      have hcaches : (Engine.init cpu _).Caches (HoldsWhole guest) := .init cpu hc
      exact ⟨hflags, hcaches.reachable, hcaches.entries⟩
  | write _ _ ih | stop _ ih | clear _ ih => exact ⟨ih.continuous, ih.reachable, ih.blocks⟩
  | configure _ hflags _ ih => exact ⟨hflags, ih.reachable, ih.blocks⟩
  | interrupt _ ih =>
      refine ⟨?_, ih.reachable, ih.blocks⟩
      rw [EngineFlags.has_singleStep_interrupt]
      exact ih.continuous
  | call _ ih | back _ ih => exact ih
  | step _ hstep hretries ih => exact hstep.whole ih hretries

theorem RunStep.reaches (hgenerated : guest.table.Generated) {p' : RunPoint} {executed : Option Nat}
    (hstep : RunStep guest positions p e p' e' executed) (h : e.Whole guest)
    (hsupported : guest.Supported access e.cpu) :
    StateTransition.Reaches (guest.next access) e.cpu e'.cpu := by
  cases hstep with
  | dispatched hdispatch =>
      cases hdispatch with
      | interrupt | sentinel | failure => exact .refl
      | @block c position cpu hproceeds hobtains hruns =>
          have hruns : RunsBlock c.assembler.buffer position e.cpu cpu := hruns
          have hholds := hobtains.lasts (lasts_holdsWhole h.continuous) h.caches
          rcases hsupported e.cpu .refl with hpc | ⟨body, last, hblock⟩
          · exact absurd hpc hproceeds.2
          · exact reaches_of_stepN (hholds.reaches hgenerated hblock hruns access)
  | entered | refused | stopped | unstopped | cleared | uncleared | reset | stored | released =>
      exact .refl

theorem EngineSession.reaches (hgenerated : guest.table.Generated) (h : EngineSession guest g p e)
    (hsupported : guest.Supported access g) :
    StateTransition.Reaches (guest.next access) g e.cpu := by
  induction h with
  | init | write => exact .refl
  | configure _ _ _ ih | stop _ ih | clear _ ih | interrupt _ ih | call _ ih | back _ ih =>
      exact ih hsupported
  | step h hstep _ ih =>
      have hbefore := ih hsupported
      exact hbefore.trans
        (hstep.reaches hgenerated h.whole (hsupported.reaches hbefore))

end Sessions

end Ballistic
