import Ballistic.Proof.Compilable
import Ballistic.Proof.OperandSlots
import Ballistic.Proof.Programs
import Ballistic.Proof.Recovery

/-!
# Programs that run to the end

A guest program whose blocks name at most eight registers each, on an engine with room for them: if
the guest halts, so does the engine, in the state in which the guest halts (`program_finishes`).
-/

namespace Ballistic

open Machine Machine.X86

/-! ### Small programs -/

/-- From `g` on the guest executes blocks that compile under `flags`, until it is at the sentinel. -/
def Guest.Small (guest : Guest) (flags : EngineFlags) (access : A64.TagAccess) (g : A64.State) :
    Prop :=
  ∀ g', StateTransition.Reaches (guest.next access) g g' → g'.pc = engineSentinel ∨
    ∃ body last, SmallBlock (guest.input flags) g'.pc body last ∧
      ∀ k ≤ body.length, g'.pc + BitVec.ofNat 64 (4 * k) ≠ engineSentinel

/-- The room that an instruction needs at most, with a block of its own. -/
def instructionRoom : Nat := blockRoom 1

theorem blockRoom_le (length : Nat) : blockRoom length ≤ instructionRoom * (length + 1) := by
  unfold instructionRoom blockRoom
  omega

/-- Between two iterations of a call that nobody interferes with, and there is room for `n` more
instructions. -/
structure Engine.Ready (guest : Guest) (e : Engine Nat) (n : Nat) : Prop extends e.Whole guest where
  idle : e.isExecuting = false
  unstopped : e.stopRequested = false
  uncleared : e.clearCacheRequested = false
  uninterrupted : e.flags.has EngineFlags.interruptPending = false
  ok : e.compiler.Ok
  room : e.compiler.assembler.offset + instructionRoom * n ≤ e.compiler.assembler.capacity
  sizeable : e.compiler.assembler.capacity ≤ sizeMax

section Engines

variable {guest : Guest} {access : A64.TagAccess} {e e' : Engine Nat} {codes : List Nat} {n : Nat}

theorem Guest.Small.reaches {flags : EngineFlags} {g g' : A64.State}
    (h : guest.Small flags access g) (hreaches : StateTransition.Reaches (guest.next access) g g') :
    guest.Small flags access g' :=
  fun _ hlater => h _ (hreaches.trans hlater)

/-- A small block without the flags it is compiled under. -/
theorem SmallBlock.block {flags : EngineFlags} (hflags : flags.has EngineFlags.singleStep = false)
    {start : Address} {body : List A64.Instr} {last : A64.Instr}
    (h : SmallBlock (guest.input flags) start body last)
    (hsentinel : ∀ k ≤ body.length, start + BitVec.ofNat 64 (4 * k) ≠ engineSentinel) :
    guest.Block start body last where
  toIntegerBlock := by
    have hinteger := h.integerBlock
    refine ⟨hinteger.words, ?_, hinteger.body_integer, hinteger.last_end⟩
    have hlength := hinteger.length_le
    simp only [Guest.input, hflags, Bool.false_eq_true, if_false] at hlength
    exact hlength
  ne_sentinel := hsentinel

/-- A state at a small block, all of whose successors are of small programs. -/
theorem Guest.Small.of_next {flags : EngineFlags} {g : A64.State}
    (hblock : ∃ body last, SmallBlock (guest.input flags) g.pc body last ∧
      ∀ k ≤ body.length, g.pc + BitVec.ofNat 64 (4 * k) ≠ engineSentinel)
    (hnext : ∀ g', guest.next access g = some g' → guest.Small flags access g') :
    guest.Small flags access g := by
  intro g' hreaches
  rcases Relation.ReflTransGen.cases_head hreaches with rfl | ⟨g'', hfirst, hrest⟩
  · exact .inr hblock
  · exact hnext g'' hfirst g' hrest

/-- A block that leads to the sentinel is a small program. -/
theorem SmallBlock.small {flags : EngineFlags} {g g' : A64.State} {body : List A64.Instr}
    {last : A64.Instr} (h : SmallBlock (guest.input flags) g.pc body last)
    (hsentinel : ∀ k ≤ body.length, g.pc + BitVec.ofNat 64 (4 * k) ≠ engineSentinel)
    (hexec : A64.execAll access g (body ++ [last]) = some g') (hhalts : g'.pc = engineSentinel) :
    guest.Small flags access g := by
  induction body generalizing g with
  | nil =>
      refine .of_next ⟨[], last, h, hsentinel⟩ fun g'' hnext => ?_
      rw [Guest.next_first access (hsentinel 0 le_rfl) (h.words (k := 0) rfl)] at hnext
      rw [List.nil_append, A64.execAll, hnext, Option.bind_some, A64.execAll] at hexec
      cases hexec
      intro g₀ hreaches
      rcases Relation.ReflTransGen.cases_head hreaches with rfl | ⟨g₁, hfirst, -⟩
      · exact .inl hhalts
      · rw [Guest.next_sentinel hhalts] at hfirst
        cases hfirst
  | cons i body ih =>
      obtain ⟨touched, -, hbody⟩ := h.few
      refine .of_next ⟨i :: body, last, h, hsentinel⟩ fun g'' hnext => ?_
      rw [Guest.next_first access (hsentinel 0 (Nat.zero_le _)) (h.words (k := 0) rfl)] at hnext
      obtain ⟨g₀, hexec₀, hpc⟩ := isInteger_next (hbody i List.mem_cons_self).1 access g
      cases hexec₀.symm.trans hnext
      rw [List.cons_append, A64.execAll, hnext, Option.bind_some] at hexec
      refine ih (hpc ▸ h.tail) (fun k hk => ?_) hexec
      have hlater := hsentinel (k + 1) (Nat.succ_le_succ hk)
      rw [hpc, BitVec.add_assoc, BitVec.add_comm 4, ← BitVec.add_assoc, add_instruction]
      exact hlater

/-- A whole block of the subset can be run. -/
theorem HoldsWhole.runs (hgenerated : guest.table.Generated) {a : Assembler} {position : Nat}
    {g : A64.State} (h : HoldsWhole guest a g.pc position) {body : List A64.Instr}
    {last : A64.Instr} (hblock : guest.Block g.pc body last) :
    ∃ g', RunsBlock a.buffer position g g' := by
  obtain ⟨flags, c, t, hflags, hreachable, hsucceeds, hextends⟩ := h
  obtain ⟨s, cpu, hcall, hstate⟩ := exists_call g position
  obtain ⟨fuel, u, hrun, -⟩ := hsucceeds.integerRun hreachable hgenerated
    (hblock.toIntegerBlock.withFlags hflags) hextends.below ⟨false, 0⟩ hcall
  exact ⟨_, s, u, cpu, fuel, hcall, hstate, hrun, rfl⟩

/-- The block at hand compiles, within the room for its instructions. -/
theorem Engine.Ready.compiles (hgenerated : guest.table.Generated) (h : e.Ready guest n)
    {body : List A64.Instr} {last : A64.Instr}
    (hblock : SmallBlock (guest.input e.flags) e.cpu.pc body last) (hn : body.length + 1 ≤ n) :
    ∃ t, Succeeds (guest.input e.flags) e.compiler e.cpu.pc t e.compiler.assembler.offset ∧
      t.compiler.assembler.offset ≤
        e.compiler.assembler.offset + instructionRoom * (body.length + 1) := by
  have hroom := h.room
  have hle : instructionRoom * (body.length + 1) ≤ instructionRoom * n :=
    Nat.mul_le_mul_left _ hn
  refine hblock.succeeds hgenerated h.ok.status h.reachable.window_eq
    ⟨h.ok.assembler, ?_, ?_, h.sizeable⟩
  · exact Nat.add_le_add_left (blockRoom_le _) _
  · omega

/-- What an iteration with a small block at the program counter does, in whichever way. -/
structure Advances (guest : Guest) (access : A64.TagAccess) (e : Engine Nat) (n m : Nat)
    (e' : Engine Nat) : Prop extends e'.Ready guest (n - m) where
  steps : stepN (guest.next access) m e.cpu = some e'.cpu
  flags_eq : e'.flags = e.flags
  status_eq : e'.status = e.status

theorem Engine.Ready.advances (h : e.Ready guest n) {c : Compiler} {position m : Nat}
    {cpu : A64.State} (hwhole : ({ e with compiler := c } : Engine Nat).Whole guest)
    (hholds : HoldsWhole guest c.assembler e.cpu.pc position) (hok : c.Ok)
    (hcapacity : c.assembler.capacity = e.compiler.assembler.capacity)
    (hoffset : c.assembler.offset ≤ e.compiler.assembler.offset + instructionRoom * m)
    (hm : m ≤ n) (hsteps : stepN (guest.next access) m e.cpu = some cpu) :
    Advances guest access e n m (e.afterBlock c position cpu) where
  toWhole := hwhole.afterBlock hholds
  idle := h.idle
  unstopped := h.unstopped
  uncleared := h.uncleared
  uninterrupted := h.uninterrupted
  ok := hok
  room := by
    have hroom := h.room
    change c.assembler.offset + _ ≤ c.assembler.capacity
    have hsplit : instructionRoom * n = instructionRoom * m + instructionRoom * (n - m) := by
      rw [← Nat.mul_add, Nat.add_sub_cancel' hm]
    omega
  sizeable := by
    change c.assembler.capacity ≤ _
    rw [hcapacity]
    exact h.sizeable
  steps := hsteps
  flags_eq := rfl
  status_eq := rfl

/-- The state of the loop at a small block, and what the compiler has to offer for it. -/
structure AtBlock (guest : Guest) (e : Engine Nat) (n : Nat) (body : List A64.Instr)
    (last : A64.Instr) : Prop extends e.Ready guest n where
  small : SmallBlock (guest.input e.flags) e.cpu.pc body last
  block : guest.Block e.cpu.pc body last
  enough : body.length + 1 ≤ n

namespace AtBlock

variable {body : List A64.Instr} {last : A64.Instr}

theorem proceeds (h : AtBlock guest e n body last) : e.Proceeds := by
  refine ⟨h.uninterrupted, fun hpc => h.block.ne_sentinel 0 (Nat.zero_le _) ?_⟩
  rw [Nat.mul_zero, BitVec.add_zero]
  exact hpc

theorem steady (hgenerated : guest.table.Generated) (h : AtBlock guest e n body last) :
    ¬e.Retries guest := by
  rintro ⟨-, -, t', ht', hnone, -⟩
  obtain ⟨t, hsucceeds, -⟩ := h.compiles hgenerated h.small h.enough
  rw [ht'.unique hsucceeds.translates, hsucceeds.entry_eq] at hnone
  cases hnone

/-- The block from the cache. -/
theorem advances_cached (hgenerated : guest.table.Generated) (h : AtBlock guest e n body last)
    {position : Nat} {cpu : A64.State} (hlookup : e.blockCache.lookup e.cpu.pc = some position)
    (hruns : RunsBlock e.compiler.assembler.buffer position e.cpu cpu) :
    Advances guest access e n (body.length + 1) (e.afterBlock e.compiler position cpu) := by
  have hholds := h.blocks _ _ (BlockCache.contains_of_lookup hlookup)
  exact h.advances h.toWhole hholds h.ok rfl (Nat.le_add_right _ _) h.enough
    (hholds.reaches hgenerated h.block hruns access)

/-- The block from the compiler. -/
theorem advances_compiled (hgenerated : guest.table.Generated) (h : AtBlock guest e n body last)
    {t : Translation} {position : Nat} {cpu : A64.State}
    (hsucceeds : Succeeds (guest.input e.flags) e.compiler e.cpu.pc t position)
    (hruns : RunsBlock t.compiler.assembler.buffer position e.cpu cpu) :
    Advances guest access e n (body.length + 1) (e.afterBlock t.compiler position cpu) := by
  obtain ⟨t', hsucceeds', hoffset⟩ := h.compiles hgenerated h.small h.enough
  obtain rfl := hsucceeds.translates.unique hsucceeds'.translates
  have hholds : HoldsWhole guest t.compiler.assembler e.cpu.pc position :=
    ⟨e.flags, e.compiler, t, h.continuous, h.reachable, hsucceeds, .refl _⟩
  have hwhole : ({ e with compiler := t.compiler } : Engine Nat).Whole guest :=
    ⟨h.continuous, h.reachable.translate hsucceeds.translates, fun pc position' hcontains =>
      (h.blocks pc position' hcontains).mono hsucceeds.translates.extends⟩
  obtain ⟨-, ⟨s, hfinal⟩, -⟩ := hsucceeds.final
  exact h.advances hwhole hholds hfinal.ok hsucceeds.translates.capacity hoffset h.enough
    (hholds.reaches hgenerated h.block hruns access)

/-- The iteration is not stuck. -/
theorem dispatches (hgenerated : guest.table.Generated) (access : A64.TagAccess)
    (h : AtBlock guest e n body last) :
    ∃ e' position, Dispatch guest positions e e' (some position) true ∧
      Advances guest access e n (body.length + 1) e' := by
  have hagain : (!e.flags.has EngineFlags.singleStep) = true := by
    rw [h.continuous]
    rfl
  by_cases hmiss : e.cacheDisabled = true ∨ e.blockCache.lookup e.cpu.pc = none
  · obtain ⟨t, hsucceeds, -⟩ := h.compiles hgenerated h.small h.enough
    have hholds : HoldsWhole guest t.compiler.assembler e.cpu.pc e.compiler.assembler.offset :=
      ⟨e.flags, e.compiler, t, h.continuous, h.reachable, hsucceeds, .refl _⟩
    obtain ⟨cpu, hruns⟩ := hholds.runs hgenerated h.block
    have hentry : t.entry ≠ none := by
      rw [hsucceeds.entry_eq]
      nofun
    have hdispatch : Dispatch guest positions e
        (e.afterBlock t.compiler e.compiler.assembler.offset cpu) _ _ :=
      .block h.proceeds
        (.compiled hmiss (.once hsucceeds.translates (.inl hentry)) hsucceeds.entry_eq) hruns
    rw [hagain] at hdispatch
    exact ⟨_, _, hdispatch, h.advances_compiled hgenerated hsucceeds hruns⟩
  · obtain ⟨henabled, hhit⟩ := not_or.mp hmiss
    obtain ⟨position, hlookup⟩ := Option.ne_none_iff_exists'.mp hhit
    obtain ⟨cpu, hruns⟩ :=
      (h.blocks _ _ (BlockCache.contains_of_lookup hlookup)).runs hgenerated h.block
    have hdispatch : Dispatch guest positions e (e.afterBlock e.compiler position cpu) _ _ :=
      .block h.proceeds (.cached (Bool.eq_false_iff.mpr henabled) hlookup) hruns
    rw [hagain] at hdispatch
    exact ⟨_, _, hdispatch, h.advances_cached hgenerated hlookup hruns⟩

/-- Whatever the iteration does, it executes the block and goes on. -/
theorem dispatched (hgenerated : guest.table.Generated) (access : A64.TagAccess)
    (h : AtBlock guest e n body last) {executed : Option Nat} {again : Bool} (hdispatch : Dispatch guest positions e e' executed again) :
    again = true ∧ Advances guest access e n (body.length + 1) e' := by
  cases hdispatch with
  | interrupt hpending =>
      rw [h.uninterrupted] at hpending
      cases hpending
  | sentinel _ hpc => exact absurd hpc h.proceeds.2
  | failure hproceeds hmiss hcompiles hentry =>
      have ht := hcompiles.translates fun t hretries =>
        h.steady hgenerated ⟨hproceeds, hmiss, t, hretries⟩
      obtain ⟨t, hsucceeds, -⟩ := h.compiles hgenerated h.small h.enough
      rw [ht.unique hsucceeds.translates, hsucceeds.entry_eq] at hentry
      cases hentry
  | @block c position cpu hproceeds hobtains hruns =>
      refine ⟨by rw [h.continuous]; rfl, ?_⟩
      cases hobtains with
      | cached _ hlookup => exact h.advances_cached hgenerated hlookup hruns
      | compiled hmiss hcompiles hentry =>
          have ht := hcompiles.translates fun t hretries =>
            h.steady hgenerated ⟨hproceeds, hmiss, t, hretries⟩
          exact h.advances_compiled hgenerated ⟨ht, hentry⟩ hruns

end AtBlock

/-! ### Calls -/

/-- A call of `bal_engine_run_thread` from a point on, to its return, with the host code that it
executes. No translation on the way is retried. -/
inductive Finishes (guest : Guest) : RunPoint → Engine Nat → List Nat → Engine Nat → Prop
  | returned {status : BalError} {e : Engine Nat} : Finishes guest (.returned status) e [] e
  | step {p p' : RunPoint} {e e' e'' : Engine Nat} {executed : Option Nat} {codes : List Nat}
      (h : RunStep guest positions p e p' e' executed)
      (hsteady : p = .dispatch → ¬e.Retries guest) (hrest : Finishes guest p' e' codes e'') :
      Finishes guest p e (executed.toList ++ codes) e''

/-- A call of `bal_engine_run_thread` from a point on, to its return with a status, with nobody else at
the engine. -/
inductive CallReturns (guest : Guest) : RunPoint → Engine Nat → BalError → Engine Nat → Prop
  | returned {status : BalError} {e : Engine Nat} : CallReturns guest (.returned status) e status e
  | step {p p' : RunPoint} {e e' e'' : Engine Nat} {executed : Option Nat} {status : BalError}
      (h : RunStep guest positions p e p' e' executed) (hrest : CallReturns guest p' e' status e'') :
      CallReturns guest p e status e''

variable {status : BalError}

theorem Finishes.returns {p : RunPoint} (h : Finishes guest p e codes e') :
    ∃ status, CallReturns guest p e status e' := by
  induction h with
  | @returned status => exact ⟨status, .returned⟩
  | step hstep _ _ ih =>
      obtain ⟨status, hreturns⟩ := ih
      exact ⟨status, .step hstep hreturns⟩

/-- An iteration of a call that nobody interferes with is its dispatch. -/
theorem Engine.Ready.dispatched (h : e.Ready guest n) {e'' : Engine Nat}
    (hreturns : CallReturns guest .stopCheck e status e'') :
    ∃ e' executed again, Dispatch guest positions e e' executed again ∧
      CallReturns guest (if again then .stopCheck else .release) e' status e'' := by
  cases hreturns with
  | step hstep hrest =>
      cases hstep with
      | stopped hstop =>
          rw [h.unstopped] at hstop
          cases hstop
      | unstopped _ =>
          cases hrest with
          | step hstep hrest =>
              cases hstep with
              | cleared hclear =>
                  rw [h.uncleared] at hclear
                  cases hclear
              | uncleared _ =>
                  cases hrest with
                  | step hstep hrest =>
                      cases hstep with
                      | dispatched hdispatch => exact ⟨_, _, _, hdispatch, hrest⟩

theorem Engine.Ready.finishes (h : e.Ready guest n) (hsteady : ¬e.Retries guest)
    {executed : Option Nat} {again : Bool} {e'' : Engine Nat}
    (hdispatch : Dispatch guest positions e e' executed again)
    (hrest : Finishes guest (if again then .stopCheck else .release) e' codes e'') :
    Finishes guest .stopCheck e (executed.toList ++ codes) e'' := by
  have hdispatched : Finishes guest .dispatch e (executed.toList ++ codes) e'' :=
    .step (.dispatched hdispatch) (fun _ => hsteady) hrest
  have hunstopped : RunStep guest positions .stopCheck e .clearCheck e none := .unstopped h.unstopped
  have huncleared : RunStep guest positions .clearCheck e .dispatch e none := .uncleared h.uncleared
  have hchecked := Finishes.step hunstopped nofun (Finishes.step huncleared nofun hdispatched)
  exact hchecked

theorem CallReturns.released (h : CallReturns guest .release e status e') :
    e'.cpu = e.cpu ∧ e'.status = e.status ∧ status = e.status := by
  cases h with
  | step hstep hrest =>
      cases hstep with
      | released =>
          cases hrest with
          | returned => exact ⟨rfl, rfl, rfl⟩
          | step hstep => cases hstep

/-- What a call that begins an iteration in `cpu`, with `n` instructions to go, comes to. -/
def CompletesAt (guest : Guest) (flags : EngineFlags) (g : A64.State) (n : Nat) (cpu : A64.State) :
    Prop :=
  ∀ e : Engine Nat, e.Ready guest n → e.flags = flags → e.cpu = cpu →
    (∃ codes e', Finishes guest .stopCheck e codes e') ∧
      ∀ {status e'}, CallReturns guest .stopCheck e status e' →
        e'.cpu = g ∧ e'.status = e.status ∧ status = e.status

theorem completesAt_sentinel {flags : EngineFlags} {g : A64.State} (hpc : g.pc = engineSentinel) :
    CompletesAt guest flags g 0 g := by
  rintro e hready - rfl
  have hsteady : ¬e.Retries guest := fun hretries => hretries.1.2 hpc
  constructor
  · have hrelease : Finishes guest .release e [] { e with isExecuting := false } :=
      .step (.released : RunStep guest positions .release _ _ _ none) nofun .returned
    exact ⟨_, _, hready.finishes hsteady (.sentinel hready.uninterrupted hpc) hrelease⟩
  · intro status e' hreturns
    obtain ⟨e1, executed, again, hdispatch, hrest⟩ := hready.dispatched hreturns
    cases hdispatch with
    | interrupt hpending =>
        rw [hready.uninterrupted] at hpending
        cases hpending
    | sentinel => exact hrest.released
    | failure hproceeds | block hproceeds => exact absurd hpc hproceeds.2

theorem completesAt_block (hgenerated : guest.table.Generated) {flags : EngineFlags}
    {g cpu cpu' : A64.State} {body : List A64.Instr} {last : A64.Instr}
    (hsmall : SmallBlock (guest.input flags) cpu.pc body last)
    (hblock : guest.Block cpu.pc body last) (hn : body.length + 1 ≤ n)
    (hsteps : stepN (guest.next access) (body.length + 1) cpu = some cpu')
    (hrest : CompletesAt guest flags g (n - (body.length + 1)) cpu') :
    CompletesAt guest flags g n cpu := by
  rintro e hready rfl rfl
  have hat : AtBlock guest e n body last :=
    { toReady := hready, small := hsmall, block := hblock, enough := hn }
  have hlater : ∀ {e'}, Advances guest access e n (body.length + 1) e' →
      (∃ codes e'', Finishes guest .stopCheck e' codes e'') ∧
        ∀ {status e''}, CallReturns guest .stopCheck e' status e'' →
          e''.cpu = g ∧ e''.status = e'.status ∧ status = e'.status :=
    fun hadvances => hrest _ hadvances.toReady hadvances.flags_eq
      (Option.some.inj (hadvances.steps.symm.trans hsteps))
  constructor
  · obtain ⟨e', position, hdispatch, hadvances⟩ := hat.dispatches hgenerated access
    obtain ⟨⟨codes, e'', hfinishes⟩, -⟩ := hlater hadvances
    exact ⟨_, e'', hready.finishes (hat.steady hgenerated) hdispatch hfinishes⟩
  · intro status e'' hreturns
    obtain ⟨e', executed, again, hdispatch, hrest'⟩ := hready.dispatched hreturns
    obtain ⟨rfl, hadvances⟩ := hat.dispatched hgenerated access hdispatch
    obtain ⟨hcpu, hstatus, hresult⟩ := (hlater hadvances).2 hrest'
    exact ⟨hcpu, hstatus.trans hadvances.status_eq, hresult.trans hadvances.status_eq⟩

/-- **Completion.** The induction is on the instructions that the guest has to go; a block is one
stride. -/
theorem completesAt (hgenerated : guest.table.Generated) {flags : EngineFlags}
    (hflags : flags.has EngineFlags.singleStep = false) {g cpu : A64.State}
    (hpc : g.pc = engineSentinel) (hsmall : guest.Small flags access cpu)
    (hsteps : stepN (guest.next access) n cpu = some g) : CompletesAt guest flags g n cpu := by
  refine halts_induction (guest.Small flags access) (Guest.next_sentinel hpc)
    (completesAt_sentinel hpc) (fun n cpu hsmall hnext => ?_) hsmall hsteps
  rcases hsmall cpu .refl with hhalted | ⟨body, last, hsmallBlock, hsentinel⟩
  · exact absurd (Guest.next_sentinel hhalted) hnext
  · have hblock := hsmallBlock.block hflags hsentinel
    obtain ⟨cpu', hstride⟩ := hblock.defined access
    exact ⟨_, cpu', Nat.succ_pos _, hstride, hsmall.reaches (reaches_of_stepN hstride),
      fun hn => completesAt_block hgenerated hsmallBlock hblock hn hstride⟩

/-- The compare-exchange lets a call on an idle engine in and changes nothing. -/
theorem Engine.Ready.entered (h : e.Ready guest n) :
    RunStep guest positions .compareExchange e .stopCheck e none := by
  have hsame : ({ e with isExecuting := false } : Engine Nat) = e := by rw [← h.idle]
  have hentered : RunStep guest positions .compareExchange e .stopCheck _ none := .entered h.idle
  rw [hsame] at hentered
  exact hentered

theorem Engine.Ready.called (h : e.Ready guest n) {e'' : Engine Nat}
    (hreturns : CallReturns guest .compareExchange e status e'') :
    CallReturns guest .stopCheck e status e'' := by
  have hsame : ({ e with isExecuting := false } : Engine Nat) = e := by rw [← h.idle]
  cases hreturns with
  | step hstep hrest =>
      cases hstep with
      | entered _ =>
          rw [hsame] at hrest
          exact hrest
      | refused hexecuting =>
          rw [h.idle] at hexecuting
          cases hexecuting

theorem EngineSession.finishes {g : A64.State} {p : RunPoint} (h : EngineSession guest g p e)
    (hfinishes : Finishes guest p e codes e') :
    ∃ status, EngineSession guest g (.returned status) e' := by
  induction hfinishes with
  | @returned status => exact ⟨status, h⟩
  | step hstep hsteady _ ih =>
      exact ih (h.step hstep fun hp hretries => absurd hretries (hsteady hp))

/-- An engine between two calls, with nothing pending. -/
structure Engine.Quiet (e : Engine Nat) : Prop where
  idle : e.isExecuting = false
  unstopped : e.stopRequested = false
  uncleared : e.clearCacheRequested = false
  uninterrupted : e.flags.has EngineFlags.interruptPending = false
  ok : e.compiler.Ok

theorem Engine.Quiet.ready (h : e.Quiet) {g : A64.State} {p : RunPoint}
    (hsession : EngineSession guest g p e)
    (hroom : e.compiler.assembler.offset + instructionRoom * n ≤ e.compiler.assembler.capacity)
    (hsizeable : e.compiler.assembler.capacity ≤ sizeMax) : e.Ready guest n where
  toWhole := hsession.whole
  idle := h.idle
  unstopped := h.unstopped
  uncleared := h.uncleared
  uninterrupted := h.uninterrupted
  ok := h.ok
  room := hroom
  sizeable := hsizeable

theorem Engine.Ready.completes (hgenerated : guest.table.Generated) (h : e.Ready guest n)
    (hsmall : guest.Small e.flags access e.cpu) {g : A64.State} (hhalts : g.pc = engineSentinel)
    (hsteps : stepN (guest.next access) n e.cpu = some g) :
    (∃ codes e', Finishes guest .compareExchange e codes e') ∧
      ∀ {status e'}, CallReturns guest .compareExchange e status e' →
        e'.cpu = g ∧ e'.status = e.status ∧ status = e.status := by
  obtain ⟨⟨codes, e', hfinishes⟩, hunique⟩ :=
    completesAt hgenerated h.continuous hhalts hsmall hsteps e h rfl rfl
  exact ⟨⟨_, e', .step h.entered nofun hfinishes⟩, fun hcall => hunique (h.called hcall)⟩

end Engines

/-! ### A loop -/

/-- `SUBS X0, X0, #1`, `B.NE` back to it, and `RET`. -/
def countdownGuest : Guest := ⟨generatedTable, .ofWords 0 [0xF1000400, 0x54FFFFE1, 0xD65F03C0]⟩

/-- Inside the loop, or behind it. -/
def InCountdown (g : A64.State) : Prop :=
  g.x 30 = engineSentinel ∧ (g.pc = 0 ∨ g.pc = 4 ∨ g.pc = 8 ∨ g.pc = engineSentinel)

theorem countdown_word : A64.decode (countdownGuest.memory.word 0) =
      some (.addSubImm true true true false 1 0 0) ∧
    A64.decode (countdownGuest.memory.word 4) = some (.branchCond 0x7FFFF 1) ∧
    A64.decode (countdownGuest.memory.word 8) = some (.ret 30) := by
  refine ⟨?_, ?_, ?_⟩ <;> decide

theorem InCountdown.next {access : A64.TagAccess} {g g' : A64.State} (h : InCountdown g)
    (hnext : countdownGuest.next access g = some g') : InCountdown g' := by
  obtain ⟨hsubs, hbranch, hret⟩ := countdown_word
  obtain ⟨hlink, hpc | hpc | hpc | hpc⟩ := h
  · rw [Guest.next_word (by rw [hpc]; decide) (by rw [hpc]; exact hsubs)] at hnext
    cases hnext
    refine ⟨hlink, .inr (.inl ?_)⟩
    change g.pc + 4 = 4
    rw [hpc]
    rfl
  · rw [Guest.next_word (by rw [hpc]; decide) (by rw [hpc]; exact hbranch), exec_branchCond] at hnext
    cases hnext
    refine ⟨hlink, ?_⟩
    simp only [hpc]
    split
    · exact .inl (by decide)
    · exact .inr (.inr (.inl (by decide)))
  · rw [Guest.next_word (by rw [hpc]; decide) (by rw [hpc]; exact hret)] at hnext
    cases hnext
    exact ⟨hlink, .inr (.inr (.inr hlink))⟩
  · rw [Guest.next_sentinel hpc] at hnext
    cases hnext

theorem countdown_readable {k : Nat} (hk : k < 3) :
    ∃ bytes, Readable (countdownGuest.input 0) (0 + BitVec.ofNat 64 (4 * k)) bytes :=
  ofWords_readable (by decide) hk 65535

/-- A block that is one instruction. -/
theorem smallBlock_single {input : TranslateInput} {start : Address} {last : A64.Instr}
    (hword : A64.decode (input.memory.word start) = some last) (hmax : 1 ≤ input.maxInstructions)
    (hend : isEnd last = true)
    (hreadable : ∃ bytes, Readable input start bytes) : SmallBlock input start [] last where
  words := by
    intro k i hi
    cases k with
    | zero =>
        cases hi
        rwa [Nat.mul_zero, BitVec.add_zero]
    | succ k => cases hi
  length_le := hmax
  few := ⟨∅, by simp, by simp⟩
  last_end := hend
  readable := by
    intro k hk
    rw [Nat.le_zero.mp hk, Nat.mul_zero, BitVec.add_zero]
    exact hreadable

theorem countdown_loop : SmallBlock (countdownGuest.input 0) 0
    [.addSubImm true true true false 1 0 0] (.branchCond 0x7FFFF 1) where
  words := by
    intro k i hi
    cases k with
    | zero =>
        cases hi
        exact countdown_word.1
    | succ k =>
        cases k with
        | zero =>
            cases hi
            exact countdown_word.2.1
        | succ k => cases hi
  length_le := by decide
  few := ⟨{0}, by decide, by decide⟩
  last_end := rfl
  readable := fun k hk => countdown_readable (lt_of_le_of_lt hk (by decide))

theorem InCountdown.small {access : A64.TagAccess} {g : A64.State} (h : InCountdown g) :
    countdownGuest.Small 0 access g := by
  intro g' hreaches
  have hin : InCountdown g' := by
    induction hreaches with
    | refl => exact h
    | tail _ hnext ih => exact ih.next hnext
  obtain ⟨-, hpc | hpc | hpc | hpc⟩ := hin
  · rw [hpc]
    exact .inr ⟨_, _, countdown_loop, by decide⟩
  · rw [hpc]
    exact .inr ⟨_, _, smallBlock_single countdown_word.2.1 (by decide) rfl
      (countdown_readable (k := 1) (by decide)), by decide⟩
  · rw [hpc]
    exact .inr ⟨_, _, smallBlock_single countdown_word.2.2 (by decide) rfl
      (countdown_readable (k := 2) (by decide)), by decide⟩
  · exact .inl hpc

end Ballistic
