import Ballistic.Proof.Overflows
import Ballistic.Proof.Simulation

/-!
# Failed engines

The status of the engine is documented to be kept, with every operation failing, until the engine is
reset. A call of `bal_engine_run_thread` does not look at it. So the call fails again only if it has
nothing to execute anyway: because it is stopped first, or because the block has to be compiled and
cannot be.
-/

namespace Ballistic

open Machine Machine.X86

section Calls

variable {Code : Type}

/-- A call of `bal_engine_run_thread` from a point on, to its return: the host code that it executes
and the status that it returns. -/
inductive RunsTo (guest : Guest) (kind : CodeKind Code) :
    RunPoint → Engine Code → List Code → BalError → Engine Code → Prop
  | returned {status : BalError} {e : Engine Code} : RunsTo guest kind (.returned status) e [] status e
  | step {p p' : RunPoint} {e e' e'' : Engine Code} {executed : Option Code} {codes : List Code}
      {status : BalError} (h : RunStep guest kind p e p' e' executed)
      (hrest : RunsTo guest kind p' e' codes status e'') :
      RunsTo guest kind p e (executed.toList ++ codes) status e''

/-- The engines between calls. The host can change the flags and the CPU record and make requests. -/
inductive Engine.Reached (guest : Guest) (kind : CodeKind Code) : Engine Code → Prop
  | init (cpu : A64.State) {c : Compiler} (hc : c.Reachable) : Reached guest kind (.init cpu c)
  | host {e : Engine Code} (flags : EngineFlags) (cpu : A64.State) (h : Reached guest kind e) :
      Reached guest kind { e with flags := flags, cpu := cpu }
  | stop {e : Engine Code} (h : Reached guest kind e) : Reached guest kind e.stopThread
  | clear {e : Engine Code} (h : Reached guest kind e) : Reached guest kind e.clearCache
  | call {e e' : Engine Code} {codes : List Code} {status : BalError} (h : Reached guest kind e)
      (hcall : RunsTo guest kind .compareExchange e codes status e') : Reached guest kind e'

/-- The engine with a pending clear request served. -/
def Engine.served (e : Engine Code) : Engine Code :=
  if e.clearCacheRequested then
    { e with compiler := e.compiler.reset, blockCache := .empty, clearCacheRequested := false }
  else e

/-- The next iteration has no host code for the block at the program counter. -/
def Engine.Misses (e : Engine Code) : Prop :=
  e.cacheDisabled = true ∨ e.blockCache.lookup e.cpu.pc = none

variable {guest : Guest} {kind : CodeKind Code} {e e' : Engine Code} {codes : List Code}
  {status : BalError}

theorem Compiles.reachable {flags : EngineFlags} {c : Compiler} {pc : Address} {t : Translation}
    (h : Compiles guest flags c pc t) (hreachable : c.Reachable) : t.compiler.Reachable := by
  cases h with
  | once htranslates _ => exact hreachable.translate htranslates
  | again hretries htranslates => exact (hreachable.translate hretries.1).reset.translate htranslates

theorem RunStep.compiler_reachable {p p' : RunPoint} {executed : Option Code}
    (h : RunStep guest kind p e p' e' executed) (hreachable : e.compiler.Reachable) :
    e'.compiler.Reachable := by
  cases h with
  | entered | refused | stopped | unstopped | cleared | uncleared | stored | released => exact hreachable
  | reset => exact hreachable.reset
  | dispatched hdispatch =>
      cases hdispatch with
      | interrupt | sentinel => exact hreachable
      | failure _ _ hcompiles _ => exact hcompiles.reachable hreachable
      | block _ hobtains _ =>
          cases hobtains with
          | cached => exact hreachable
          | compiled _ hcompiles _ => exact hcompiles.reachable hreachable

theorem RunsTo.compiler_reachable {p : RunPoint} (h : RunsTo guest kind p e codes status e')
    (hreachable : e.compiler.Reachable) : e'.compiler.Reachable := by
  induction h with
  | returned => exact hreachable
  | step hstep _ ih => exact ih (hstep.compiler_reachable hreachable)

theorem Engine.Reached.compiler_reachable (h : e.Reached guest kind) : e.compiler.Reachable := by
  induction h with
  | init cpu hc => exact hc
  | host _ _ _ ih | stop _ ih | clear _ ih => exact ih
  | call _ hcall ih => exact hcall.compiler_reachable ih

theorem RunsTo.isExecuting {p : RunPoint} (h : RunsTo guest kind p e codes status e')
    (hidle : e.isExecuting = false) : e'.isExecuting = false := by
  induction h with
  | returned => exact hidle
  | step hstep _ ih => exact ih (hstep.isExecuting hidle)

theorem Engine.Reached.idle (h : e.Reached guest kind) : e.isExecuting = false := by
  induction h with
  | init cpu hc => rfl
  | host _ _ _ ih | stop _ ih | clear _ ih => exact ih
  | call _ hcall ih => exact hcall.isExecuting ih

/-! ### From the call to the dispatch -/

theorem runsTo_release : RunsTo guest kind .release e codes status e' ↔
    codes = [] ∧ status = e.status ∧ e' = { e with isExecuting := false } := by
  constructor
  · intro h
    cases h with
    | step hstep hrest =>
        cases hstep with
        | released =>
            cases hrest with
            | returned => exact ⟨rfl, rfl, rfl⟩
            | step hstep => cases hstep
  · rintro ⟨rfl, rfl, rfl⟩
    exact .step (.released : RunStep guest kind .release e _ _ none) .returned

/-- The compiler with which the last translation of an iteration starts: the one after a reset if the
block is one byte longer than the room. -/
inductive Engine.TranslatesFrom (guest : Guest) (e : Engine Code) : Compiler → Prop
  | first (h : ¬OneByteShort (guest.input e.flags) e.compiler e.cpu.pc) :
      TranslatesFrom guest e e.compiler
  | again {t : Translation} (h : OneByteShort (guest.input e.flags) e.compiler e.cpu.pc)
      (htranslates : Translates (guest.input e.flags) e.compiler e.cpu.pc t) :
      TranslatesFrom guest e t.compiler.reset

/-- An iteration that has nothing to execute, and that fails, if it fails, for a reason that leaves the
error that the engine has. -/
def Engine.StaysFailed (guest : Guest) (e : Engine Code) : Prop :=
  e.flags.has EngineFlags.interruptPending = true ∨ e.cpu.pc = engineSentinel ∨
    e.Misses ∧ ∃ c, e.TranslatesFrom guest c ∧
      FailsWith (guest.input e.flags) c e.cpu.pc e.status

theorem Engine.translatesFrom_iff (hcapacity : e.compiler.assembler.capacity < sizeMax) {c : Compiler} :
    e.TranslatesFrom guest c ↔ e.CompilesFrom guest c := by
  have hoverflows : _ ↔ OneByteShort (guest.input e.flags) e.compiler e.cpu.pc :=
    overflows_iff (guest.input_max e.flags) hcapacity
  constructor
  · intro h
    cases h with
    | first hlong => exact .once fun t hretries => hlong (hoverflows.mp ⟨t, hretries⟩)
    | again hshort htranslates =>
        obtain ⟨t', hretries⟩ := hoverflows.mpr hshort
        rw [htranslates.unique hretries.1]
        exact .again hretries
  · intro h
    cases h with
    | once hsteady =>
        refine .first fun hshort => ?_
        obtain ⟨t', hretries⟩ := hoverflows.mpr hshort
        exact hsteady t' hretries
    | again hretries => exact .again (hoverflows.mp ⟨_, hretries⟩) hretries.1

/-- What the compiler stops with, said without running it. -/
theorem Engine.stops_iff (hreachable : e.compiler.Reachable)
    (hcapacity : e.compiler.assembler.capacity < sizeMax) {c : Compiler} {error : BalError}
    (herror : error ≠ .success) :
    e.TranslatesFrom guest c ∧ FailsWith (guest.input e.flags) c e.cpu.pc error ↔
      e.CompilesFrom guest c ∧ StopsWith (guest.input e.flags) c e.cpu.pc error := by
  rw [Engine.translatesFrom_iff hcapacity]
  refine and_congr_right fun hfrom => ?_
  have hsize : c.assembler.capacity ≤ sizeMax := hfrom.capacity_eq.trans_le hcapacity.le
  exact (stopsWith_iff (hfrom.reachable hreachable).window hsize herror).symm

/-- The iteration ends the call, and there is nothing else that it can do. -/
theorem Engine.StaysFailed.dispatch (h : e.StaysFailed guest) (hreachable : e.compiler.Reachable)
    (hcapacity : e.compiler.assembler.capacity < sizeMax) (hfailed : e.status ≠ .success) :
    (∃ e₁, Dispatch guest kind e e₁ none false) ∧
      ∀ e₁ executed again, Dispatch guest kind e e₁ executed again →
        executed = none ∧ again = false ∧ e₁.cpu = e.cpu ∧ e₁.status = e.status := by
  by_cases hpending : e.flags.has EngineFlags.interruptPending = true
  · refine ⟨⟨_, .interrupt hpending⟩, fun e₁ executed again hdispatch => ?_⟩
    cases hdispatch with
    | interrupt => exact ⟨rfl, rfl, rfl, rfl⟩
    | sentinel hclear | failure hclear | block hclear => simp_all [Engine.Proceeds]
  have hclear : e.flags.has EngineFlags.interruptPending = false := Bool.eq_false_iff.mpr hpending
  by_cases hpc : e.cpu.pc = engineSentinel
  · refine ⟨⟨_, .sentinel hclear hpc⟩, fun e₁ executed again hdispatch => ?_⟩
    cases hdispatch with
    | interrupt hpending' => exact absurd hpending' hpending
    | sentinel => exact ⟨rfl, rfl, rfl, rfl⟩
    | failure hproceeds | block hproceeds => exact absurd hpc hproceeds.2
  obtain ⟨hmiss, c, hcause⟩ := (h.resolve_left hpending).resolve_left hpc
  obtain ⟨hfrom, hstops⟩ := (Engine.stops_iff hreachable hcapacity hfailed).mp hcause
  have hmax := guest.input_max e.flags
  obtain ⟨t, ht, hstatus⟩ := hstops.translates hmax
  have hcannot : e.CannotCompile guest c t :=
    ⟨⟨hclear, hpc⟩, hmiss, hfrom, ht, ht.entry_none (hstatus ▸ hfailed)⟩
  refine ⟨⟨_, .failure hcannot.proceeds hmiss hcannot.compiles hcannot.entry_eq⟩, ?_⟩
  intro e₁ executed again hdispatch
  obtain ⟨rfl, hexecuted, hagain⟩ := hcannot.dispatch hdispatch
  exact ⟨hexecuted, hagain, rfl, hstatus⟩

end Calls

/-- A guest whose first instruction is the given word. -/
def wordGuest (w : BitVec 32) : Guest := ⟨generatedTable, .ofWords 0 [w]⟩

end Ballistic
