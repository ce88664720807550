import Ballistic.Proof.Frames
import Ballistic.Proof.Threads

/-!
# Stop and clear requests

One thread runs the engine while others call `bal_engine_stop_thread` and `bal_engine_clear_cache` at
any moment. A run carries along what the engine does not know: the number of the current step as
a clock, the times of the requests and of the checks, and with the host code in the cache the time it
was compiled.

The clear flag is read in one step and stored in another, so a request in between is lost as a flag.
What makes up for it is that the cache is empty at that moment: whatever is in the cache later was
compiled later (`Watched.Inv.fresh`).
-/

namespace Ballistic

open Machine Machine.X86

/-- Host code with the time it was compiled. -/
abbrev TimedCode := Nat × Nat

def TimedCode.at (time : Nat) : CodeKind TimedCode := ⟨Prod.fst, fun position => (position, time)⟩

/-- The runner, the engine and the history of the requests. -/
structure Watched where
  engine : Engine TimedCode
  point : RunPoint
  time : Nat
  stops : List Nat
  clears : List Nat
  /-- When the current iteration made its two checks. -/
  stopChecked : Nat
  clearChecked : Nat

variable (guest : Guest)

/-- One step: of the runner, with the host code it executes, of a requesting thread, or of the host. -/
inductive WatchedStep (s : Watched) : Option TimedCode → Watched → Prop
  | run {p : RunPoint} {e : Engine TimedCode} {executed : Option TimedCode}
      (h : RunStep guest (TimedCode.at s.time) s.point s.engine p e executed) :
      WatchedStep s executed
        { s with
          engine := e
          point := p
          time := s.time + 1
          stopChecked := if s.point = .stopCheck then s.time else s.stopChecked
          clearChecked := if s.point = .clearCheck then s.time else s.clearChecked }
  | call (h : s.point = .outside ∨ ∃ status, s.point = .returned status) :
      WatchedStep s none { s with point := .compareExchange, time := s.time + 1 }
  | stop : WatchedStep s none
      { s with engine := s.engine.stopThread, stops := s.time :: s.stops, time := s.time + 1 }
  | clear : WatchedStep s none
      { s with engine := s.engine.clearCache, clears := s.time :: s.clears, time := s.time + 1 }
  | host (flags : EngineFlags) (cpu : A64.State) : WatchedStep s none
      { s with engine := { s.engine with flags := flags, cpu := cpu }, time := s.time + 1 }

/-- The states that runs on a new engine come to. -/
inductive WatchedReachable : Watched → Prop
  | start (cpu : A64.State) (c : Compiler) :
      WatchedReachable ⟨.init cpu c, .outside, 0, [], [], 0, 0⟩
  | step {s s' : Watched} {executed : Option TimedCode} (hreachable : WatchedReachable s)
      (hstep : WatchedStep guest s executed s') : WatchedReachable s'

/-- All host code in the cache satisfies `P`. -/
def Engine.CodeSatisfies (e : Engine TimedCode) (P : TimedCode → Prop) : Prop :=
  ∀ pc code, e.blockCache.Contains pc code → P code

/-- What holds between the steps. -/
structure Watched.Inv (s : Watched) : Prop where
  clears_lt : ∀ r ∈ s.clears, r < s.time
  stopChecked_le : s.stopChecked ≤ s.time
  clearChecked_le : s.clearChecked ≤ s.time
  stopped : s.engine.stopRequested = false → s.stops = []
  /-- Past its stop check an iteration has seen no stop request. -/
  passed : s.point.inLoop = true → s.point ≠ .stopCheck → s.point ≠ .release →
    ∀ r ∈ s.stops, ¬r < s.stopChecked
  /-- With the clear flag down, the cache is younger than every clear request. -/
  fresh : s.engine.clearCacheRequested = false →
    s.engine.CodeSatisfies fun code => ∀ r ∈ s.clears, r < code.2
  emptied : s.point = .clearStore → s.engine.CodeSatisfies fun _ => False
  checked : s.point = .dispatch →
    s.engine.CodeSatisfies fun code => ∀ r ∈ s.clears, r < s.clearChecked → r < code.2

variable {guest}

section Dispatch

variable {e e' : Engine TimedCode} {time : Nat} {executed : Option TimedCode} {again : Bool}

theorem Dispatch.requests (h : Dispatch guest (TimedCode.at time) e e' executed again) :
    e'.stopRequested = e.stopRequested ∧ e'.clearCacheRequested = e.clearCacheRequested := by
  cases h <;> exact ⟨rfl, rfl⟩

/-- Host code comes from the cache or is compiled now. -/
theorem Obtains.satisfies {c : Compiler} {code : TimedCode} {P : TimedCode → Prop}
    (h : Obtains guest (TimedCode.at time) e c code) (hcache : e.CodeSatisfies P)
    (hnow : ∀ position, P (position, time)) : P code := by
  cases h with
  | cached _ hlookup => exact hcache _ _ (BlockCache.contains_of_lookup hlookup)
  | compiled => exact hnow _

theorem Dispatch.executed_satisfies {code : TimedCode} {P : TimedCode → Prop}
    (h : Dispatch guest (TimedCode.at time) e e' (some code) again) (hcache : e.CodeSatisfies P)
    (hnow : ∀ position, P (position, time)) : P code := by
  cases h with
  | block _ hobtains _ => exact hobtains.satisfies hcache hnow

theorem Dispatch.codeSatisfies {P : TimedCode → Prop}
    (h : Dispatch guest (TimedCode.at time) e e' executed again) (hcache : e.CodeSatisfies P)
    (hnow : ∀ position, P (position, time)) : e'.CodeSatisfies P := by
  cases h with
  | interrupt | sentinel | failure => exact hcache
  | block _ hobtains _ =>
      intro pc code hcontains
      simp only [Engine.afterBlock] at hcontains
      split at hcontains
      · exact hcache pc code hcontains
      · rcases BlockCache.contains_of_insert hcontains with ⟨-, rfl⟩ | hbefore
        · exact hobtains.satisfies hcache hnow
        · exact hcache pc code hbefore

end Dispatch

section Steps

variable {s : Watched}

theorem Watched.Inv.call (h : s.Inv) (point : RunPoint) (hpoint : point.inLoop = false) :
    ({ s with point := point, time := s.time + 1 } : Watched).Inv where
  clears_lt := fun r hr => Nat.lt_succ_of_lt (h.clears_lt r hr)
  stopChecked_le := Nat.le_succ_of_le h.stopChecked_le
  clearChecked_le := Nat.le_succ_of_le h.clearChecked_le
  stopped := h.stopped
  passed := by
    intro hin
    rw [hpoint] at hin
    cases hin
  fresh := h.fresh
  emptied := by
    rintro rfl
    cases hpoint
  checked := by
    rintro rfl
    cases hpoint

theorem Watched.Inv.stop (h : s.Inv) :
    ({ s with
        engine := s.engine.stopThread
        stops := s.time :: s.stops
        time := s.time + 1 } : Watched).Inv where
  clears_lt := fun r hr => Nat.lt_succ_of_lt (h.clears_lt r hr)
  stopChecked_le := Nat.le_succ_of_le h.stopChecked_le
  clearChecked_le := Nat.le_succ_of_le h.clearChecked_le
  stopped := by
    intro hflag
    cases hflag
  passed := by
    intro hin hstop hrelease r hr
    rcases List.mem_cons.mp hr with rfl | hr
    · exact Nat.not_lt.mpr h.stopChecked_le
    · exact h.passed hin hstop hrelease r hr
  fresh := h.fresh
  emptied := h.emptied
  checked := h.checked

theorem Watched.Inv.clear (h : s.Inv) :
    ({ s with
        engine := s.engine.clearCache
        clears := s.time :: s.clears
        time := s.time + 1 } : Watched).Inv where
  clears_lt := by
    intro r hr
    rcases List.mem_cons.mp hr with rfl | hr
    · exact Nat.lt_succ_self _
    · exact Nat.lt_succ_of_lt (h.clears_lt r hr)
  stopChecked_le := Nat.le_succ_of_le h.stopChecked_le
  clearChecked_le := Nat.le_succ_of_le h.clearChecked_le
  stopped := h.stopped
  passed := h.passed
  fresh := by
    intro hflag
    cases hflag
  emptied := h.emptied
  checked := by
    intro hpoint pc code hcontains r hr hlt
    rcases List.mem_cons.mp hr with rfl | hr
    · exact absurd hlt (Nat.not_lt.mpr h.clearChecked_le)
    · exact h.checked hpoint pc code hcontains r hr hlt

theorem Watched.Inv.host (h : s.Inv) (flags : EngineFlags) (cpu : A64.State) :
    ({ s with
        engine := { s.engine with flags := flags, cpu := cpu }
        time := s.time + 1 } : Watched).Inv where
  clears_lt := fun r hr => Nat.lt_succ_of_lt (h.clears_lt r hr)
  stopChecked_le := Nat.le_succ_of_le h.stopChecked_le
  clearChecked_le := Nat.le_succ_of_le h.clearChecked_le
  stopped := h.stopped
  passed := h.passed
  fresh := h.fresh
  emptied := h.emptied
  checked := h.checked

/-- A new engine has neither requests nor host code. -/
theorem Watched.Inv.init (cpu : A64.State) (c : Compiler) :
    (⟨.init cpu c, .outside, 0, [], [], 0, 0⟩ : Watched).Inv where
  clears_lt := nofun
  stopChecked_le := le_rfl
  clearChecked_le := le_rfl
  stopped := fun _ => rfl
  passed := nofun
  fresh := fun _ pc code h => (BlockCache.not_contains_empty pc code h).elim
  emptied := nofun
  checked := nofun

theorem Watched.Inv.run (h : s.Inv) {p : RunPoint} {e : Engine TimedCode}
    {executed : Option TimedCode}
    (hrun : RunStep guest (TimedCode.at s.time) s.point s.engine p e executed) :
    ({ s with
        engine := e
        point := p
        time := s.time + 1
        stopChecked := if s.point = .stopCheck then s.time else s.stopChecked
        clearChecked := if s.point = .clearCheck then s.time else s.clearChecked } : Watched).Inv := by
  obtain ⟨engine, point, time, stops, clears, stopChecked, clearChecked⟩ := s
  obtain ⟨hclears, hstop, hclear, hstopped, hpassed, hfresh, hemptied, hchecked⟩ := h
  simp only at hrun hclears hstop hclear hstopped hpassed hfresh hemptied hchecked
  have hclears' : ∀ r ∈ clears, r < time + 1 := fun r hr => Nat.lt_succ_of_lt (hclears r hr)
  have hstop' : stopChecked ≤ time + 1 := Nat.le_succ_of_le hstop
  have hclear' : clearChecked ≤ time + 1 := Nat.le_succ_of_le hclear
  cases hrun with
  | entered | refused | stopped | released =>
      refine ⟨hclears', ?_, hclear', hstopped, ?_, hfresh, nofun, nofun⟩
      · simp only [reduceCtorEq, if_false, if_true]
        omega
      · simp [RunPoint.inLoop]
  | unstopped hflag =>
      refine ⟨hclears', Nat.le_succ time, hclear', hstopped, ?_, hfresh, nofun, nofun⟩
      intro _ _ _ r hr
      rw [hstopped hflag] at hr
      cases hr
  | cleared =>
      exact ⟨hclears', hstop', Nat.le_succ time, hstopped, fun _ _ _ => hpassed rfl nofun nofun,
        hfresh, nofun, nofun⟩
  | uncleared hflag =>
      refine ⟨hclears', hstop', Nat.le_succ time, hstopped, fun _ _ _ => hpassed rfl nofun nofun,
        hfresh, nofun, ?_⟩
      intro _ pc code hcontains r hr _
      exact hfresh hflag pc code hcontains r hr
  | reset =>
      have hempty : ∀ (P : TimedCode → Prop) (pc : Address) (code : TimedCode),
          (.empty : BlockCache TimedCode).Contains pc code → P code :=
        fun _ pc code hcontains => (BlockCache.not_contains_empty pc code hcontains).elim
      exact ⟨hclears', hstop', hclear', hstopped, fun _ _ _ => hpassed rfl nofun nofun,
        fun _ => hempty _, fun _ => hempty _, nofun⟩
  | stored =>
      -- A request since the check has been overwritten, but nothing is left that it could concern.
      have hnothing := hemptied rfl
      exact ⟨hclears', hstop', hclear', hstopped, fun _ _ _ => hpassed rfl nofun nofun,
        fun _ pc code hcontains => (hnothing pc code hcontains).elim, nofun,
        fun _ pc code hcontains => (hnothing pc code hcontains).elim⟩
  | @dispatched _ e' executed again hdispatch =>
      obtain ⟨hstopFlag, hclearFlag⟩ := hdispatch.requests
      refine ⟨hclears', hstop', hclear', ?_, ?_, ?_, ?_, ?_⟩
      · rw [hstopFlag]
        exact hstopped
      · cases again <;> simp
      · intro hflag
        rw [hclearFlag] at hflag
        exact hdispatch.codeSatisfies (hfresh hflag) fun _ => hclears
      · cases again <;> simp
      · cases again <;> simp

theorem WatchedStep.inv {s' : Watched} {executed : Option TimedCode}
    (hstep : WatchedStep guest s executed s') (h : s.Inv) : s'.Inv := by
  cases hstep with
  | run hrun => exact h.run hrun
  | call => exact h.call .compareExchange rfl
  | stop => exact h.stop
  | clear => exact h.clear
  | host flags cpu => exact h.host flags cpu

theorem WatchedReachable.inv (hreachable : WatchedReachable guest s) : s.Inv := by
  induction hreachable with
  | start cpu c => exact .init cpu c
  | step _ hstep ih => exact hstep.inv ih

/-- **Requests are not lost.** Host code that an iteration executes was compiled after every clear
request before the iteration's clear check, and no stop request came before its stop check. -/
theorem requestsHonoured (hreachable : WatchedReachable guest s) {s' : Watched} {code : TimedCode}
    (hstep : WatchedStep guest s (some code) s') :
    (∀ r ∈ s.clears, r < s.clearChecked → r < code.2) ∧ ∀ r ∈ s.stops, ¬r < s.stopChecked := by
  have hinv := hreachable.inv
  cases hstep with
  | run hrun =>
      generalize hpoint : s.point = point at hrun
      cases hrun with
      | dispatched hdispatch =>
          have hpassed := hinv.passed
          rw [hpoint] at hpassed
          refine ⟨?_, hpassed rfl nofun nofun⟩
          exact hdispatch.executed_satisfies (hinv.checked hpoint)
            fun _ r hr _ => hinv.clears_lt r hr

end Steps

/-- A guest of one `RET` at address zero. -/
def retGuest : Guest := ⟨generatedTable, .ofWords 0 [0xD65F03C0]⟩

/-- A clear request, a call that serves it, and a stop request too late for the iteration. -/
def retWatched (c : Compiler) : Watched where
  engine :=
    { (Engine.init (cpuState (fun _ => 0) 0) c : Engine TimedCode) with
      compiler := c.reset
      stopRequested := true }
  point := .dispatch
  time := 8
  stops := [6]
  clears := [0]
  stopChecked := 3
  clearChecked := 4

theorem retWatched_reachable (c : Compiler) : WatchedReachable retGuest (retWatched c) := by
  have h₁ := (@WatchedReachable.start retGuest (cpuState (fun _ => 0) 0) c).step .clear
  have h₂ := (h₁.step (.call (.inl rfl))).step (.run (.entered rfl))
  have h₃ := (h₂.step (.run (.unstopped rfl))).step (.run (.cleared rfl))
  exact ((h₃.step (.run .reset)).step .stop).step (.run .stored)

theorem requestsHonoured_ret : ∃ (s' : Watched) (code : TimedCode),
    WatchedReachable retGuest (retWatched (.fresh 256)) ∧
      WatchedStep retGuest (retWatched (.fresh 256)) (some code) s' ∧
      (∀ r ∈ [0], r < 4 → r < code.2) ∧ ∀ r ∈ [6], ¬r < 3 := by
  obtain ⟨t, htranslate, h⟩ := succeeds_of_eval (retGuest.input 0) (Compiler.fresh 256).reset 0 4
    (show _ = some 0 by decide)
  have hrun : ((balTier1CompilerTranslate (retGuest.input 0) (Compiler.fresh 256).reset 0 4).bind
      fun t => runToRet t.compiler.assembler.buffer 40 (someCall 0)).isSome = true := by decide
  rw [htranslate, Option.bind_some, Option.isSome_iff_exists] at hrun
  obtain ⟨u, hrun⟩ := hrun
  have hruns : RunsBlock t.compiler.assembler.buffer 0 (cpuState (fun _ => 0) 0)
      (cpuState u.memory 0) := ⟨someCall 0, u, 0, 40, someCall_call 0, rfl, hrun, rfl⟩
  have hproceeds : (retWatched (.fresh 256)).engine.Proceeds := ⟨rfl, by decide⟩
  have hobtains : Obtains retGuest (TimedCode.at 8) (retWatched (.fresh 256)).engine t.compiler
      (0, 8) :=
    .compiled (.inr rfl) (.once h.translates (.inl (by rw [h.entry_eq]; nofun))) h.entry_eq
  have hstep := WatchedStep.run (s := retWatched (.fresh 256))
    (.dispatched (.block hproceeds hobtains hruns))
  exact ⟨_, _, retWatched_reachable _, hstep, requestsHonoured (retWatched_reachable _) hstep⟩

end Ballistic
