import Ballistic.BlockScan
import Ballistic.Engine
import Mathlib.Data.List.Basic

/-!
# Callers of the engine

Any number of threads call `bal_engine_run_thread` on one engine, and their atomic steps interleave.
The compare-exchange at the entry stores `false`, so the flag that should keep a second caller out is
never set: a run excludes a second caller only as long as no caller has got past the entry.
-/

namespace Ballistic

variable {ι Code : Type}

/-- The engine and where each caller stands. -/
structure Callers (ι Code : Type) where
  engine : Engine Code
  point : ι → RunPoint

/-- No caller has performed the compare-exchange. -/
def NobodyEntered (s : Callers ι Code) : Prop :=
  ∀ i, s.point i = .outside ∨ s.point i = .compareExchange

theorem NobodyEntered.not_inLoop {s : Callers ι Code} (h : NobodyEntered s) (i : ι) :
    (s.point i).inLoop = false := by
  rcases h i with hpoint | hpoint <;> rw [hpoint] <;> rfl

variable (guest : Guest) (kind : CodeKind Code)

/-- At most one runner: one caller in the loop, other callers are turned away without a change, and
the engine is seen to run. -/
structure Exclusive (s : Callers ι Code) : Prop where
  one : ∀ i j, (s.point i).inLoop = true → (s.point j).inLoop = true → i = j
  refused : ∀ i j, i ≠ j → (s.point i).inLoop = true → s.point j = .compareExchange →
    ∀ p e executed, RunStep guest kind .compareExchange s.engine p e executed →
      p = .returned .engineAlreadyRunning ∧ e = s.engine ∧ executed = none
  running : ∀ i, (s.point i).inLoop = true → s.engine.isRunning = true

variable {guest kind} in
theorem NobodyEntered.exclusive {s : Callers ι Code} (h : NobodyEntered s) :
    Exclusive guest kind s := by
  have hout : ∀ i, (s.point i).inLoop = true → False := by
    intro i hin
    rw [h.not_inLoop i] at hin
    cases hin
  exact ⟨fun i _ hin => (hout i hin).elim, fun i _ _ hin => (hout i hin).elim,
    fun i hin => (hout i hin).elim⟩

variable [DecidableEq ι]

/-- A step of caller `i`: a new call, or the next step of the one it is in. -/
inductive CallerStep (i : ι) (s : Callers ι Code) : Callers ι Code → Prop
  | call (h : s.point i = .outside ∨ ∃ status, s.point i = .returned status) :
      CallerStep i s { s with point := Function.update s.point i .compareExchange }
  | run {p : RunPoint} {e : Engine Code} {executed : Option Code}
      (h : RunStep guest kind (s.point i) s.engine p e executed) :
      CallerStep i s ⟨e, Function.update s.point i p⟩

/-- The states of a run, the latest first, from an engine on which nobody has called. -/
inductive CallerRun (e : Engine Code) : List (Callers ι Code) → Prop
  | start : CallerRun e [⟨e, fun _ => .outside⟩]
  | step {s s' : Callers ι Code} {states : List (Callers ι Code)} {i : ι}
      (hrun : CallerRun e (s :: states)) (hstep : CallerStep guest kind i s s') :
      CallerRun e (s' :: s :: states)

variable {guest kind}

theorem Dispatch.isExecuting {e e' : Engine Code} {executed : Option Code} {again : Bool}
    (h : Dispatch guest kind e e' executed again) : e'.isExecuting = e.isExecuting := by
  cases h <;> rfl

/-- No step sets the flag. -/
theorem RunStep.isExecuting {p p' : RunPoint} {e e' : Engine Code} {executed : Option Code}
    (h : RunStep guest kind p e p' e' executed) (hclear : e.isExecuting = false) :
    e'.isExecuting = false := by
  cases h with
  | dispatched hdispatch => exact hdispatch.isExecuting.trans hclear
  | entered | released => rfl
  | refused | stopped | unstopped | cleared | uncleared | reset | stored => exact hclear

theorem CallerRun.isExecuting {e : Engine Code} (hclear : e.isExecuting = false)
    {states : List (Callers ι Code)} (hrun : CallerRun guest kind e states) :
    ∀ s ∈ states, s.engine.isExecuting = false := by
  induction hrun with
  | start =>
      intro s hs
      obtain rfl := List.mem_singleton.mp hs
      exact hclear
  | @step s s' states i hrun hstep ih =>
      intro t ht
      rcases List.mem_cons.mp ht with rfl | ht
      · have hbefore := ih s List.mem_cons_self
        cases hstep with
        | call => exact hbefore
        | run h => exact h.isExecuting hbefore
      · exact ih t ht

/-- A step from a state in which nobody has entered leads to one, or past the entry. -/
theorem CallerStep.nobodyEntered {s s' : Callers ι Code} {i : ι}
    (hstep : CallerStep guest kind i s s') (hclear : s.engine.isExecuting = false)
    (h : NobodyEntered s) (hout : ∀ j, (s'.point j).inLoop = false) : NobodyEntered s' := by
  intro j
  cases hstep with
  | call =>
      by_cases hj : j = i
      · subst hj
        exact .inr (Function.update_self ..)
      · simp only [Function.update_of_ne hj]
        exact h j
  | run hrun =>
      by_cases hj : j = i
      · subst hj
        have hpoint := hout j
        simp only [Function.update_self] at hpoint
        rcases h j with houtside | hexchange
        · rw [houtside] at hrun
          cases hrun
        · rw [hexchange] at hrun
          cases hrun with
          | entered => cases hpoint
          | refused hset =>
              rw [hclear] at hset
              cases hset
      · simp only [Function.update_of_ne hj]
        exact h j

/-- **At most one runner**, in exactly the runs in which nobody gets past the entry. -/
theorem exclusive_iff {e : Engine Code} (hinit : e.isExecuting = false)
    {states : List (Callers ι Code)} (hrun : CallerRun guest kind e states) :
    (∀ s ∈ states, Exclusive guest kind s) ↔ ∀ s ∈ states, NobodyEntered s := by
  refine ⟨fun hexclusive => ?_, fun hnobody s hs => (hnobody s hs).exclusive⟩
  have hclear := hrun.isExecuting hinit
  have hout : ∀ s ∈ states, ∀ i, (s.point i).inLoop = false := by
    intro s hs i
    by_contra hin
    have hrunning := (hexclusive s hs).running i (Bool.eq_true_of_not_eq_false hin)
    rw [Engine.isRunning, hclear s hs] at hrunning
    cases hrunning
  clear hexclusive
  induction hrun with
  | start =>
      intro s hs
      obtain rfl := List.mem_singleton.mp hs
      exact fun _ => .inl rfl
  | @step s s' states i hrun hstep ih =>
      have hbefore := ih (fun t ht => hclear t (List.mem_cons_of_mem s' ht))
        (fun t ht => hout t (List.mem_cons_of_mem s' ht))
      intro t ht
      rcases List.mem_cons.mp ht with rfl | ht
      · exact hstep.nobodyEntered (hclear s (by simp)) (hbefore s List.mem_cons_self)
          (hout t List.mem_cons_self)
      · exact hbefore t ht

/-- Host code that is its position. -/
def positions : CodeKind Nat := ⟨id, id⟩

/-- A guest of one `ADD`. -/
def addGuest : Guest := ⟨generatedTable, .ofWords 0x1000 [0x91000400]⟩

def addEngine : Engine Nat := .init ⟨fun _ => 0, 0, 0, 0, 0, 0x1000⟩ (.fresh 256)

/-- A run in which one of two callers has called. -/
def oneCaller : List (Callers Bool Nat) :=
  [⟨addEngine, Function.update (fun _ => .outside) true .compareExchange⟩,
    ⟨addEngine, fun _ => .outside⟩]

theorem exclusive_iff_oneCaller :
    (∀ s ∈ oneCaller, Exclusive addGuest positions s) ↔ ∀ s ∈ oneCaller, NobodyEntered s :=
  exclusive_iff rfl (CallerRun.start.step (.call (i := true) (.inl rfl)))

/-- Two callers get into the loop, and the engine is not seen to run. -/
theorem two_runners : ∃ (states : List (Callers Bool Nat)) (s : Callers Bool Nat),
    CallerRun addGuest positions addEngine (s :: states) ∧ (s.point true).inLoop = true ∧
      (s.point false).inLoop = true ∧ s.engine.isRunning = false ∧
      ¬Exclusive addGuest positions s := by
  have h₀ : CallerRun addGuest positions addEngine
      [(⟨addEngine, fun _ => .outside⟩ : Callers Bool Nat)] := .start
  have h₁ := h₀.step (.call (i := true) (.inl rfl))
  have h₂ := h₁.step (.run (i := true) (.entered rfl))
  have h₃ := h₂.step (.call (i := false) (.inl rfl))
  have h₄ := h₃.step (.run (i := false) (.entered rfl))
  refine ⟨_, _, h₄, rfl, rfl, rfl, fun hexclusive => ?_⟩
  exact absurd (hexclusive.one true false rfl rfl) (by decide)

end Ballistic
