import Ballistic.Proof.HostFile
import Ballistic.Proof.RegisterForms

/-!
# Operands that stay live

The translators of instructions on two registers ask the allocator two or three times before they push
the arithmetic macro. The allocator does not know which host registers the same instruction has been given
already: where none is free it takes the last clean one or the one under its cursor, whosever it is. The
operands stay live exactly if that is no register given before, which the state before the instruction
decides (`RegisterForm.Fits`), and if the destination does not overwrite an operand before it is read
(`liveOperands_iff`).
-/

namespace Ballistic

open Machine Machine.X86

namespace RegisterAllocator

variable {r : RegisterAllocator}

/-! ### Taking a register -/

/-- Asking for `arm` leaves the host register `x` alone: the guest register has one already, or the one
that is taken for it is another one. -/
def Spares (r : RegisterAllocator) (arm : Fin 32) (x : Reg) : Prop :=
  r.armToX86 arm = none → r.take.register ≠ x

/-- **What an allocation spares it keeps**, and it takes away what it does not spare. -/
theorem allocate_keeps_iff (h : r.Wf) {arm : Fin 32} {skipLoad : Bool} {p : Allocated}
    (hplan : r.allocate arm skipLoad = some p) {a : Fin 32} {x : Reg} (hmap : r.armToX86 a = some x) :
    p.allocator.armToX86 a = some x ↔ r.Spares arm x := by
  obtain ⟨_, ⟨y, hcached, -, rfl⟩ | ⟨hmiss, rfl⟩⟩ := allocate_cases hplan
  · simp only [Fin.eta] at hcached
    exact ⟨fun _ hmiss => absurd (hmiss.symm.trans hcached) nofun, fun _ => hmap⟩
  · simp only [Fin.eta] at hmiss ⊢
    have hother : a ≠ arm := by
      rintro rfl
      rw [hmiss] at hmap
      cases hmap
    have hkeep : (r.take.allocator.map arm r.take.register).armToX86 a =
        r.take.allocator.armToX86 a := Function.update_of_ne hother ..
    rw [hkeep, take_mapped h, hmap, Option.filter_some_eq_some, decide_eq_true_iff]
    exact ⟨fun hne _ => Ne.symm hne, fun hspares => Ne.symm (hspares hmiss)⟩

theorem allocate_register_of_miss {arm : Fin 32} {skipLoad : Bool} {p : Allocated}
    (hplan : r.allocate arm skipLoad = some p) (hmiss : r.armToX86 arm = none) :
    p.register = r.take.register := by
  obtain ⟨_, ⟨y, hcached, -, -⟩ | ⟨-, rfl⟩⟩ := allocate_cases hplan
  · cases hmiss.symm.trans hcached
  · rfl

/-- What a request in turn spares can be told from the state before all of them. -/
theorem After.spares_iff {taken : Nat} {asked : List (Fin 32)} {r' : RegisterAllocator}
    (h : r.After taken asked r') {arm : Fin 32} (hnew : arm ∉ asked) (x : Reg) :
    r'.Spares arm x ↔ (r.hostAfter taken arm = none → r.victim taken ≠ x) := by
  rw [Spares, h.host arm hnew, take_register, h.hostFile, victim]

theorem spares_of_mapped {arm : Fin 32} {y : Reg} (hmap : r.armToX86 arm = some y) (x : Reg) :
    r.Spares arm x :=
  fun hmiss => absurd (hmiss.symm.trans hmap) nofun

/-- Where the second operand comes to be, and how many registers have been taken then. -/
def secondTurn (r : RegisterAllocator) (rn rm : Fin 32) : Reg × Nat :=
  if rm = rn then r.turn 0 rn else r.turn (r.turn 0 rn).2 rm

/-- The second operand does not have to take the register of the first one. -/
def SecondFits (r : RegisterAllocator) (rn rm : Fin 32) : Prop :=
  rm ≠ rn → r.hostAfter (r.turn 0 rn).2 rm = none → r.victim (r.turn 0 rn).2 ≠ (r.turn 0 rn).1

/-- The destination does not have to take the register of an operand. -/
def DestinationFits (r : RegisterAllocator) (rd rn rm : Fin 32) : Prop :=
  rd ≠ rn → rd ≠ rm → r.hostAfter (r.secondTurn rn rm).2 rd = none →
    r.victim (r.secondTurn rn rm).2 ≠ (r.turn 0 rn).1 ∧
      r.victim (r.secondTurn rn rm).2 ≠ (r.secondTurn rn rm).1

instance (r : RegisterAllocator) (rn rm : Fin 32) : Decidable (r.SecondFits rn rm) :=
  inferInstanceAs (Decidable (_ → _ → _))

instance (r : RegisterAllocator) (rd rn rm : Fin 32) : Decidable (r.DestinationFits rd rn rm) :=
  inferInstanceAs (Decidable (_ → _ → _ → _))

end RegisterAllocator

/-! ### The translators of instructions on two registers -/

inductive RegisterForm where
  | addSub (isSub setsFlags : Bool)
  | and
  deriving DecidableEq, Repr

/-- What an instruction has been given when its arithmetic macro is pushed, and what has been pushed
before. -/
structure Handed where
  n : Allocated
  m : Allocated
  d : Allocated
  before : List Macro

namespace RegisterForm

def translate (f : RegisterForm) (c : Compiler) (metadata : Metadata) (w : BitVec 32) : Compiler :=
  match f with
  | addSub isSub _ => c.translateAddSubReg metadata w isSub
  | and => c.translateAnd metadata w

/-- The form is the one that the translator finds. -/
def Matches (f : RegisterForm) (metadata : Metadata) : Prop :=
  match f with
  | addSub _ setsFlags => Compiler.isSettingFlags metadata = setsFlags
  | and => True

/-- The result of an instruction that only sets the flags is discarded. -/
def discards (f : RegisterForm) (rd : Fin 32) : Bool :=
  match f with
  | addSub _ setsFlags => setsFlags && (rd : Nat) == 31
  | and => false

def handOut (f : RegisterForm) (r : RegisterAllocator) (rd rn rm : Fin 32) : Option Handed := do
  let n ← r.allocate rn false
  let m ← n.allocator.allocate rm false
  match f with
  | addSub .. => do
      let d ← m.allocator.planDestination rd n.register (f.discards rd)
      some ⟨n, m, d, n.macros ++ m.macros ++ d.macros⟩
  | and => do
      let d ← m.allocator.allocate rd true
      some ⟨n, m, d, n.macros ++ m.macros ++ d.macros ++
        (RegisterAllocator.andMacros rd d.register n.register m.register).dropLast⟩

def arithmetic (f : RegisterForm) (rd : Fin 32) (h : Handed) : Macro :=
  match f with
  | addSub isSub _ => registerMacro (if isSub then .subRegisterRegister else .addRegisterRegister)
      (some h.d.register) (some h.m.register)
  | and => registerMacro .andRegisterRegister (some h.d.register)
      (some (if (rd : Nat) ≠ 31 ∧ h.d.register = h.m.register then h.n.register else h.m.register))

/-- The destination does not overwrite an operand before the arithmetic macro: an addition or
subtraction copies the first operand there, and a conjunction clears register 31. -/
def SparesOperands (f : RegisterForm) (rd rn rm : Fin 32) : Prop :=
  match f with
  | addSub .. => f.discards rd = false → rd = rm → rn = rm
  | and => rd = 31 → rn ≠ 31 ∧ rm ≠ 31

/-- **The operands fit**: neither the second one nor the destination, unless it is discarded, has to take
the register of an earlier one. All of it is told from the state before the instruction. -/
def Fits (f : RegisterForm) (r : RegisterAllocator) (rd rn rm : Fin 32) : Prop :=
  r.SecondFits rn rm ∧ (f.discards rd = false → r.DestinationFits rd rn rm)

instance (f : RegisterForm) (r : RegisterAllocator) (rd rn rm : Fin 32) : Decidable (f.Fits r rd rn rm) :=
  inferInstanceAs (Decidable (_ ∧ (_ → _)))

/-- What the translator pushes is what comes before the arithmetic macro, and then that macro. -/
theorem translate_handOut {f : RegisterForm} {c : Compiler} {metadata : Metadata} {w : BitVec 32}
    {rd rn rm : Fin 32} (hform : f.Matches metadata)
    (hrd : Compiler.registerOperand metadata w 0 = rd) (hrn : Compiler.registerOperand metadata w 1 = rn)
    (hrm : Compiler.registerOperand metadata w 3 = rm) (hok : (f.translate c metadata w).Ok) :
    ∃ h after p, f.handOut c.allocator rd rn rm = some h ∧
      f.translate c metadata w = c.apply p ∧
      p.macros = h.before ++ f.arithmetic rd h :: after := by
  cases f with
  | addSub isSub setsFlags =>
      obtain rfl : Compiler.isSettingFlags metadata = setsFlags := hform
      obtain ⟨-, -, p, hplan, heq⟩ := Compiler.translateAddSubReg_plan hok
      rw [hrd, hrn, hrm] at hplan
      simp only [RegisterAllocator.planAddSubReg, Option.bind_eq_bind, Option.bind_eq_some_iff,
        Option.some.injEq] at hplan
      obtain ⟨n, hn, m, hm, d, hd, rfl⟩ := hplan
      refine ⟨⟨n, m, d, n.macros ++ m.macros ++ d.macros⟩,
        if Compiler.isSettingFlags metadata then Compiler.setFlagsMacros isSub else [], _, ?_, heq, ?_⟩
      · simp only [handOut, discards, hn, hm, hd, Option.bind_eq_bind, Option.bind_some]
      · simp only [RegisterAllocator.finishPlan, arithmetic, List.append_assoc]
  | and =>
      obtain ⟨-, -, p, hplan, heq⟩ := Compiler.translateAnd_plan hok
      rw [hrd, hrn, hrm] at hplan
      simp only [RegisterAllocator.planAnd, Option.bind_eq_bind, Option.bind_eq_some_iff,
        Option.some.injEq] at hplan
      obtain ⟨n, hn, m, hm, d, hd, rfl⟩ := hplan
      refine ⟨⟨n, m, d, n.macros ++ m.macros ++ d.macros ++
        (RegisterAllocator.andMacros rd d.register n.register m.register).dropLast⟩, [], _, ?_, heq, ?_⟩
      · simp only [handOut, hn, hm, hd, Option.bind_eq_bind, Option.bind_some]
      · simp only [RegisterAllocator.andMacros, arithmetic, List.dropLast_concat, List.append_assoc]

/-- The three allocations. A discarded result needs only two. -/
theorem handOut_spec {f : RegisterForm} {r : RegisterAllocator} {rd rn rm : Fin 32} {h : Handed}
    (hhand : f.handOut r rd rn rm = some h) :
    r.allocate rn false = some h.n ∧ h.n.allocator.allocate rm false = some h.m ∧
      if f.discards rd then h.d.register = .r11 ∧ h.d.allocator = h.m.allocator
      else ∃ d, h.m.allocator.allocate rd true = some d ∧ d.allocator = h.d.allocator ∧
        d.register = h.d.register := by
  cases f with
  | addSub isSub setsFlags =>
      simp only [handOut, Option.bind_eq_bind, Option.bind_eq_some_iff, Option.some.injEq] at hhand
      obtain ⟨n, hn, m, hm, d, hd, rfl⟩ := hhand
      refine ⟨hn, hm, ?_⟩
      unfold RegisterAllocator.planDestination at hd
      cases hdiscards : (addSub isSub setsFlags).discards rd with
      | true =>
          rw [hdiscards] at hd
          cases hd
          exact ⟨rfl, rfl⟩
      | false =>
          rw [hdiscards] at hd
          obtain ⟨p, hp, rfl⟩ := Option.map_eq_some_iff.mp hd
          exact ⟨p, hp, rfl, rfl⟩
  | and =>
      simp only [handOut, Option.bind_eq_bind, Option.bind_eq_some_iff, Option.some.injEq] at hhand
      obtain ⟨n, hn, m, hm, d, hd, rfl⟩ := hhand
      exact ⟨hn, hm, d, hd, rfl, rfl⟩

end RegisterForm

/-- The operands are live when the arithmetic macro is pushed: different registers are in different
host registers, those of the operands are still theirs, and hold their values. -/
structure Handed.Live (h : Handed) (r : RegisterAllocator) (rd rn rm : Fin 32) : Prop where
  distinct : rn ≠ rm → h.n.register ≠ h.m.register
  apart : rd ≠ rm → h.d.register ≠ h.m.register
  first : h.d.allocator.armToX86 rn = some h.n.register
  second : h.d.allocator.armToX86 rm = some h.m.register
  values : ∀ {base : Address} {s : State} {g : A64.State}, Holds base r s g ∅ →
    (execAll s (instrsOf h.before)).regs h.n.register = g.x rn ∧
      (execAll s (instrsOf h.before)).regs h.m.register = g.x rm

/-- No allocation takes a host register that the same instruction has been given before. -/
structure Handed.Spared (h : Handed) (f : RegisterForm) (rd rm : Fin 32) : Prop where
  byM : h.n.allocator.Spares rm h.n.register
  byD : f.discards rd = false →
    h.m.allocator.Spares rd h.n.register ∧ h.m.allocator.Spares rd h.m.register

section Liveness

variable {f : RegisterForm} {r : RegisterAllocator} {rd rn rm : Fin 32} {h : Handed}

/-- The second allocation leaves the first operand where it is. -/
theorem Handed.Spared.first_kept (hwf : r.Wf) (hhand : f.handOut r rd rn rm = some h)
    (hspared : h.Spared f rd rm) :
    h.m.allocator.Wf ∧ h.m.allocator.armToX86 rn = some h.n.register := by
  obtain ⟨hn, hm, -⟩ := RegisterForm.handOut_spec hhand
  obtain ⟨hwfn, _, hnmap⟩ := RegisterAllocator.allocate_spec hwf hn
  exact ⟨(RegisterAllocator.allocate_spec hwfn hm).1,
    (RegisterAllocator.allocate_keeps_iff hwfn hm hnmap).mpr hspared.byM⟩

/-- The mappings of the operands are kept exactly if the later allocations spare them. -/
theorem Handed.mapped_iff (hwf : r.Wf) (hhand : f.handOut r rd rn rm = some h) :
    ((rn ≠ rm → h.n.register ≠ h.m.register) ∧ h.d.allocator.armToX86 rn = some h.n.register ∧
      h.d.allocator.armToX86 rm = some h.m.register) ↔ h.Spared f rd rm := by
  obtain ⟨hn, hm, hcase⟩ := RegisterForm.handOut_spec hhand
  obtain ⟨hwfn, _, hnmap⟩ := RegisterAllocator.allocate_spec hwf hn
  obtain ⟨hwfm, _, hmmap⟩ := RegisterAllocator.allocate_spec hwfn hm
  have hkeeps := RegisterAllocator.allocate_keeps_iff hwfn hm hnmap
  constructor
  · rintro ⟨hdistinct, hfirst, hsecond⟩
    have hbyM : h.n.allocator.Spares rm h.n.register := by
      intro hmiss hsame
      have hne : rn ≠ rm := by
        rintro rfl
        cases hmiss.symm.trans hnmap
      refine hdistinct hne ?_
      rw [← hsame, RegisterAllocator.allocate_register_of_miss hm hmiss]
    refine ⟨hbyM, fun hkept => ?_⟩
    simp only [hkept, Bool.false_eq_true, if_false] at hcase
    obtain ⟨d, hd, hallocator, -⟩ := hcase
    rw [← hallocator] at hfirst hsecond
    exact ⟨(RegisterAllocator.allocate_keeps_iff hwfm hd (hkeeps.mpr hbyM)).mp hfirst,
      (RegisterAllocator.allocate_keeps_iff hwfm hd hmmap).mp hsecond⟩
  · intro hspared
    have hnkept := hkeeps.mpr hspared.byM
    refine ⟨fun hne hsame => hne ?_, ?_⟩
    · exact hwfm.injective hnkept (hsame ▸ hmmap)
    cases hdiscards : f.discards rd with
    | true =>
        simp only [hdiscards, if_true] at hcase
        rw [hcase.2]
        exact ⟨hnkept, hmmap⟩
    | false =>
        simp only [hdiscards, Bool.false_eq_true, if_false] at hcase
        obtain ⟨d, hd, hallocator, -⟩ := hcase
        obtain ⟨hspn, hspm⟩ := hspared.byD hdiscards
        rw [← hallocator]
        exact ⟨(RegisterAllocator.allocate_keeps_iff hwfm hd hnkept).mpr hspn,
          (RegisterAllocator.allocate_keeps_iff hwfm hd hmmap).mpr hspm⟩

/-- Where the operands come to be, from the state before. -/
theorem RegisterForm.handOut_turns (hwf : r.Wf) (hhand : f.handOut r rd rn rm = some h) :
    h.n.register = (r.turn 0 rn).1 ∧ r.After (r.turn 0 rn).2 [rn] h.n.allocator ∧
      h.m.register = (r.secondTurn rn rm).1 ∧ r.After (r.secondTurn rn rm).2 [rm, rn] h.m.allocator := by
  obtain ⟨hn, hm, -⟩ := RegisterForm.handOut_spec hhand
  obtain ⟨-, _, hnmap⟩ := RegisterAllocator.allocate_spec hwf hn
  obtain ⟨hfirst, hafter⟩ := hwf.after.allocate (by simp) hn
  refine ⟨hfirst, hafter, ?_⟩
  unfold RegisterAllocator.secondTurn
  by_cases hsame : rm = rn
  · subst hsame
    rw [if_pos rfl]
    obtain ⟨_, ⟨y, hcached, -, heq⟩ | ⟨hmiss, -⟩⟩ := RegisterAllocator.allocate_cases hm
    · simp only [Fin.eta] at hcached
      obtain rfl := Option.some.inj (hnmap.symm.trans hcached)
      rw [heq]
      exact ⟨hfirst, hafter.mono (by simp)⟩
    · cases hmiss.symm.trans hnmap
  · rw [if_neg hsame]
    exact hafter.allocate (by simpa using hsame) hm

/-- **The later allocations spare the operands exactly if the operands fit.** -/
theorem Handed.spared_iff (hwf : r.Wf) (hhand : f.handOut r rd rn rm = some h) :
    h.Spared f rd rm ↔ f.Fits r rd rn rm := by
  obtain ⟨hn, hm, -⟩ := RegisterForm.handOut_spec hhand
  obtain ⟨hwfn, _, hnmap⟩ := RegisterAllocator.allocate_spec hwf hn
  obtain ⟨-, _, hmmap⟩ := RegisterAllocator.allocate_spec hwfn hm
  obtain ⟨hnreg, hnafter, hmreg, hmafter⟩ := RegisterForm.handOut_turns hwf hhand
  have hsecond : h.n.allocator.Spares rm h.n.register ↔ r.SecondFits rn rm := by
    unfold RegisterAllocator.SecondFits
    by_cases hsame : rm = rn
    · subst hsame
      simp [RegisterAllocator.spares_of_mapped hnmap]
    · rw [hnafter.spares_iff (by simpa using hsame), hnreg]
      simp [hsame]
  have hthird : h.n.allocator.Spares rm h.n.register →
      ((h.m.allocator.Spares rd h.n.register ∧ h.m.allocator.Spares rd h.m.register) ↔
        r.DestinationFits rd rn rm) := by
    intro hspares
    unfold RegisterAllocator.DestinationFits
    have hnkept := (RegisterAllocator.allocate_keeps_iff hwfn hm hnmap).mpr hspares
    by_cases hrn : rd = rn
    · subst hrn
      simp [RegisterAllocator.spares_of_mapped hnkept]
    · by_cases hrm : rd = rm
      · subst hrm
        simp [RegisterAllocator.spares_of_mapped hmmap]
      · have hnew : rd ∉ [rm, rn] := by simp [hrn, hrm]
        rw [hmafter.spares_iff hnew, hmafter.spares_iff hnew, hnreg, hmreg]
        simp only [ne_eq, hrn, hrm, not_false_eq_true, forall_const]
        exact forall_and.symm
  constructor
  · rintro ⟨hbyM, hbyD⟩
    exact ⟨hsecond.mp hbyM, fun hkept => (hthird hbyM).mp (hbyD hkept)⟩
  · rintro ⟨hfitsM, hfitsD⟩
    have hbyM := hsecond.mpr hfitsM
    exact ⟨hbyM, fun hkept => (hthird hbyM).mpr (hfitsD hkept)⟩

/-! ### Values -/

/-- A host on which the guest register `a` is one and the others are zero. -/
theorem RegisterAllocator.Wf.exists_holds (hwf : r.Wf) (a : Fin 32) :
    ∃ (s : State) (g : A64.State), Holds 0 r s g ∅ ∧ g.x a = 1 ∧ ∀ b ≠ a, g.x b = 0 := by
  refine ⟨{ regs := fun x => if r.x86ToArm x = some a then 1 else 0
            flags := { cf := false, pf := false, zf := false, sf := false, of := false }
            memory := Memory.write64 (fun _ => 0) (above 0 (offsetX a)) 1
            rip := 0 },
    { x := Function.update (fun _ => 0) a 1
      flagN := 0, flagZ := 0, flagC := 0, flagV := 0, pc := 0 }, ?_, by simp,
    fun b hb => by simp [hb]⟩
  have hflag : ∀ o, 256 ≤ o → o < 2 ^ 31 →
      Memory.write64 (fun _ => 0) (above 0 (offsetX a)) 1 (above 0 o) = 0 := by
    intro o ho ho'
    have hlt := offsetX_lt a
    exact Memory.write64_above_apply _ _ _ (by omega) ho' (.inl (by omega))
  constructor
  case rbp =>
    refine if_neg fun hmap => ?_
    exact absurd (hwf.scratch _ _ ((hwf.inverse _ _).mpr hmap)) (by decide)
  case mapped =>
    intro b _ x hmap
    simp only [(hwf.inverse _ _).mp hmap, Option.some.injEq]
    by_cases hb : b = a
    · subst hb
      simp
    · simp [hb]
  case memory =>
    intro b _ _
    by_cases hb : b = a
    · subst hb
      simp
    · have hne : (b : Nat) ≠ a := fun hval => hb (Fin.ext hval)
      have hlt := offsetX_lt b
      simp only [Function.update_of_ne hb]
      rw [Memory.read64_write64_above _ _ _ (by have := offsetX_lt a; omega) (by omega)
        (by unfold offsetX; omega)]
      simp only [Memory.read64]
      rfl
  all_goals exact hflag _ (by decide) (by decide)

section Values

variable {base : Address} {s : State} {g : A64.State}

/-- What an addition or subtraction finds in its operands. -/
theorem Holds.handOut_addSub {isSub setsFlags : Bool} (hwf : r.Wf) (hholds : Holds base r s g ∅)
    (hhand : (RegisterForm.addSub isSub setsFlags).handOut r rd rn rm = some h)
    (hspared : h.Spared (.addSub isSub setsFlags) rd rm) :
    (execAll s (instrsOf h.before)).regs h.n.register = g.x rn ∧
      (execAll s (instrsOf h.before)).regs h.m.register =
        g.x (if (RegisterForm.addSub isSub setsFlags).discards rd = false ∧ rd = rm then rn else rm) := by
  obtain ⟨-, -, hdm⟩ := (Handed.mapped_iff hwf hhand).mpr hspared
  obtain ⟨hwfm, hnkept⟩ := hspared.first_kept hwf hhand
  simp only [RegisterForm.handOut, Option.bind_eq_bind, Option.bind_eq_some_iff,
    Option.some.injEq] at hhand
  obtain ⟨n, hn, m, hm, d, hd, rfl⟩ := hhand
  obtain ⟨-, _, hmmap⟩ := RegisterAllocator.allocate_spec (RegisterAllocator.allocate_spec hwf hn).1 hm
  have hfirst := firstSource_of_mapped hwfm hnkept hmmap
  have hsecond := hholds.secondOperand hwf hn hm hd
  rw [secondSource_of_mapped hwfm hd hdm hfirst] at hsecond
  obtain ⟨-, hheld, hnvalue, -⟩ := hholds.loadBoth hwf hn hm
  obtain ⟨hcopied, hother, -⟩ := hheld.planDestination hwfm hd
  rw [hfirst] at hnvalue
  simp only [instrsOf_append, execAll_append]
  refine ⟨?_, hsecond⟩
  by_cases hsame : d.register = n.register
  · rw [← hnvalue, ← hcopied, hsame]
  · rw [hother _ (Ne.symm hsame), hnvalue]

/-- What a conjunction finds in its operands: with register 31 as destination, that one is cleared. -/
theorem Holds.handOut_and (hwf : r.Wf) (hholds : Holds base r s g ∅)
    (hhand : RegisterForm.and.handOut r rd rn rm = some h) (hspared : h.Spared .and rd rm) :
    (execAll s (instrsOf h.before)).regs h.n.register = (if rd = 31 ∧ rn = 31 then 0 else g.x rn) ∧
      (execAll s (instrsOf h.before)).regs h.m.register =
        if rd = 31 ∧ rm = 31 then 0 else g.x rm := by
  obtain ⟨-, hdn, hdm⟩ := (Handed.mapped_iff hwf hhand).mpr hspared
  obtain ⟨hwfm, hnkept⟩ := hspared.first_kept hwf hhand
  simp only [RegisterForm.handOut, Option.bind_eq_bind, Option.bind_eq_some_iff,
    Option.some.injEq] at hhand
  obtain ⟨n, hn, m, hm, d, hd, rfl⟩ := hhand
  obtain ⟨-, _, hmmap⟩ := RegisterAllocator.allocate_spec (RegisterAllocator.allocate_spec hwf hn).1 hm
  obtain ⟨hwfd, _, hdmap⟩ := RegisterAllocator.allocate_spec hwfm hd
  obtain ⟨-, hheld, hnvalue, hmvalue⟩ := hholds.loadBoth hwf hn hm
  rw [firstSource_of_mapped hwfm hnkept hmmap] at hnvalue
  have hregs := (hheld.allocate hwfm hd).2.1 rfl
  have hregister : ∀ {a x}, d.allocator.armToX86 a = some x → (x = d.register ↔ a = rd) := by
    intro a x hmap
    constructor
    · rintro rfl
      exact hwfd.injective hmap hdmap
    · rintro rfl
      exact Option.some.inj (hmap.symm.trans hdmap)
  simp only [instrsOf_append, execAll_append, RegisterAllocator.andMacros, List.dropLast_concat]
  generalize execAll (execAll (execAll s (instrsOf n.macros)) (instrsOf m.macros))
    (instrsOf d.macros) = t at hregs ⊢
  rw [← hregs] at hnvalue hmvalue
  by_cases hrd : rd = 31
  · subst hrd
    have hclear : execAll t (instrsOf [immediateMacro .movRegisterImmediate (some d.register) 0]) =
        t.set d.register 0 := rfl
    have hread : ∀ {a x}, d.allocator.armToX86 a = some x → t.regs x = g.x a →
        (t.set d.register 0).regs x = if a = 31 then 0 else g.x a := by
      intro a x hmap hvalue
      by_cases ha : a = 31
      · rw [if_pos ha, (hregister hmap).mpr ha, State.set_self]
      · rw [if_neg ha, State.set_of_ne _ _ (mt (hregister hmap).mp ha), hvalue]
    simp only [true_and]
    exact ⟨hread hdn hnvalue, hread hdm hmvalue⟩
  · have hrd' : (rd : Nat) ≠ 31 := fun hval => hrd (Fin.ext hval)
    simp only [hrd, hrd', false_and, if_false]
    have hmov : execAll t (instrsOf [registerMacro .movRegisterRegister (some d.register)
        (some n.register)]) = t.set d.register (t.regs n.register) := rfl
    by_cases hdm' : d.register = m.register
    · simp only [hdm', if_true]
      exact ⟨hnvalue, hmvalue⟩
    · by_cases hdn' : d.register = n.register
      · simp only [hdn', hdn' ▸ hdm', if_false, ne_eq, not_true_eq_false]
        exact ⟨hnvalue, hmvalue⟩
      · simp only [hdm', hdn', if_false, ne_eq, not_false_eq_true, if_true, hmov]
        rw [State.set_of_ne _ _ (Ne.symm hdn'), State.set_of_ne _ _ (Ne.symm hdm')]
        exact ⟨hnvalue, hmvalue⟩

end Values

/-- The destination does not get the host register of another operand. -/
theorem Handed.destination_ne (hwf : r.Wf) (hhand : f.handOut r rd rn rm = some h)
    (hsecond : h.d.allocator.armToX86 rm = some h.m.register) (hne : rd ≠ rm) :
    h.d.register ≠ h.m.register := by
  obtain ⟨hn, hm, hcase⟩ := RegisterForm.handOut_spec hhand
  obtain ⟨hwfn, -⟩ := RegisterAllocator.allocate_spec hwf hn
  obtain ⟨hwfm, _, hmmap⟩ := RegisterAllocator.allocate_spec hwfn hm
  cases hdiscards : f.discards rd with
  | true =>
      simp only [hdiscards, if_true] at hcase
      rw [hcase.1]
      exact Ne.symm (not_scratch_r11 (hwfm.scratch _ _ hmmap))
  | false =>
      simp only [hdiscards, Bool.false_eq_true, if_false] at hcase
      obtain ⟨d, hd, hallocator, hregister⟩ := hcase
      obtain ⟨hwfd, _, hdmap⟩ := RegisterAllocator.allocate_spec hwfm hd
      rw [← hallocator] at hsecond
      rw [← hregister]
      intro hsame
      rw [hsame] at hdmap
      exact hne (hwfd.injective hdmap hsecond)

theorem Handed.Spared.values (hwf : r.Wf) (hhand : f.handOut r rd rn rm = some h)
    (hspared : h.Spared f rd rm) (hoperands : f.SparesOperands rd rn rm) {base : Address} {s : State}
    {g : A64.State} (hholds : Holds base r s g ∅) :
    (execAll s (instrsOf h.before)).regs h.n.register = g.x rn ∧
      (execAll s (instrsOf h.before)).regs h.m.register = g.x rm := by
  cases f with
  | addSub isSub setsFlags =>
      obtain ⟨hfirst, hsecond⟩ := hholds.handOut_addSub hwf hhand hspared
      refine ⟨hfirst, hsecond.trans ?_⟩
      split
      · next hsame => rw [hoperands hsame.1 hsame.2]
      · rfl
  | and =>
      obtain ⟨hfirst, hsecond⟩ := hholds.handOut_and hwf hhand hspared
      rw [if_neg fun hboth => (hoperands hboth.1).1 hboth.2] at hfirst
      rw [if_neg fun hboth => (hoperands hboth.1).2 hboth.2] at hsecond
      exact ⟨hfirst, hsecond⟩

/-- If the operands keep their values on every host, none of them is overwritten. -/
theorem Handed.Spared.operands (hwf : r.Wf) (hhand : f.handOut r rd rn rm = some h)
    (hspared : h.Spared f rd rm)
    (hvalues : ∀ {base : Address} {s : State} {g : A64.State}, Holds base r s g ∅ →
      (execAll s (instrsOf h.before)).regs h.n.register = g.x rn ∧
        (execAll s (instrsOf h.before)).regs h.m.register = g.x rm) :
    f.SparesOperands rd rn rm := by
  cases f with
  | addSub isSub setsFlags =>
      intro hkept hsame
      by_contra hne
      obtain ⟨s, g, hholds, hone, hzero⟩ := hwf.exists_holds rm
      have hsecond := (hholds.handOut_addSub hwf hhand hspared).2
      rw [(hvalues hholds).2, if_pos ⟨hkept, hsame⟩, hone, hzero rn hne] at hsecond
      exact absurd hsecond (by decide)
  | and =>
      intro hrd
      obtain ⟨s, g, hholds, hone, -⟩ := hwf.exists_holds 31
      obtain ⟨hfirst, hsecond⟩ := hholds.handOut_and hwf hhand hspared
      rw [(hvalues hholds).1] at hfirst
      rw [(hvalues hholds).2] at hsecond
      constructor
      · rintro rfl
        rw [if_pos ⟨hrd, rfl⟩, hone] at hfirst
        exact absurd hfirst (by decide)
      · rintro rfl
        rw [if_pos ⟨hrd, rfl⟩, hone] at hsecond
        exact absurd hsecond (by decide)

theorem Handed.live_iff (hwf : r.Wf) (hhand : f.handOut r rd rn rm = some h) :
    h.Live r rd rn rm ↔ f.Fits r rd rn rm ∧ f.SparesOperands rd rn rm := by
  have hmapped := Handed.mapped_iff hwf hhand
  rw [← Handed.spared_iff hwf hhand]
  constructor
  · intro hlive
    have hspared := hmapped.mp ⟨hlive.distinct, hlive.first, hlive.second⟩
    exact ⟨hspared, hspared.operands hwf hhand hlive.values⟩
  · rintro ⟨hspared, hoperands⟩
    obtain ⟨hdistinct, hfirst, hsecond⟩ := hmapped.mpr hspared
    exact
      { distinct := hdistinct
        apart := Handed.destination_ne hwf hhand hsecond
        first := hfirst
        second := hsecond
        values := hspared.values hwf hhand hoperands }

end Liveness

/-! ### Translations -/

/-- **When the operands stay live.** In any state that a block's instructions lead to, a translator of
instructions on two registers pushes its arithmetic macro with both operands live exactly if they fit in
the host registers, and the destination overwrites neither. -/
theorem liveOperands_iff {c : Compiler} (hc : c.Translating) {f : RegisterForm} {metadata : Metadata}
    {w : BitVec 32} {rd rn rm : Fin 32} (hform : f.Matches metadata)
    (hrd : Compiler.registerOperand metadata w 0 = rd) (hrn : Compiler.registerOperand metadata w 1 = rn)
    (hrm : Compiler.registerOperand metadata w 3 = rm) (hok : (f.translate c metadata w).Ok) :
    ∃ h after p, f.handOut c.allocator rd rn rm = some h ∧ f.translate c metadata w = c.apply p ∧
      p.macros = h.before ++ f.arithmetic rd h :: after ∧
      (h.Live c.allocator rd rn rm ↔ f.Fits c.allocator rd rn rm ∧ f.SparesOperands rd rn rm) := by
  obtain ⟨h, after, p, hhand, heq, hmacros⟩ := RegisterForm.translate_handOut hform hrd hrn hrm hok
  exact ⟨h, after, p, hhand, heq, hmacros, Handed.live_iff hc.invariant.1 hhand⟩

/-- `ADD X0, X1, X2` at the start of a block: nothing has been taken yet. -/
theorem liveOperands_iff_add : ∃ metadata h,
    balDecodeArm64 generatedTable 0x8B020020 = some metadata ∧
      (RegisterForm.addSub false false).handOut (startState (.fresh 256) 0x1000).compiler.allocator 0 1 2 =
        some h ∧
      h.Live (startState (.fresh 256) 0x1000).compiler.allocator 0 1 2 := by
  have heval : (balDecodeArm64 generatedTable 0x8B020020).map (fun metadata =>
      (Compiler.isSettingFlags metadata,
        [0, 1, 3].map (Compiler.registerOperand metadata 0x8B020020),
        ((startState (.fresh 256) 0x1000).compiler.translateAddSubReg metadata 0x8B020020 false).status,
        ((startState (.fresh 256) 0x1000).compiler.translateAddSubReg metadata 0x8B020020
          false).assembler.status)) = some (false, [0, 1, 2], .success, .success) := by decide
  obtain ⟨metadata, hdecode, heval⟩ := Option.map_eq_some_iff.mp heval
  simp only [List.map_cons, List.map_nil, Prod.mk.injEq, List.cons.injEq, and_true] at heval
  obtain ⟨hform, ⟨hrd, hrn, hrm⟩, hstatus, hassembler⟩ := heval
  obtain ⟨h, -, -, hhand, -, -, hlive⟩ := @liveOperands_iff _
    (.start (Compiler.fresh_reachable (by decide)) 0x1000) (.addSub false false) metadata 0x8B020020 0 1 2
    hform hrd hrn hrm ⟨hstatus, hassembler⟩
  exact ⟨metadata, h, hdecode, hhand, hlive.mpr ⟨by decide, fun _ hsame => absurd hsame (by decide)⟩⟩

/-- Translate the word `w` if the block goes on at it. -/
def LoopState.goOn (s : LoopState) (w : BitVec 32) : Option LoopState :=
  (balDecodeArm64 generatedTable w).bind fun metadata =>
    let s' := s.translateOpcode metadata w
    if metadata.outcome = .continues ∧ s'.compiler.status = .success ∧
        s'.compiler.assembler.status = .success then some s'
    else none

theorem Compiler.Translating.goOn {s s' : LoopState} {ws : List (BitVec 32)}
    (h : s.compiler.Translating) (hgo : ws.foldlM LoopState.goOn s = some s') :
    s'.compiler.Translating := by
  induction ws generalizing s with
  | nil =>
      cases hgo
      exact h
  | cons w ws ih =>
      rw [List.foldlM_cons, Option.bind_eq_bind, Option.bind_eq_some_iff] at hgo
      obtain ⟨s1, hfirst, hrest⟩ := hgo
      obtain ⟨metadata, -, hstep⟩ := Option.bind_eq_some_iff.mp hfirst
      simp only [Option.ite_none_right_eq_some, Option.some.injEq] at hstep
      obtain ⟨⟨houtcome, hstatus, hassembler⟩, rfl⟩ := hstep
      exact ih (h.next houtcome ⟨hstatus, hassembler⟩) hrest

/-- `MOVZ` to `X0` up to `X8`. -/
def nineMoves : List (BitVec 32) := (List.range 9).map fun n => 0xD2800000#32 + BitVec.ofNat 32 n

/-- After moves to nine registers, `ADD X9, X10, X11` adds a register to itself: `X10` is loaded to `RAX`,
which is then the only clean register, so that `X11` is loaded there as well. -/
theorem add_losesOperand : ∃ (s : LoopState) (metadata : Metadata) (h : Handed),
    s.compiler.Translating ∧ balDecodeArm64 generatedTable 0x8B0B0149 = some metadata ∧
      (RegisterForm.addSub false false).Matches metadata ∧
      Compiler.registerOperand metadata 0x8B0B0149 0 = 9 ∧
      Compiler.registerOperand metadata 0x8B0B0149 1 = 10 ∧
      Compiler.registerOperand metadata 0x8B0B0149 3 = 11 ∧
      (s.compiler.translateAddSubReg metadata 0x8B0B0149 false).Ok ∧
      (RegisterForm.addSub false false).handOut s.compiler.allocator 9 10 11 = some h ∧
      h.n.register = .rax ∧ h.m.register = .rax ∧ ¬h.Live s.compiler.allocator 9 10 11 := by
  have heval : (nineMoves.foldlM LoopState.goOn (startState (.fresh 256) 0x1000)).bind (fun s =>
      (balDecodeArm64 generatedTable 0x8B0B0149).bind fun metadata =>
        ((RegisterForm.addSub false false).handOut s.compiler.allocator 9 10 11).map fun h =>
          (Compiler.isSettingFlags metadata,
            [0, 1, 3].map (Compiler.registerOperand metadata 0x8B0B0149),
            (s.compiler.translateAddSubReg metadata 0x8B0B0149 false).status,
            (s.compiler.translateAddSubReg metadata 0x8B0B0149 false).assembler.status,
            [h.n.register, h.m.register])) =
      some (false, [9, 10, 11], .success, .success, [.rax, .rax]) := by decide
  simp only [Option.bind_eq_some_iff, Option.map_eq_some_iff, List.map_cons, List.map_nil, Prod.mk.injEq,
    List.cons.injEq, and_true] at heval
  obtain ⟨s, hgo, metadata, hdecode, h, hhand, hform, ⟨hrd, hrn, hrm⟩, hstatus, hassembler, hn, hm⟩ := heval
  have htranslating : s.compiler.Translating :=
    .goOn (.start (Compiler.fresh_reachable (by decide)) 0x1000) hgo
  exact ⟨s, metadata, h, htranslating, hdecode, hform, hrd, hrn, hrm, ⟨hstatus, hassembler⟩, hhand, hn, hm,
    fun hlive => hlive.distinct (by decide) (hn.trans hm.symm)⟩

end Ballistic
