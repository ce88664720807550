import Ballistic.Proof.Fitting
import Ballistic.Proof.Relocation

/-!
# What stops a translator

A translator asks for registers, pushes macros and marks registers dirty. As a *script* these requests
can be followed through its failures: a register that is refused leaves its error in the compiler, a
macro that finds no room leaves one in the assembler, and after either of them nothing more happens.
So whether an instruction fails, and with which error, can be read off the instruction, the register
allocator and the room in the buffer (`failure_iff`).
-/

namespace Ballistic

open Machine Machine.X86

/-! ### Scripts -/

/-- The requests of a translator, each with what follows it. -/
inductive Script where
  | done
  | push (m : Macro) (rest : Script)
  | allocate (armRegister : Nat) (skipLoad : Bool) (rest : X86Register → Script)
  | mark (armRegister : Nat) (rest : Script)

/-- The error of a request that is refused: the number is out of range, or the register is held where
the allocator does not accept it. -/
def refusalError (armRegister : Nat) : BalError :=
  if armRegister < 32 then .registerAllocatorCorrupted else .invalidArgument

namespace Script

def run : Script → Compiler → Compiler
  | done, c => c
  | push m rest, c => rest.run (c.push m)
  | allocate arm skipLoad rest, c =>
      (rest (c.allocateX86Register arm skipLoad).1).run (c.allocateX86Register arm skipLoad).2
  | mark arm rest, c => rest.run (c.setDirty arm)

/-- The macros that are pushed before the script is done or a register is refused. -/
def pushes : Script → RegisterAllocator → List Macro
  | done, _ => []
  | push m rest, r => m :: rest.pushes r
  | allocate arm skipLoad rest, r =>
      match r.allocate arm skipLoad with
      | none => []
      | some p => p.macros ++ (rest (some p.register)).pushes p.allocator
  | mark arm rest, r => rest.pushes (r.setDirty arm)

/-- The allocator when the script is done or a register is refused. -/
def allocator : Script → RegisterAllocator → RegisterAllocator
  | done, r => r
  | push _ rest, r => rest.allocator r
  | allocate arm skipLoad rest, r =>
      match r.allocate arm skipLoad with
      | none => r
      | some p => (rest (some p.register)).allocator p.allocator
  | mark arm rest, r => rest.allocator (r.setDirty arm)

/-- The error of the first register that is refused, with room for all macros before it. -/
def refusal : Script → RegisterAllocator → Option BalError
  | done, _ => none
  | push _ rest, r => rest.refusal r
  | allocate arm skipLoad rest, r =>
      match r.allocate arm skipLoad with
      | none => some (refusalError arm)
      | some p => (rest (some p.register)).refusal p.allocator
  | mark arm rest, r => rest.refusal (r.setDirty arm)

/-- All macros of the script can be lowered. -/
def IsLowered : Script → Prop
  | done => True
  | push m rest => m.isLowered = true ∧ rest.IsLowered
  | allocate _ _ rest => ∀ x, (rest x).IsLowered
  | mark _ rest => rest.IsLowered

def pushMacros (macros : List Macro) (rest : Script) : Script := macros.foldr push rest

variable {c : Compiler} {r : RegisterAllocator}

/-- After a failure of the assembler nothing more happens. -/
theorem run_failed (script : Script) (h : c.assembler.status ≠ .success) :
    (script.run c).status = c.status ∧ (script.run c).assembler = c.assembler := by
  induction script generalizing c with
  | done => exact ⟨rfl, rfl⟩
  | push m rest ih =>
      have hpushed : (c.push m).assembler = c.assembler := Compiler.push_failed h
      obtain ⟨hstatus, hassembler⟩ := ih (c := c.push m) (hpushed ▸ h)
      exact ⟨hstatus, hassembler.trans hpushed⟩
  | allocate arm skipLoad rest ih =>
      have hsame : (c.allocateX86Register arm skipLoad).2 = c :=
        Compiler.allocateX86Register_failed fun hok => h hok.assembler
      obtain ⟨hstatus, hassembler⟩ := ih (c.allocateX86Register arm skipLoad).1 (c := c) h
      rw [run, hsame]
      exact ⟨hstatus, hassembler⟩
  | mark arm rest ih => exact ih (c := c.setDirty arm) h

/-- After a refusal its error stays. -/
theorem run_refused (script : Script) (h : c.status ≠ .success) :
    (script.run c).status = c.status := by
  induction script generalizing c with
  | done => rfl
  | push m rest ih => exact ih (c := c.push m) h
  | allocate arm skipLoad rest ih =>
      have hsame : (c.allocateX86Register arm skipLoad).2 = c :=
        Compiler.allocateX86Register_failed fun hok => h hok.status
      rw [run, hsame]
      exact ih _ h
  | mark arm rest ih => exact ih (c := c.setDirty arm) h

def plan (script : Script) (r : RegisterAllocator) : Plan := ⟨script.allocator r, script.pushes r⟩

end Script

namespace Compiler

variable {c : Compiler}

/-- A refused request leaves its error and nothing else. -/
theorem allocateX86Register_refused (hok : c.Ok) {arm : Nat} {skipLoad : Bool}
    (hplan : c.allocator.allocate arm skipLoad = none) :
    (c.allocateX86Register arm skipLoad).1 = none ∧
      (c.allocateX86Register arm skipLoad).2.status = refusalError arm := by
  unfold RegisterAllocator.allocate at hplan
  unfold allocateX86Register refusalError
  simp only [hok.status, hok.assembler, ne_eq, not_true_eq_false, if_false]
  split at hplan
  · next hrange =>
      simp only [hrange, dite_true, if_true]
      split at hplan
      · next cached hcached =>
          simp only [hcached]
          split at hplan
          · next hhigh => simp [hhigh]
          · next hlow =>
              split at hplan
              · next hinverse => simp [hlow, hinverse]
              · cases hplan
      · cases hplan
  · next hrange => simp [hrange]

theorem refusalError_ne_success (arm : Nat) : refusalError arm ≠ .success := by
  unfold refusalError
  split <;> decide

/-- A plan replaces the allocator. -/
theorem setDirty_apply (c : Compiler) (arm : Nat) (p : Plan) : (c.setDirty arm).apply p = c.apply p := by
  unfold apply setDirty
  rw [pushAll_withAllocator]

theorem apply_failed {p : Plan} (hok : c.Ok) (h : ¬(c.apply p).Ok) :
    (c.apply p).assembler.status ≠ .success := fun hstatus =>
  h ⟨by rw [apply_status, hok.status], hstatus⟩

end Compiler

namespace Script

variable {c : Compiler}

/-- **A script, followed through its failures.** -/
theorem run_spec (script : Script) (hok : c.Ok) :
    (¬(c.apply (script.plan c.allocator)).Ok →
        (script.run c).status = .success ∧
          (script.run c).assembler = (c.apply (script.plan c.allocator)).assembler) ∧
      ((c.apply (script.plan c.allocator)).Ok →
        match script.refusal c.allocator with
        | none => script.run c = c.apply (script.plan c.allocator)
        | some error => (script.run c).status = error) := by
  induction script generalizing c with
  | done => exact ⟨fun h => absurd hok h, fun _ => rfl⟩
  | push m rest ih =>
      have hplan : c.apply ((push m rest).plan c.allocator) =
          (c.push m).apply (rest.plan (c.push m).allocator) := rfl
      rw [hplan]
      by_cases hpushed : (c.push m).Ok
      · exact ih hpushed
      · have hfailed : (c.push m).assembler.status ≠ .success := fun h => hpushed ⟨hok.status, h⟩
        obtain ⟨hstatus, hassembler⟩ := run_failed rest hfailed
        refine ⟨fun _ => ⟨hstatus.trans hok.status, hassembler.trans ?_⟩, fun h => ?_⟩
        · exact (Compiler.pushAll_failed hfailed).symm
        · exact absurd h.of_apply hpushed
  | mark arm rest ih =>
      have hplan : c.apply ((mark arm rest).plan c.allocator) =
          (c.setDirty arm).apply (rest.plan (c.setDirty arm).allocator) :=
        (Compiler.setDirty_apply c arm _).symm
      rw [hplan]
      exact ih ⟨hok.status, hok.assembler⟩
  | allocate arm skipLoad rest ih =>
      cases hserved : c.allocator.allocate arm skipLoad with
      | none =>
          obtain ⟨-, hstatus⟩ := Compiler.allocateX86Register_refused hok hserved
          have hplan : (allocate arm skipLoad rest).plan c.allocator = ⟨c.allocator, []⟩ := by
            simp only [plan, allocator, pushes, hserved]
          have hsame : c.apply ((allocate arm skipLoad rest).plan c.allocator) = c := by
            rw [hplan]
            rfl
          refine ⟨fun h => absurd (hsame.symm ▸ hok) h, fun _ => ?_⟩
          simp only [refusal, hserved, run]
          rw [run_refused _ (hstatus ▸ Compiler.refusalError_ne_success arm)]
          exact hstatus
      | some p =>
          have heq := Compiler.allocateX86Register_of_plan hok hserved
          have hplan : (allocate arm skipLoad rest).plan c.allocator =
              ⟨((rest (some p.register)).plan p.allocator).allocator,
                p.macros ++ ((rest (some p.register)).plan p.allocator).macros⟩ := by
            simp only [plan, allocator, pushes, hserved]
          have hrefusal : (allocate arm skipLoad rest).refusal c.allocator =
              (rest (some p.register)).refusal p.allocator := by
            simp only [refusal, hserved]
          have happly : c.apply ((allocate arm skipLoad rest).plan c.allocator) =
              (c.apply p.toPlan).apply ((rest (some p.register)).plan p.allocator) := by
            rw [hplan, Compiler.apply_apply]
          rw [happly, hrefusal, run, heq]
          by_cases hgiven : (c.apply p.toPlan).Ok
          · exact ih (some p.register) hgiven
          · have hfailed := Compiler.apply_failed hok hgiven
            obtain ⟨hstatus, hassembler⟩ := run_failed (rest (some p.register)) hfailed
            refine ⟨fun _ => ⟨?_, hassembler.trans ?_⟩, fun h => absurd h.of_apply hgiven⟩
            · rw [hstatus, Compiler.apply_status, hok.status]
            · exact (Compiler.pushAll_failed hfailed).symm

theorem isLowered_allocate {arm : Nat} {skipLoad : Bool} {r : RegisterAllocator} {p : Allocated}
    (h : r.allocate arm skipLoad = some p) : ∀ m ∈ p.macros, m.isLowered = true :=
  fun m hm => Macro.isLowered_of_isEmittable ((RegisterAllocator.allocate_takes h).emittable m hm)

theorem isLowered_pushes {script : Script} (h : script.IsLowered) (r : RegisterAllocator) :
    ∀ m ∈ script.pushes r, m.isLowered = true := by
  induction script generalizing r with
  | done => simp [pushes]
  | push m rest ih => exact List.forall_mem_cons.mpr ⟨h.1, ih h.2 r⟩
  | mark arm rest ih => exact ih h _
  | allocate arm skipLoad rest ih =>
      simp only [pushes]
      split
      · simp
      · next p hserved =>
          exact List.forall_mem_append.mpr ⟨isLowered_allocate hserved, ih _ (h _) _⟩

/-- The macros that leave the window before the script is done or a register is refused. -/
def leaving (script : Script) (c : Compiler) : List Macro :=
  (drain c.window.macros (script.pushes c.allocator)).1

/-- **What a script comes to** depends on the room for the macros that leave the window, and then on the
register allocator. -/
theorem run_room {script : Script} (hscript : script.IsLowered) (hok : c.Ok)
    (hwindow : ∀ m ∈ c.window.macros, m.isLowered = true) (hsize : c.assembler.capacity ≤ sizeMax) :
    (¬MacrosFit c.assembler.capacity c.assembler.offset (script.leaving c) →
        (script.run c).status = .success ∧
          (script.run c).assembler.status =
            if MacrosEndQuietly c.assembler.capacity c.assembler.offset (script.leaving c) then
              .instructionOverflow
            else .invalidArgument) ∧
      (MacrosFit c.assembler.capacity c.assembler.offset (script.leaving c) →
        match script.refusal c.allocator with
        | none => script.run c = c.apply (script.plan c.allocator) ∧
            (c.apply (script.plan c.allocator)).Ok
        | some error => (script.run c).status = error) := by
  obtain ⟨hfailed, hdone⟩ := script.run_spec hok
  have hleaving : ∀ m ∈ script.leaving c, m.isLowered = true :=
    (isLowered_drain hwindow (isLowered_pushes hscript _)).1
  have hassembler : (c.apply (script.plan c.allocator)).assembler =
      flushMacros c.assembler (script.leaving c) := (Compiler.pushAll_drain hok.assembler).1
  constructor
  · intro hshort
    have hstatus := flushMacros_unfit hleaving hok.assembler hsize hshort
    have hnot : ¬(c.apply (script.plan c.allocator)).Ok := by
      intro hgood
      have hsuccess := hgood.assembler
      rw [hassembler, hstatus] at hsuccess
      split at hsuccess <;> cases hsuccess
    obtain ⟨hrun, hsame⟩ := hfailed hnot
    exact ⟨hrun, by rw [hsame, hassembler, hstatus]⟩
  · intro hfits
    have hgood : (c.apply (script.plan c.allocator)).Ok := by
      refine ⟨by rw [Compiler.apply_status, hok.status], ?_⟩
      rw [hassembler]
      exact (flushMacros_fits hleaving hok.assembler hsize hfits).1
    have hresult := hdone hgood
    cases hrefusal : script.refusal c.allocator with
    | none =>
        rw [hrefusal] at hresult
        exact ⟨hresult, hgood⟩
    | some error =>
        rw [hrefusal] at hresult
        exact hresult

theorem isLowered_pushMacros {macros : List Macro} {rest : Script}
    (hmacros : ∀ m ∈ macros, m.isLowered = true) (hrest : rest.IsLowered) :
    (pushMacros macros rest).IsLowered := by
  induction macros with
  | nil => exact hrest
  | cons m macros ih =>
      obtain ⟨hm, hmacros⟩ := List.forall_mem_cons.mp hmacros
      exact ⟨hm, ih hmacros⟩

theorem run_pushMacros (macros : List Macro) (rest : Script) :
    (pushMacros macros rest).run c = rest.run (c.pushAll macros) := by
  induction macros generalizing c with
  | nil => rfl
  | cons m macros ih => exact ih (c := c.push m)

end Script

/-! ### The translators -/

open Compiler

namespace Script

/-- `prepareDestination`. -/
def prepare (rd : Nat) (x86Rn : X86Register) (isDiscardedResult : Bool) (rest : X86Register → Script) :
    Script :=
  if isDiscardedResult then
    push (registerMacro .movRegisterRegister registerDiscardResult x86Rn) (rest registerDiscardResult)
  else
    allocate rd true fun d =>
      if d ≠ x86Rn then push (registerMacro .movRegisterRegister d x86Rn) (rest d) else rest d

/-- `finishAddSub`. -/
def finish (metadata : Metadata) (rd : Nat) (isSub : Bool) (arithmetic : Macro) : Script :=
  let setsFlags := isSettingFlags metadata
  push arithmetic (pushMacros (if setsFlags then setFlagsMacros isSub else [])
    (if setsFlags && rd == 31 then done else mark rd done))

def addSubImm (metadata : Metadata) (w : BitVec 32) (isSub : Bool) : Script :=
  let rd := registerOperand metadata w 0
  let value := BitVec.ofNat 64 (extractOperandValue w (metadata.operand 2)) <<<
    (if extractOperandValue w (metadata.operand 3) = 1 then 12 else 0)
  allocate (registerOperand metadata w 1) false fun n =>
    prepare rd n (isSettingFlags metadata && rd == 31) fun d =>
      finish metadata rd isSub
        (immediateMacro (if isSub then .subRegisterImmediate else .addRegisterImmediate) d value)

def addSubReg (metadata : Metadata) (w : BitVec 32) (isSub : Bool) : Script :=
  let rd := registerOperand metadata w 0
  allocate (registerOperand metadata w 1) false fun n =>
    allocate (registerOperand metadata w 3) false fun m =>
      prepare rd n (isSettingFlags metadata && rd == 31) fun d =>
        finish metadata rd isSub
          (registerMacro (if isSub then .subRegisterRegister else .addRegisterRegister) d m)

/-- The operands of `translate_and`, which it reads before it has a destination. -/
def andOperands (metadata : Metadata) (w : BitVec 32) : Script :=
  allocate (registerOperand metadata w 1) false fun _ =>
    allocate (registerOperand metadata w 3) false fun _ => done

def and (metadata : Metadata) (w : BitVec 32) : Script :=
  let rd := registerOperand metadata w 0
  allocate (registerOperand metadata w 1) false fun n =>
    allocate (registerOperand metadata w 3) false fun m =>
      allocate rd true fun d =>
        let andSource := if rd ≠ 31 ∧ d = m then n else m
        let rest := push (registerMacro .andRegisterRegister d andSource) (mark rd done)
        if rd = 31 then push (immediateMacro .movRegisterImmediate d 0) rest
        else if d = m then rest
        else if d ≠ n then push (registerMacro .movRegisterRegister d n) rest
        else rest

def movImmediate (metadata : Metadata) (w : BitVec 32) : Script :=
  let rd := registerOperand metadata w 0
  allocate rd (movImmediateMacros metadata w).1 fun d =>
    pushMacros ((movImmediateMacros metadata w).2 d) (mark rd done)

def movRegister (metadata : Metadata) (w : BitVec 32) : Script :=
  let rd := registerOperand metadata w 0
  allocate (registerOperand metadata w 1) false fun m =>
    allocate rd true fun d => push (registerMacro .movRegisterRegister d m) (mark rd done)

def storesPc (metadata : Metadata) (w : BitVec 32) : Script :=
  allocate (registerOperand metadata w 0) false fun n => push (storeMacro n offsetPc) done

def tests (metadata : Metadata) (w : BitVec 32) : Script :=
  allocate (registerOperand metadata w 0) false fun n =>
    push (registerMacro .testRegisterRegister n n) done

variable (c : Compiler) (metadata : Metadata) (w : BitVec 32) (isSub : Bool)

theorem run_prepare (rd : Nat) (x86Rn : X86Register) (discarded : Bool) (rest : X86Register → Script) :
    (prepare rd x86Rn discarded rest).run c =
      (rest (c.prepareDestination rd x86Rn discarded).1).run
        (c.prepareDestination rd x86Rn discarded).2 := by
  unfold prepare prepareDestination
  cases discarded with
  | true => rfl
  | false =>
      simp only [Bool.false_eq_true, if_false, run]
      split <;> rfl

theorem run_finish (rd : Nat) (arithmetic : Macro) :
    (finish metadata rd isSub arithmetic).run c = c.finishAddSub metadata rd isSub arithmetic := by
  unfold finish finishAddSub
  simp only [run, run_pushMacros]
  cases isSettingFlags metadata with
  | true =>
      simp only [if_true, Bool.true_and]
      split <;> rfl
  | false => rfl

theorem run_addSubImm : (addSubImm metadata w isSub).run c = c.translateAddSubImm metadata w isSub := by
  simp only [addSubImm, run, run_prepare, run_finish, translateAddSubImm]

theorem run_addSubReg (h : extractOperandValue w (metadata.operand 2) = 0) :
    (addSubReg metadata w isSub).run c = c.translateAddSubReg metadata w isSub := by
  simp only [addSubReg, run, run_prepare, run_finish, translateAddSubReg, h, ne_eq, not_true_eq_false,
    if_false]

theorem run_movImmediate : (movImmediate metadata w).run c = c.translateMovImmediate metadata w := by
  rw [translateMovImmediate_eq]
  simp only [movImmediate, run, run_pushMacros]

theorem run_movRegister (hstatus : c.status = .success) :
    (movRegister metadata w).run c = c.translateMovRegister metadata w := by
  simp only [movRegister, run, translateMovRegister, hstatus, ne_eq, not_true_eq_false, if_false]

theorem isLowered_prepare {rd : Nat} {x86Rn : X86Register} {discarded : Bool}
    {rest : X86Register → Script} (h : ∀ d, (rest d).IsLowered) :
    (prepare rd x86Rn discarded rest).IsLowered := by
  unfold prepare
  split
  · exact ⟨rfl, h _⟩
  · intro d
    simp only
    split
    · exact ⟨rfl, h d⟩
    · exact h d

theorem isLowered_finish {rd : Nat} {arithmetic : Macro} (h : arithmetic.isLowered = true) :
    (finish metadata rd isSub arithmetic).IsLowered := by
  refine ⟨h, isLowered_pushMacros ?_ ?_⟩
  · split
    · simp [setFlagsMacros, setccMacro, Macro.isLowered]
    · simp
  · split <;> trivial

theorem isLowered_addSubImm : (addSubImm metadata w isSub).IsLowered := by
  intro n
  refine isLowered_prepare fun d => isLowered_finish _ _ ?_
  cases isSub <;> rfl

theorem isLowered_addSubReg : (addSubReg metadata w isSub).IsLowered := by
  intro n m
  refine isLowered_prepare fun d => isLowered_finish _ _ ?_
  cases isSub <;> rfl

theorem isLowered_and : (and metadata w).IsLowered := by
  intro n m d
  simp only
  repeat' split
  all_goals exact ⟨rfl, by trivial⟩

theorem isLowered_movImmediate : (movImmediate metadata w).IsLowered := by
  intro d
  refine isLowered_pushMacros ?_ trivial
  simp only [movImmediateMacros]
  repeat' split
  all_goals simp [immediateMacro, Macro.isLowered]

theorem isLowered_movRegister : (movRegister metadata w).IsLowered := fun _ _ => ⟨rfl, trivial⟩

theorem isLowered_storesPc : (storesPc metadata w).IsLowered := fun _ => ⟨rfl, trivial⟩

theorem isLowered_tests : (tests metadata w).IsLowered := fun _ => ⟨rfl, trivial⟩

end Script

end Ballistic
