import Ballistic.Tier1Compiler
import Ballistic.Proof.Lowering

/-!
# Plans

What a translator decides depends on the register allocator and the instruction alone; the window
and the code buffer only matter when they fail. A *plan* is that decision: the allocator afterwards
and the macros to push. Each translator that ends in success has carried out its plan
(`translateAddSubImm_plan` and its siblings), so the rest of the development reasons about plans.

A failure is never undone: `Compiler.Ok` is lost for good once it is lost.
-/

namespace Ballistic

open Machine Machine.X86

/-- Neither the compiler nor its assembler has failed. -/
structure Compiler.Ok (c : Compiler) : Prop where
  status : c.status = .success
  assembler : c.assembler.status = .success

/-- The macros a translator pushes and the register allocator it leaves. -/
structure Plan where
  allocator : RegisterAllocator
  macros : List Macro

/-- A plan that also yields a host register. -/
structure Allocated extends Plan where
  register : Reg

namespace RegisterAllocator

/-! ### The allocator's plan -/

def evict (r : RegisterAllocator) (x86Register : Reg) : Plan :=
  match r.x86ToArm x86Register with
  | none => ⟨r, []⟩
  | some armVictim =>
      if r.dirty armVictim then
        ⟨(r.clearDirty armVictim).unmap armVictim x86Register,
          [storeMacro (some x86Register) (offsetX armVictim)]⟩
      else ⟨r.unmap armVictim x86Register, []⟩

def take (r : RegisterAllocator) : Allocated :=
  match r.freeRegister with
  | some free => ⟨⟨r, []⟩, free⟩
  | none =>
      match r.cleanRegister with
      | some clean => ⟨r.evict clean, clean⟩
      | none => ⟨r.advanceCursor.evict r.cursorRegister, r.cursorRegister⟩

/-- The plan of `allocate_x86_register`; none where it reports an error. -/
def allocate (r : RegisterAllocator) (armRegister : Nat) (skipLoad : Bool) : Option Allocated :=
  if hrange : armRegister < 32 then
    match r.armToX86 ⟨armRegister, hrange⟩ with
    | some cached =>
        if Reg.number .r15 ≤ cached.number then none
        else if r.x86ToArm cached ≠ some ⟨armRegister, hrange⟩ then none
        else some ⟨⟨r, []⟩, cached⟩
    | none =>
        some
          { allocator := r.take.allocator.map ⟨armRegister, hrange⟩ r.take.register
            macros := r.take.macros ++
              if skipLoad then [] else [loadMacro (some r.take.register) (offsetX armRegister)]
            register := r.take.register }
  else none

/-! ### The translators' plans -/

def planDestination (r : RegisterAllocator) (rd : Nat) (x86Rn : Reg) (isDiscardedResult : Bool) :
    Option Allocated :=
  if isDiscardedResult then
    some ⟨⟨r, [registerMacro .movRegisterRegister (some .r11) (some x86Rn)]⟩, .r11⟩
  else
    (r.allocate rd true).map fun d =>
      { d with
        macros := d.macros ++ if d.register ≠ x86Rn then
            [registerMacro .movRegisterRegister (some d.register) (some x86Rn)]
          else [] }

/-- The arithmetic macro and what follows it. -/
def finishPlan (d : Allocated) (setsFlags : Bool) (rd : Nat) (isSub : Bool) (arithmetic : Macro) :
    Plan :=
  { allocator := if setsFlags && rd == 31 then d.allocator else d.allocator.setDirty rd
    macros := d.macros ++ arithmetic :: if setsFlags then Compiler.setFlagsMacros isSub else [] }

def planAddSubImm (r : RegisterAllocator) (setsFlags isSub : Bool) (rd rn : Nat)
    (value : BitVec 64) : Option Plan := do
  let n ← r.allocate rn false
  let d ← n.allocator.planDestination rd n.register (setsFlags && rd == 31)
  let p := finishPlan d setsFlags rd isSub
    (immediateMacro (if isSub then .subRegisterImmediate else .addRegisterImmediate)
      (some d.register) value)
  some { p with macros := n.macros ++ p.macros }

def planAddSubReg (r : RegisterAllocator) (setsFlags isSub : Bool) (rd rn rm : Nat) :
    Option Plan := do
  let n ← r.allocate rn false
  let m ← n.allocator.allocate rm false
  let d ← m.allocator.planDestination rd n.register (setsFlags && rd == 31)
  let p := finishPlan d setsFlags rd isSub
    (registerMacro (if isSub then .subRegisterRegister else .addRegisterRegister)
      (some d.register) (some m.register))
  some { p with macros := n.macros ++ m.macros ++ p.macros }

/-- The macros of `translate_and` once its registers are known. -/
def andMacros (rd : Nat) (d n m : Reg) : List Macro :=
  (if rd = 31 then [immediateMacro .movRegisterImmediate (some d) 0]
    else if d = m then []
    else if d ≠ n then [registerMacro .movRegisterRegister (some d) (some n)]
    else []) ++
    [registerMacro .andRegisterRegister (some d) (some (if rd ≠ 31 ∧ d = m then n else m))]

def planAnd (r : RegisterAllocator) (rd rn rm : Nat) : Option Plan := do
  let n ← r.allocate rn false
  let m ← n.allocator.allocate rm false
  let d ← m.allocator.allocate rd true
  some
    { allocator := d.allocator.setDirty rd
      macros := n.macros ++ m.macros ++ d.macros ++ andMacros rd d.register n.register m.register }

/-- One register loaded or not, and then changed by `macros`. -/
def planUpdate (r : RegisterAllocator) (rd : Nat) (skipLoad : Bool) (macros : X86Register → List Macro) :
    Option Plan :=
  (r.allocate rd skipLoad).map fun d =>
    { allocator := d.allocator.setDirty rd, macros := d.macros ++ macros (some d.register) }

def planMovRegister (r : RegisterAllocator) (rd rm : Nat) : Option Plan := do
  let m ← r.allocate rm false
  let d ← m.allocator.allocate rd true
  some
    { allocator := d.allocator.setDirty rd
      macros := m.macros ++ d.macros ++
        [registerMacro .movRegisterRegister (some d.register) (some m.register)] }

end RegisterAllocator

namespace Compiler

variable {c : Compiler}

/-! ### Failure is permanent -/

@[simp]
theorem push_status (c : Compiler) (m : Macro) : (c.push m).status = c.status := rfl

@[simp]
theorem push_allocator (c : Compiler) (m : Macro) : (c.push m).allocator = c.allocator := rfl

@[simp]
theorem pushAll_status (c : Compiler) (ms : List Macro) : (c.pushAll ms).status = c.status := by
  induction ms generalizing c with
  | nil => rfl
  | cons m ms ih => exact ih (c.push m)

@[simp]
theorem pushAll_allocator (c : Compiler) (ms : List Macro) :
    (c.pushAll ms).allocator = c.allocator := by
  induction ms generalizing c with
  | nil => rfl
  | cons m ms ih => exact ih (c.push m)

theorem Ok.of_push {m : Macro} (h : (c.push m).Ok) : c.Ok := by
  refine ⟨h.status, ?_⟩
  by_contra hfailed
  have hsame : (c.push m).assembler = c.assembler := slidingWindowPush_failed hfailed
  exact hfailed (hsame ▸ h.assembler)

theorem Ok.of_pushAll {ms : List Macro} (h : (c.pushAll ms).Ok) : c.Ok := by
  induction ms generalizing c with
  | nil => exact h
  | cons m ms ih => exact (ih h).of_push

/-- Carry out a plan. -/
def apply (c : Compiler) (p : Plan) : Compiler := { c.pushAll p.macros with allocator := p.allocator }

@[simp]
theorem apply_status (c : Compiler) (p : Plan) : (c.apply p).status = c.status :=
  pushAll_status c p.macros

@[simp]
theorem apply_allocator (c : Compiler) (p : Plan) : (c.apply p).allocator = p.allocator := rfl

theorem apply_ok {p : Plan} : (c.apply p).Ok ↔ (c.pushAll p.macros).Ok :=
  ⟨fun h => ⟨h.status, h.assembler⟩, fun h => ⟨h.status, h.assembler⟩⟩

theorem Ok.of_apply {p : Plan} (h : (c.apply p).Ok) : c.Ok := (apply_ok.mp h).of_pushAll

/-- Pushes do not look at the register allocator. -/
theorem pushAll_withAllocator (c : Compiler) (r : RegisterAllocator) (ms : List Macro) :
    ({ c with allocator := r }).pushAll ms = { c.pushAll ms with allocator := r } := by
  induction ms generalizing c with
  | nil => rfl
  | cons m ms ih => exact ih (c.push m)

theorem pushAll_append (c : Compiler) (ms ns : List Macro) :
    c.pushAll (ms ++ ns) = (c.pushAll ms).pushAll ns := List.foldl_append ..

theorem apply_apply (c : Compiler) (p q : Plan) :
    (c.apply p).apply q = c.apply ⟨q.allocator, p.macros ++ q.macros⟩ := by
  unfold apply
  rw [pushAll_withAllocator, pushAll_append]

theorem apply_push (c : Compiler) (p : Plan) (m : Macro) :
    (c.apply p).push m = c.apply { p with macros := p.macros ++ [m] } :=
  apply_apply c p ⟨p.allocator, [m]⟩

theorem apply_pushAll (c : Compiler) (p : Plan) (ms : List Macro) :
    (c.apply p).pushAll ms = c.apply { p with macros := p.macros ++ ms } := by
  have h := apply_apply c p ⟨p.allocator, ms⟩
  rwa [apply, show ({ (c.apply p).pushAll ms with allocator := p.allocator } : Compiler) =
    (c.apply p).pushAll ms from by
      rw [show p.allocator = ((c.apply p).pushAll ms).allocator by simp]] at h

theorem apply_setDirty (c : Compiler) (p : Plan) (arm : Nat) :
    (c.apply p).setDirty arm = c.apply { p with allocator := p.allocator.setDirty arm } := rfl

/-! ### The allocator carries out its plan -/

theorem evictX86Register_eq (c : Compiler) (x : Reg) :
    c.evictX86Register x = c.apply (c.allocator.evict x) := by
  unfold evictX86Register RegisterAllocator.evict
  cases c.allocator.x86ToArm x with
  | none => rfl
  | some victim =>
      by_cases hdirty : c.allocator.dirty victim = true
      · simp only [hdirty, if_true]
        rfl
      · simp only [hdirty]
        rfl

theorem takeRegister_eq (c : Compiler) :
    c.takeRegister = (c.allocator.take.register, c.apply c.allocator.take.toPlan) := by
  unfold takeRegister RegisterAllocator.take
  cases c.allocator.freeRegister with
  | some free => rfl
  | none =>
      cases c.allocator.cleanRegister with
      | some clean => simp only [evictX86Register_eq]
      | none =>
          simp only [evictX86Register_eq]
          unfold apply
          rw [pushAll_withAllocator]

theorem allocateX86Register_of_plan (hok : c.Ok) {arm : Nat} {skipLoad : Bool} {p : Allocated}
    (hplan : c.allocator.allocate arm skipLoad = some p) :
    c.allocateX86Register arm skipLoad = (some p.register, c.apply p.toPlan) := by
  unfold RegisterAllocator.allocate at hplan
  unfold allocateX86Register
  simp only [hok.status, hok.assembler, ne_eq, not_true_eq_false, if_false]
  split at hplan
  · next hrange =>
      simp only [hrange, dite_true]
      split at hplan
      · next cached hcached =>
          simp only [hcached]
          split at hplan
          · cases hplan
          · next hlow =>
              split at hplan
              · cases hplan
              · next hinverse =>
                  cases hplan
                  simp only [hlow, if_false, hinverse]
                  rfl
      · next hmiss =>
          cases hplan
          simp only [hmiss, takeRegister_eq]
          cases skipLoad with
          | true =>
              simp only [if_true, List.append_nil]
              rfl
          | false =>
              simp only [Bool.false_eq_true, if_false]
              have hmap : ({ c.apply c.allocator.take.toPlan with
                  allocator := (c.apply c.allocator.take.toPlan).allocator.map ⟨arm, hrange⟩
                    c.allocator.take.register } : Compiler) =
                  c.apply ⟨c.allocator.take.allocator.map ⟨arm, hrange⟩ c.allocator.take.register,
                    c.allocator.take.macros⟩ := rfl
              rw [hmap, apply_push]
  · cases hplan

/-- Where the plan has no answer, the compiler's status says so. -/
theorem allocateX86Register_of_no_plan (hok : c.Ok) {arm : Nat} {skipLoad : Bool}
    (hplan : c.allocator.allocate arm skipLoad = none) :
    (c.allocateX86Register arm skipLoad).2.status ≠ .success := by
  unfold RegisterAllocator.allocate at hplan
  unfold allocateX86Register
  simp only [hok.status, hok.assembler, ne_eq, not_true_eq_false, if_false]
  split at hplan
  · next hrange =>
      simp only [hrange, dite_true]
      split at hplan
      · next cached hcached =>
          simp only [hcached]
          split at hplan
          · next hhigh => simp [hhigh]
          · next hlow =>
              split at hplan
              · next hinverse => simp [hlow, hinverse]
              · cases hplan
      · cases hplan
  · next hrange => simp [hrange]

theorem Ok.of_allocate {arm : Nat} {skipLoad : Bool}
    (h : (c.allocateX86Register arm skipLoad).2.Ok) : c.Ok := by
  by_contra hfailed
  have hsame : (c.allocateX86Register arm skipLoad).2 = c := by
    unfold allocateX86Register
    by_cases hstatus : c.status = .success
    · have hassembler : c.assembler.status ≠ .success := fun ha => hfailed ⟨hstatus, ha⟩
      simp [hstatus, hassembler]
    · simp [hstatus]
  exact hfailed (hsame ▸ h)

/-- **The allocator carries out its plan** whenever it ends in success. -/
theorem allocateX86Register_plan {arm : Nat} {skipLoad : Bool}
    (h : (c.allocateX86Register arm skipLoad).2.Ok) :
    ∃ p, c.allocator.allocate arm skipLoad = some p ∧
      c.allocateX86Register arm skipLoad = (some p.register, c.apply p.toPlan) := by
  have hok := h.of_allocate
  cases hplan : c.allocator.allocate arm skipLoad with
  | none => exact absurd h.status (allocateX86Register_of_no_plan hok hplan)
  | some p => exact ⟨p, rfl, allocateX86Register_of_plan hok hplan⟩

/-! ### The translators carry out their plans -/

theorem Ok.of_setDirty {arm : Nat} (h : (c.setDirty arm).Ok) : c.Ok := ⟨h.status, h.assembler⟩

theorem finishAddSub_eq (p : Allocated) (metadata : Metadata) (rd : Nat) (isSub : Bool)
    (arithmetic : Macro) :
    (c.apply p.toPlan).finishAddSub metadata rd isSub arithmetic =
      c.apply (RegisterAllocator.finishPlan p (isSettingFlags metadata) rd isSub arithmetic) := by
  unfold finishAddSub RegisterAllocator.finishPlan
  simp only [apply_push]
  cases isSettingFlags metadata with
  | false => simp [apply_setDirty]
  | true =>
      simp only [if_true, apply_pushAll, Bool.true_and, List.append_assoc, List.cons_append,
        List.nil_append]
      split <;> simp [apply_setDirty]

theorem Ok.of_finishAddSub {metadata : Metadata} {rd : Nat} {isSub : Bool} {arithmetic : Macro}
    (h : (c.finishAddSub metadata rd isSub arithmetic).Ok) : c.Ok := by
  unfold finishAddSub at h
  have hpushed : ((if isSettingFlags metadata then
      (c.push arithmetic).pushAll (setFlagsMacros isSub) else c.push arithmetic)).Ok := by
    by_cases hdiscard : (isSettingFlags metadata && rd == 31) = true
    · simpa only [hdiscard, if_true] using h
    · simp only [hdiscard] at h
      exact h.of_setDirty
  split at hpushed
  · exact hpushed.of_pushAll.of_push
  · exact hpushed.of_push

theorem Ok.of_prepareDestination {rd : Nat} {x86Rn : X86Register} {discarded : Bool}
    (h : (c.prepareDestination rd x86Rn discarded).2.Ok) : c.Ok := by
  unfold prepareDestination at h
  cases discarded with
  | true => exact Ok.of_push h
  | false =>
      simp only [Bool.false_eq_true, if_false] at h
      split at h
      · exact h.of_push.of_allocate
      · exact h.of_allocate

theorem prepareDestination_plan {rd : Nat} {x86Rn : Reg} {discarded : Bool}
    (h : (c.prepareDestination rd (some x86Rn) discarded).2.Ok) :
    ∃ p, c.allocator.planDestination rd x86Rn discarded = some p ∧
      c.prepareDestination rd (some x86Rn) discarded = (some p.register, c.apply p.toPlan) := by
  unfold prepareDestination at h ⊢
  unfold RegisterAllocator.planDestination
  cases discarded with
  | true => exact ⟨_, rfl, rfl⟩
  | false =>
      simp only [Bool.false_eq_true, if_false] at h ⊢
      have hallocate : (c.allocateX86Register rd true).2.Ok := by
        split at h
        · exact h.of_push
        · exact h
      obtain ⟨p, hplan, heq⟩ := allocateX86Register_plan hallocate
      simp only [hplan, heq, Option.map_some]
      refine ⟨_, rfl, ?_⟩
      by_cases hsame : p.register = x86Rn
      · simp [hsame]
      · simp only [ne_eq, Option.some.injEq, hsame, not_false_eq_true, if_true]
        rw [apply_push]

theorem translateAddSubImm_plan {metadata : Metadata} {w : BitVec 32} {isSub : Bool}
    (h : (c.translateAddSubImm metadata w isSub).Ok) :
    c.Ok ∧ ∃ p, c.allocator.planAddSubImm (isSettingFlags metadata) isSub
        (registerOperand metadata w 0) (registerOperand metadata w 1)
        (BitVec.ofNat 64 (extractOperandValue w (metadata.operand 2)) <<<
          (if extractOperandValue w (metadata.operand 3) = 1 then 12 else 0)) = some p ∧
      c.translateAddSubImm metadata w isSub = c.apply p := by
  unfold translateAddSubImm at h ⊢
  have hd := h.of_finishAddSub
  have hn := hd.of_prepareDestination
  obtain ⟨n, hnplan, hneq⟩ := allocateX86Register_plan hn
  simp only [hneq] at hd ⊢
  obtain ⟨d, hdplan, hdeq⟩ := prepareDestination_plan hd
  refine ⟨hn.of_allocate, ?_⟩
  simp only [hdeq, RegisterAllocator.planAddSubImm, hnplan, Option.bind_eq_bind, Option.bind_some]
  rw [apply_allocator] at hdplan
  simp only [hdplan, Option.bind_some]
  refine ⟨_, rfl, ?_⟩
  rw [finishAddSub_eq, apply_apply]

theorem translateAddSubReg_plan {metadata : Metadata} {w : BitVec 32} {isSub : Bool}
    (h : (c.translateAddSubReg metadata w isSub).Ok) :
    c.Ok ∧ extractOperandValue w (metadata.operand 2) = 0 ∧
      ∃ p, c.allocator.planAddSubReg (isSettingFlags metadata) isSub
          (registerOperand metadata w 0) (registerOperand metadata w 1)
          (registerOperand metadata w 3) = some p ∧
        c.translateAddSubReg metadata w isSub = c.apply p := by
  simp only [translateAddSubReg] at h ⊢
  by_cases hshift : extractOperandValue w (metadata.operand 2) = 0
  swap
  · simp only [hshift, ne_eq, not_false_eq_true, if_true] at h
    exact absurd h.status (by simp)
  simp only [hshift, ne_eq, not_true_eq_false, if_false] at h ⊢
  have hd := h.of_finishAddSub
  have hm := hd.of_prepareDestination
  have hn := hm.of_allocate
  obtain ⟨n, hnplan, hneq⟩ := allocateX86Register_plan hn
  simp only [hneq] at hm hd
  obtain ⟨m, hmplan, hmeq⟩ := allocateX86Register_plan hm
  simp only [hmeq] at hd
  obtain ⟨d, hdplan, hdeq⟩ := prepareDestination_plan hd
  rw [apply_allocator] at hmplan hdplan
  refine ⟨hn.of_allocate, trivial, ?_⟩
  simp only [hneq, hmeq, hdeq, RegisterAllocator.planAddSubReg, hnplan, hmplan, hdplan,
    Option.bind_eq_bind, Option.bind_some]
  refine ⟨_, rfl, ?_⟩
  rw [finishAddSub_eq, apply_apply, apply_apply, List.append_assoc]

theorem pushAnd_eq (c : Compiler) (rd : Nat) (d n m : Reg) :
    (if rd = 31 then c.push (immediateMacro .movRegisterImmediate (some d) 0)
      else if d = m then c
      else if ¬d = n then c.push (registerMacro .movRegisterRegister (some d) (some n))
      else c).push
        (registerMacro .andRegisterRegister (some d) (if ¬rd = 31 ∧ d = m then some n else some m)) =
      c.pushAll (RegisterAllocator.andMacros rd d n m) := by
  unfold RegisterAllocator.andMacros
  by_cases hrd : rd = 31
  · simp [hrd, pushAll]
  · by_cases hdm : d = m
    · simp [hrd, hdm, pushAll]
    · by_cases hdn : d = n
      · subst hdn
        simp [hrd, hdm, pushAll]
      · simp [hrd, hdm, hdn, pushAll]

theorem translateAnd_plan {metadata : Metadata} {w : BitVec 32}
    (h : (c.translateAnd metadata w).Ok) :
    c.Ok ∧ extractOperandValue w (metadata.operand 2) = 0 ∧
      ∃ p, c.allocator.planAnd (registerOperand metadata w 0) (registerOperand metadata w 1)
          (registerOperand metadata w 3) = some p ∧
        c.translateAnd metadata w = c.apply p := by
  simp only [translateAnd] at h ⊢
  by_cases hname : metadata.nameAt 3 = 'S'
  · simp only [hname, if_true] at h
    exact absurd h.status (by simp)
  by_cases hshift : extractOperandValue w (metadata.operand 2) = 0
  swap
  · simp only [hname, hshift, ne_eq, not_false_eq_true, if_true, if_false] at h
    exact absurd h.status (by simp)
  simp only [hname, hshift, ne_eq, not_true_eq_false, if_false] at h ⊢
  -- Whichever branch chose the macros, the three allocations succeeded.
  have hd : (((c.allocateX86Register (registerOperand metadata w 1) false).2.allocateX86Register
      (registerOperand metadata w 3) false).2.allocateX86Register
      (registerOperand metadata w 0) true).2.Ok := by
    split at h
    · exact absurd h.status (by simp)
    · have hpushed := h.of_setDirty.of_push
      split at hpushed
      · exact hpushed.of_push
      · split at hpushed
        · exact hpushed
        · split at hpushed
          · exact hpushed.of_push
          · exact hpushed
  have hm := hd.of_allocate
  have hn := hm.of_allocate
  obtain ⟨n, hnplan, hneq⟩ := allocateX86Register_plan hn
  simp only [hneq] at hm hd
  obtain ⟨m, hmplan, hmeq⟩ := allocateX86Register_plan hm
  simp only [hmeq] at hd
  obtain ⟨d, hdplan, hdeq⟩ := allocateX86Register_plan hd
  rw [apply_allocator] at hmplan hdplan
  refine ⟨hn.of_allocate, trivial, ?_⟩
  clear h hd hm hn
  simp only [hneq, hmeq, hdeq, RegisterAllocator.planAnd, hnplan, hmplan, hdplan,
    Option.bind_eq_bind, Option.bind_some]
  refine ⟨_, rfl, ?_⟩
  simp only [reduceCtorEq, or_self, if_false, Option.some.injEq]
  rw [pushAnd_eq, apply_apply, apply_apply, apply_pushAll, apply_setDirty]
  simp only [List.append_assoc]

/-- The macros of `translate_mov_immediate`, and whether it reads the register first. -/
def movImmediateMacros (metadata : Metadata) (w : BitVec 32) : Bool × (X86Register → List Macro) :=
  let imm16 := BitVec.ofNat 64 (extractOperandValue w (metadata.operand 1))
  let shift := extractOperandValue w (metadata.operand 2) * 16
  let mask : BitVec 64 :=
    if (metadata.operand 0).type = .register32 then 0xFFFFFFFF else 0xFFFFFFFFFFFFFFFF
  if metadata.nameAt 3 = 'Z' then
    (true, fun d => [immediateMacro .movRegisterImmediate d (imm16 <<< shift &&& mask)])
  else if metadata.nameAt 3 = 'N' then
    (true, fun d => [immediateMacro .movRegisterImmediate d (~~~(imm16 <<< shift) &&& mask)])
  else
    (false, fun d =>
      [immediateMacro .andRegisterImmediate d (~~~(0xFFFF#64 <<< shift) &&& mask),
        immediateMacro .orRegisterImmediate d (imm16 <<< shift &&& mask)])

theorem translateMovImmediate_eq (c : Compiler) (metadata : Metadata) (w : BitVec 32) :
    c.translateMovImmediate metadata w =
      ((c.allocateX86Register (registerOperand metadata w 0)
          (movImmediateMacros metadata w).1).2.pushAll
        ((movImmediateMacros metadata w).2 (c.allocateX86Register (registerOperand metadata w 0)
          (movImmediateMacros metadata w).1).1)).setDirty (registerOperand metadata w 0) := by
  simp only [translateMovImmediate, movImmediateMacros]
  by_cases hz : metadata.nameAt 3 = 'Z'
  · simp only [hz, if_true]
    rfl
  · by_cases hn : metadata.nameAt 3 = 'N'
    · simp only [hn, if_true]
      rfl
    · simp only [hz, hn, if_false]
      rfl

theorem translateMovImmediate_plan {metadata : Metadata} {w : BitVec 32}
    (h : (c.translateMovImmediate metadata w).Ok) :
    c.Ok ∧ ∃ p, c.allocator.planUpdate (registerOperand metadata w 0)
        (movImmediateMacros metadata w).1 (movImmediateMacros metadata w).2 = some p ∧
      c.translateMovImmediate metadata w = c.apply p := by
  rw [translateMovImmediate_eq] at h ⊢
  have hd := h.of_setDirty.of_pushAll
  obtain ⟨d, hdplan, hdeq⟩ := allocateX86Register_plan hd
  refine ⟨hd.of_allocate, ?_⟩
  rw [RegisterAllocator.planUpdate, hdplan, hdeq]
  refine ⟨_, rfl, ?_⟩
  rw [apply_pushAll, apply_setDirty]

theorem translateMovRegister_plan {metadata : Metadata} {w : BitVec 32}
    (h : (c.translateMovRegister metadata w).Ok) :
    c.Ok ∧ ∃ p, c.allocator.planMovRegister (registerOperand metadata w 0)
        (registerOperand metadata w 1) = some p ∧
      c.translateMovRegister metadata w = c.apply p := by
  simp only [translateMovRegister] at h ⊢
  by_cases hstatus : c.status = .success
  swap
  · simp only [hstatus, ne_eq, not_false_eq_true, if_true] at h
    exact absurd h.status hstatus
  simp only [hstatus, ne_eq, not_true_eq_false, if_false] at h ⊢
  have hd := h.of_setDirty.of_push
  have hm := hd.of_allocate
  obtain ⟨m, hmplan, hmeq⟩ := allocateX86Register_plan hm
  simp only [hmeq] at hd
  obtain ⟨d, hdplan, hdeq⟩ := allocateX86Register_plan hd
  rw [apply_allocator] at hdplan
  refine ⟨hm.of_allocate, ?_⟩
  simp only [hmeq, hdeq, RegisterAllocator.planMovRegister, hmplan, hdplan, Option.bind_eq_bind,
    Option.bind_some]
  refine ⟨_, rfl, ?_⟩
  rw [apply_apply, apply_push, apply_setDirty]

end Compiler

end Ballistic
