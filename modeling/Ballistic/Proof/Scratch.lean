import Ballistic.Proof.Balance

/-!
# The register allocator over whole sequences

`allocate_x86_register` guards the reverse map with `cached >= R15`, which also refuses the last
scratch register, and looks for a clean victim among the registers numbered 0 to 8, of which four
are scratch registers. The two maps, the dirty mask and the scratch set nevertheless stay consistent
through every translation.
-/

namespace Ballistic

open Machine Machine.X86

/-! ### Requests -/

/-- What a translator asks of the allocator: a host register, or the dirty bit of a register that
has one. -/
inductive AllocatorRequest where
  | allocate (arm : Fin 32) (skipLoad : Bool)
  | mark (arm : Fin 32)
  deriving DecidableEq, Repr

namespace Compiler

def perform (c : Compiler) : AllocatorRequest → Compiler
  | .allocate arm skipLoad => (c.allocateX86Register arm skipLoad).2
  | .mark arm => c.setDirty arm

def performAll (c : Compiler) (requests : List AllocatorRequest) : Compiler :=
  requests.foldl perform c

/-- Only registers that have a host register are marked. -/
def MarksMapped : Compiler → List AllocatorRequest → Prop
  | _, [] => True
  | c, .allocate arm skipLoad :: requests => (c.perform (.allocate arm skipLoad)).MarksMapped requests
  | c, .mark arm :: requests =>
      c.allocator.armToX86 arm ≠ none ∧ (c.perform (.mark arm)).MarksMapped requests

instance decidableMarksMapped :
    (c : Compiler) → (requests : List AllocatorRequest) → Decidable (c.MarksMapped requests)
  | _, [] => .isTrue trivial
  | c, .allocate arm skipLoad :: requests =>
      decidableMarksMapped (c.perform (.allocate arm skipLoad)) requests
  | c, .mark arm :: requests =>
      have := decidableMarksMapped (c.perform (.mark arm)) requests
      inferInstanceAs (Decidable (c.allocator.armToX86 arm ≠ none ∧
        (c.perform (.mark arm)).MarksMapped requests))

/-- Every request for a register is served with a scratch register, and none of them reports that the
allocator is corrupted. -/
def Serves : Compiler → List AllocatorRequest → Prop
  | _, [] => True
  | c, .allocate arm skipLoad :: requests =>
      (∃ x ∈ scratchRegisters, (c.allocateX86Register arm skipLoad).1 = some x) ∧
        (c.allocateX86Register arm skipLoad).2.status ≠ .registerAllocatorCorrupted ∧
        (c.perform (.allocate arm skipLoad)).Serves requests
  | c, .mark arm :: requests => (c.perform (.mark arm)).Serves requests

/-- No request is for a guest register that is held in `R15`. -/
def AvoidsR15 : Compiler → List AllocatorRequest → Prop
  | _, [] => True
  | c, .allocate arm skipLoad :: requests =>
      c.allocator.armToX86 arm ≠ some .r15 ∧ (c.perform (.allocate arm skipLoad)).AvoidsR15 requests
  | c, .mark arm :: requests => (c.perform (.mark arm)).AvoidsR15 requests

variable {c : Compiler}

/-- Once the compiler or its assembler has failed, nothing is allocated. -/
theorem allocateX86Register_failed {arm : Nat} {skipLoad : Bool} (h : ¬c.Ok) :
    (c.allocateX86Register arm skipLoad).2 = c := by
  unfold allocateX86Register
  by_cases hstatus : c.status = .success
  · have hassembler : c.assembler.status ≠ .success := fun ha => h ⟨hstatus, ha⟩
    simp [hstatus, hassembler]
  · simp [hstatus]

theorem allocateX86Register_assembler_ok {arm : Nat} {skipLoad : Bool}
    (h : (c.allocateX86Register arm skipLoad).2.assembler.status = .success) :
    c.assembler.status = .success := by
  by_contra hfailed
  rw [allocateX86Register_failed fun hok => hfailed hok.assembler] at h
  exact hfailed h

theorem performAll_assembler_ok {requests : List AllocatorRequest}
    (h : (c.performAll requests).assembler.status = .success) :
    c.assembler.status = .success := by
  induction requests generalizing c with
  | nil => exact h
  | cons request requests ih =>
      have hnext := ih (c := c.perform request) h
      cases request with
      | allocate arm skipLoad => exact allocateX86Register_assembler_ok hnext
      | mark arm => exact hnext

end Compiler

namespace RegisterAllocator

variable {r : RegisterAllocator}

theorem lt_r15_of_scratch : ∀ x ∈ scratchRegisters, x ≠ .r15 → ¬Reg.number .r15 ≤ x.number := by
  decide

/-- A request for a register that is not held in `R15` has an answer, which is a scratch register. -/
theorem Wf.allocate_serves (h : r.Wf) (arm : Fin 32) (skipLoad : Bool)
    (hfree : r.armToX86 arm ≠ some .r15) :
    ∃ p, r.allocate arm skipLoad = some p ∧ p.register ∈ scratchRegisters := by
  unfold allocate
  rw [dif_pos arm.isLt]
  cases hcached : r.armToX86 ⟨arm, arm.isLt⟩ with
  | none => exact ⟨_, rfl, (take_spec h).2.2.1⟩
  | some x =>
      have hmem := h.scratch _ _ hcached
      have hne : x ≠ .r15 := fun heq => hfree (heq ▸ hcached)
      have hinverse := (h.inverse _ _).mp hcached
      simp only [if_neg (lt_r15_of_scratch x hmem hne), hinverse, ne_eq, not_true_eq_false, if_false]
      exact ⟨_, rfl, hmem⟩

end RegisterAllocator

namespace Compiler

variable {c : Compiler}

/-- The guard of the cached branch refuses `R15`. -/
theorem allocateX86Register_r15 {arm : Fin 32} (skipLoad : Bool)
    (h : c.allocator.armToX86 arm = some .r15) :
    (c.allocateX86Register arm skipLoad).1 = none := by
  unfold allocateX86Register
  split
  · rfl
  · split
    · rfl
    · simp only [arm.isLt, dif_pos, Fin.eta, h, le_refl, if_true]

theorem apply_allocate_ok {p : Allocated} (hok : c.Ok)
    (h : (c.apply p.toPlan).assembler.status = .success) : (c.apply p.toPlan).Ok :=
  ⟨by rw [apply_status, hok.status], h⟩

/-- **Corruption reports.** As long as the assembler does not fail, a sequence of requests is served
without a report of corruption exactly if none of them is for a guest register held in `R15`. -/
theorem serves_iff {requests : List AllocatorRequest} (hreset : c.allocator = .reset)
    (hstatus : c.status = .success) (hmarks : c.MarksMapped requests)
    (hassembler : (c.performAll requests).assembler.status = .success) :
    c.Serves requests ↔ c.AvoidsR15 requests := by
  have hwf : c.allocator.Wf := hreset ▸ RegisterAllocator.reset_wf
  clear hreset
  induction requests generalizing c with
  | nil => exact Iff.rfl
  | cons request requests ih =>
      have hok : c.Ok := ⟨hstatus, performAll_assembler_ok hassembler⟩
      have hnext : (c.perform request).assembler.status = .success := performAll_assembler_ok hassembler
      cases request with
      | mark arm =>
          obtain ⟨hmapped, hmarks⟩ := hmarks
          obtain ⟨x, hx⟩ := Option.ne_none_iff_exists'.mp hmapped
          exact ih hstatus hmarks hassembler (hwf.setDirty hx)
      | allocate arm skipLoad =>
          by_cases hr15 : c.allocator.armToX86 arm = some .r15
          · refine iff_of_false ?_ fun havoids => havoids.1 hr15
            rintro ⟨⟨x, -, hserved⟩, -⟩
            rw [allocateX86Register_r15 skipLoad hr15] at hserved
            cases hserved
          · obtain ⟨p, hplan, hmem⟩ := hwf.allocate_serves arm skipLoad hr15
            have heq := allocateX86Register_of_plan hok hplan
            have hperform : c.perform (.allocate arm skipLoad) = c.apply p.toPlan :=
              congrArg Prod.snd heq
            have hok' : (c.apply p.toPlan).Ok := apply_allocate_ok hok (hperform ▸ hnext)
            have hwf' := (RegisterAllocator.allocate_spec hwf hplan).1
            have hrest := ih (c := c.perform (.allocate arm skipLoad)) (hperform ▸ hok'.status) hmarks
              hassembler (hperform ▸ hwf')
            have hserved : ∃ x ∈ scratchRegisters, (c.allocateX86Register arm skipLoad).1 = some x :=
              ⟨p.register, hmem, by rw [heq]⟩
            have huncorrupted :
                (c.allocateX86Register arm skipLoad).2.status ≠ .registerAllocatorCorrupted := by
              rw [heq, hok'.status]
              nofun
            constructor
            · rintro ⟨-, -, hserves⟩
              exact ⟨hr15, hrest.mp hserves⟩
            · rintro ⟨-, havoids⟩
              exact ⟨hserved, huncorrupted, hrest.mpr havoids⟩

theorem serves_iff_marked :
    (Compiler.fresh 256).Serves [.allocate 0 false, .mark 0, .allocate 1 true, .allocate 0 false] ↔
      (Compiler.fresh 256).AvoidsR15
        [.allocate 0 false, .mark 0, .allocate 1 true, .allocate 0 false] :=
  serves_iff rfl rfl ⟨by decide, trivial⟩ (by decide)

/-- Nine registers fill the scratch set, and the ninth is asked for again. -/
def ninthAgain : List AllocatorRequest :=
  [.allocate 0 true, .allocate 1 true, .allocate 2 true, .allocate 3 true, .allocate 4 true,
    .allocate 5 true, .allocate 6 true, .allocate 7 true, .allocate 8 true, .allocate 8 true]

theorem ninthAgain_corrupted :
    (Compiler.fresh 256).MarksMapped ninthAgain ∧
      ((Compiler.fresh 256).performAll ninthAgain).assembler.status = .success ∧
      ((Compiler.fresh 256).performAll ninthAgain).status = .registerAllocatorCorrupted ∧
      ¬(Compiler.fresh 256).Serves ninthAgain := by
  refine ⟨trivial, by decide, by decide, ?_⟩
  unfold ninthAgain
  rintro ⟨-, -, -, -, -, -, -, -, -, -, -, -, -, -, -, -, -, -, -, hcorrupted, -⟩
  exact hcorrupted (by decide)

end Compiler

/-! ### Victims -/

namespace RegisterAllocator

variable {r : RegisterAllocator}

/-- The allocators that requests lead to from a reset. -/
inductive Reachable : RegisterAllocator → Prop
  | reset : Reachable reset
  | allocate {r : RegisterAllocator} {p : Allocated} (arm : Fin 32) (skipLoad : Bool)
      (h : Reachable r) (hplan : r.allocate arm skipLoad = some p) : Reachable p.allocator
  | mark {r : RegisterAllocator} {arm : Fin 32} (h : Reachable r) (hmapped : r.armToX86 arm ≠ none) :
      Reachable (r.setDirty arm)

theorem Reachable.wf (h : r.Reachable) : r.Wf := by
  induction h with
  | reset => exact reset_wf
  | allocate arm skipLoad _ hplan ih => exact (allocate_spec ih hplan).1
  | mark _ hmapped ih =>
      obtain ⟨x, hx⟩ := Option.ne_none_iff_exists'.mp hmapped
      exact ih.setDirty hx

/-- The host register holds a guest register without unsaved changes. -/
def Clean (r : RegisterAllocator) (x : Reg) : Prop := ∃ a, r.x86ToArm x = some a ∧ r.dirty a = false

/-- The search for a clean register finds one if there is one among those it looks at. -/
theorem cleanRegister_eq_none (h : r.cleanRegister = none) : ∀ x ∈ cleanCandidates, ¬r.Clean x := by
  rw [cleanRegister_eq_find, List.find?_eq_none] at h
  intro x hx hclean
  exact h x (List.mem_reverse.mpr hx) (holdsClean_iff.mpr hclean)

theorem evict_evictionCursor (r : RegisterAllocator) (x : Reg) :
    (r.evict x).allocator.evictionCursor = r.evictionCursor := by
  unfold evict
  split
  · rfl
  · split <;> rfl

theorem freeRegister_eq_none (hfull : ∀ x ∈ scratchRegisters, r.x86ToArm x ≠ none) :
    r.freeRegister = none := by
  unfold freeRegister
  rw [List.find?_eq_none]
  intro x hx hfree
  exact hfull x hx (by simpa using hfree)

end RegisterAllocator

namespace Compiler

variable {c : Compiler}

/-- The request is served with a register that held a clean guest register, no `STORE` macro is
pushed, and the eviction cursor stays. -/
def EvictsClean (c : Compiler) (arm : Fin 32) (skipLoad : Bool) : Prop :=
  ∃ x macros r, c.allocateX86Register arm skipLoad = (some x, { c.pushAll macros with allocator := r }) ∧
    c.allocator.Clean x ∧ (∀ m ∈ macros, m.opcode ≠ .store) ∧
    r.evictionCursor = c.allocator.evictionCursor

/-- The scratch registers that the search for a clean victim looks at. -/
def searchedRegisters : List Reg := [.rax, .rcx, .rdx, .r8]

theorem searched_of_scratch :
    ∀ x ∈ scratchRegisters, x ∈ RegisterAllocator.cleanCandidates → x ∈ searchedRegisters := by
  decide

theorem candidate_of_searched : ∀ x ∈ searchedRegisters, x ∈ RegisterAllocator.cleanCandidates := by
  decide

/-- **Clean victims.** In a full register file, the victim is clean exactly if one of `RAX`, `RCX`,
`RDX` and `R8` holds a clean guest register. -/
theorem evictsClean_iff (hok : c.Ok) (hreachable : c.allocator.Reachable)
    (hfull : ∀ x ∈ scratchRegisters, c.allocator.x86ToArm x ≠ none) {arm : Fin 32}
    (harm : c.allocator.armToX86 arm = none) (skipLoad : Bool) :
    c.EvictsClean arm skipLoad ↔ ∃ x ∈ searchedRegisters, c.allocator.Clean x := by
  have hwf := hreachable.wf
  have hfree := RegisterAllocator.freeRegister_eq_none hfull
  have hallocate : c.allocator.allocate arm skipLoad =
      some
        { allocator := c.allocator.take.allocator.map arm c.allocator.take.register
          macros := c.allocator.take.macros ++
            if skipLoad then [] else [loadMacro (some c.allocator.take.register) (offsetX arm)]
          register := c.allocator.take.register } := by
    unfold RegisterAllocator.allocate
    simp only [arm.isLt, dif_pos, Fin.eta, harm]
  have heq := allocateX86Register_of_plan hok hallocate
  have hload : ∀ m ∈ (if skipLoad then []
      else [loadMacro (some c.allocator.take.register) (offsetX arm)]), m.opcode ≠ .store := by
    split <;> simp [loadMacro]
  cases hclean : c.allocator.cleanRegister with
  | some x =>
      obtain ⟨a, hx, hdirty⟩ := RegisterAllocator.cleanRegister_spec hclean
      have htake : c.allocator.take = ⟨c.allocator.evict x, x⟩ := by
        simp only [RegisterAllocator.take, hfree, hclean]
      have hevict : c.allocator.evict x = ⟨c.allocator.unmap a x, []⟩ := by
        simp only [RegisterAllocator.evict, hx, hdirty, Bool.false_eq_true, if_false]
      rw [htake, hevict] at heq hload
      have hscratch := hwf.scratch a x ((hwf.inverse a x).mpr hx)
      have hmem := RegisterAllocator.cleanRegister_mem hclean
      exact iff_of_true ⟨x, _, _, heq, ⟨a, hx, hdirty⟩, hload, rfl⟩
        ⟨x, searched_of_scratch x hscratch hmem, a, hx, hdirty⟩
  | none =>
      have hnone := RegisterAllocator.cleanRegister_eq_none hclean
      have htake : c.allocator.take =
          ⟨c.allocator.advanceCursor.evict c.allocator.cursorRegister,
            c.allocator.cursorRegister⟩ := by
        simp only [RegisterAllocator.take, hfree, hclean]
      refine iff_of_false ?_ ?_
      · rintro ⟨x, macros, r, heq', -, -, hcursor⟩
        have hr : r = c.allocator.take.allocator.map arm c.allocator.take.register :=
          congrArg (fun q : X86Register × Compiler => q.2.allocator) (heq'.symm.trans heq)
        rw [hr, htake, RegisterAllocator.map, RegisterAllocator.evict_evictionCursor] at hcursor
        exact absurd hcursor (by simp [RegisterAllocator.advanceCursor])
      · rintro ⟨x, hx, hcleanx⟩
        exact hnone x (candidate_of_searched x hx) hcleanx

theorem Ok.of_performAll {requests : List AllocatorRequest} (h : (c.performAll requests).Ok) :
    c.Ok := by
  induction requests generalizing c with
  | nil => exact h
  | cons request requests ih =>
      have hnext : (c.perform request).Ok := ih h
      cases request with
      | allocate arm skipLoad => exact hnext.of_allocate
      | mark arm => exact hnext.of_setDirty

theorem performAll_reachable {requests : List AllocatorRequest} (hreachable : c.allocator.Reachable)
    (hmarks : c.MarksMapped requests) (hok : (c.performAll requests).Ok) :
    (c.performAll requests).allocator.Reachable := by
  induction requests generalizing c with
  | nil => exact hreachable
  | cons request requests ih =>
      have hnext := Ok.of_performAll (c := c.perform request) hok
      cases request with
      | allocate arm skipLoad =>
          refine ih ?_ hmarks hok
          obtain ⟨p, hplan, heq⟩ := allocateX86Register_plan hnext
          simp only [perform, heq, apply_allocator]
          exact hreachable.allocate arm skipLoad hplan
      | mark arm => exact ih (hreachable.mark hmarks.1) hmarks.2 hok

/-- Nine guest registers in the nine scratch registers, of which `clean` stay clean. -/
def fillRequests (clean : List (Fin 32)) : List AllocatorRequest :=
  let arms := (List.finRange 32).filter fun arm => decide (arm < 9)
  arms.map (.allocate · true) ++ (arms.filter fun arm => !clean.contains arm).map .mark

theorem evictsClean_iff_r8 :
    ((Compiler.fresh 256).performAll (fillRequests [3])).EvictsClean 9 true := by
  have hok : ((Compiler.fresh 256).performAll (fillRequests [3])).Ok := ⟨by decide, by decide⟩
  have hreachable : ((Compiler.fresh 256).performAll (fillRequests [3])).allocator.Reachable :=
    performAll_reachable .reset (by decide) hok
  exact (evictsClean_iff hok hreachable (by decide) (by decide) true).mpr
    ⟨.r8, by decide, 3, by decide, by decide⟩

/-- `R9` is the only register with a clean guest register, and another one is evicted. -/
theorem evicts_dirty_r9 :
    ((Compiler.fresh 256).performAll (fillRequests [4])).allocator.Reachable ∧
      (∀ x ∈ scratchRegisters,
        ((Compiler.fresh 256).performAll (fillRequests [4])).allocator.x86ToArm x ≠ none) ∧
      ((Compiler.fresh 256).performAll (fillRequests [4])).allocator.Clean .r9 ∧
      ((Compiler.fresh 256).performAll (fillRequests [4])).allocator.armToX86 9 = none ∧
      ¬((Compiler.fresh 256).performAll (fillRequests [4])).EvictsClean 9 true := by
  have hok : ((Compiler.fresh 256).performAll (fillRequests [4])).Ok := ⟨by decide, by decide⟩
  refine ⟨performAll_reachable .reset (by decide) hok, by decide, ⟨4, by decide, by decide⟩,
    by decide, ?_⟩
  rintro ⟨x, macros, r, heq, -, -, hcursor⟩
  have hadvanced := congrArg (fun q : X86Register × Compiler => q.2.allocator.evictionCursor) heq
  exact absurd (hadvanced.trans hcursor) (by decide)

end Compiler

/-! ### Sequences of translators -/

namespace RegisterAllocator

variable {r : RegisterAllocator}

/-- The two maps alone: they are inverse to each other and only scratch registers are mapped. -/
structure Maps (r : RegisterAllocator) : Prop where
  inverse : ∀ a x, r.armToX86 a = some x ↔ r.x86ToArm x = some a
  scratch : ∀ a x, r.armToX86 a = some x → x ∈ scratchRegisters

/-- Without dirty bits there is nothing else to keep. -/
theorem maps_iff_wf : r.Maps ↔ ({ r with isDirty := 0 } : RegisterAllocator).Wf := by
  refine ⟨fun h => ⟨h.inverse, h.scratch, fun a ha => ?_⟩, fun h => ⟨h.inverse, h.scratch⟩⟩
  rw [dirty_eq _ a.isLt] at ha
  simp at ha

theorem Maps.unmap (h : r.Maps) {a : Fin 32} {x : Reg} (hmap : r.armToX86 a = some x) :
    (r.unmap a x).Maps := by
  refine maps_iff_wf.mpr ((maps_iff_wf.mp h).unmap hmap ?_)
  rw [dirty_eq _ a.isLt]
  simp

theorem Maps.map (h : r.Maps) {a : Fin 32} {x : Reg} (hunmapped : r.armToX86 a = none)
    (hfree : r.x86ToArm x = none) (hx : x ∈ scratchRegisters) : (r.map a x).Maps :=
  maps_iff_wf.mpr ((maps_iff_wf.mp h).map hunmapped hfree hx)

theorem Maps.evict (h : r.Maps) (x : Reg) :
    (r.evict x).allocator.Maps ∧ (r.evict x).allocator.x86ToArm x = none ∧
      ∀ a, r.armToX86 a = none → (r.evict x).allocator.armToX86 a = none := by
  unfold RegisterAllocator.evict
  cases hx : r.x86ToArm x with
  | none => exact ⟨h, hx, fun a ha => ha⟩
  | some v =>
      have hmap : r.armToX86 v = some x := (h.inverse v x).mpr hx
      have hkeep : ∀ a, r.armToX86 a = none → Function.update r.armToX86 v none a = none := by
        intro a ha
        by_cases hav : a = v
        · simp [hav]
        · rw [Function.update_of_ne hav]
          exact ha
      by_cases hdirty : r.dirty v = true
      · simp only [hdirty, if_true]
        have hcleared : (r.clearDirty v).Maps := ⟨h.inverse, h.scratch⟩
        exact ⟨hcleared.unmap hmap, by simp [RegisterAllocator.unmap], hkeep⟩
      · simp only [hdirty]
        exact ⟨h.unmap hmap, by simp [RegisterAllocator.unmap], hkeep⟩

theorem Maps.take (h : r.Maps) :
    r.take.allocator.Maps ∧ r.take.allocator.x86ToArm r.take.register = none ∧
      r.take.register ∈ scratchRegisters ∧
      ∀ a, r.armToX86 a = none → r.take.allocator.armToX86 a = none := by
  unfold RegisterAllocator.take
  cases hfree : r.freeRegister with
  | some x =>
      obtain ⟨hmem, hx⟩ := freeRegister_spec hfree
      exact ⟨h, hx, hmem, fun a ha => ha⟩
  | none =>
      cases hclean : r.cleanRegister with
      | some x =>
          obtain ⟨a, hx, -⟩ := cleanRegister_spec hclean
          obtain ⟨hmaps, hnone, hkeep⟩ := h.evict x
          exact ⟨hmaps, hnone, h.scratch a x ((h.inverse a x).mpr hx), hkeep⟩
      | none =>
          have hadvanced : r.advanceCursor.Maps := ⟨h.inverse, h.scratch⟩
          obtain ⟨hmaps, hnone, hkeep⟩ := hadvanced.evict r.cursorRegister
          exact ⟨hmaps, hnone, cursorRegister_mem r, hkeep⟩

theorem Maps.allocate (h : r.Maps) {arm : Nat} {skipLoad : Bool} {p : Allocated}
    (hplan : r.allocate arm skipLoad = some p) : p.allocator.Maps := by
  obtain ⟨harm, ⟨x, -, -, rfl⟩ | ⟨hmiss, rfl⟩⟩ := allocate_cases hplan
  · exact h
  · obtain ⟨hmaps, hnone, hmem, hkeep⟩ := h.take
    exact hmaps.map (hkeep _ hmiss) hnone hmem

end RegisterAllocator

/-- A call that works on the register allocator: one of the seven translators, the allocation that
the case of `RET` makes itself, or the eviction that an allocation makes. -/
inductive TranslatorCall where
  | addSubImm (metadata : Metadata) (instruction : BitVec 32) (isSub : Bool)
  | addSubReg (metadata : Metadata) (instruction : BitVec 32) (isSub : Bool)
  | bCond (instruction : BitVec 32) (guestAddress : Address)
  | cbzCbnz (metadata : Metadata) (instruction : BitVec 32) (guestAddress : Address) (isCbnz : Bool)
  | and (metadata : Metadata) (instruction : BitVec 32)
  | movImmediate (metadata : Metadata) (instruction : BitVec 32)
  | movRegister (metadata : Metadata) (instruction : BitVec 32)
  | allocate (armRegister : Nat) (skipLoad : Bool)
  | evict (x86Register : Reg)

namespace Compiler

def call (c : Compiler) : TranslatorCall → Compiler
  | .addSubImm metadata instruction isSub => c.translateAddSubImm metadata instruction isSub
  | .addSubReg metadata instruction isSub => c.translateAddSubReg metadata instruction isSub
  | .bCond instruction guestAddress => c.translateBCond instruction guestAddress
  | .cbzCbnz metadata instruction guestAddress isCbnz =>
      c.translateCbzCbnz metadata instruction guestAddress isCbnz
  | .and metadata instruction => c.translateAnd metadata instruction
  | .movImmediate metadata instruction => c.translateMovImmediate metadata instruction
  | .movRegister metadata instruction => c.translateMovRegister metadata instruction
  | .allocate armRegister skipLoad => (c.allocateX86Register armRegister skipLoad).2
  | .evict x86Register => c.evictX86Register x86Register

def callAll (c : Compiler) (calls : List TranslatorCall) : Compiler := calls.foldl call c

variable {c c' c'' : Compiler}

/-- From `c` to `c'` a failure of the compiler stays, and success keeps the two maps. -/
def KeepsMaps (c c' : Compiler) : Prop :=
  c'.status = .success → c.status = .success ∧ (c.allocator.Maps → c'.allocator.Maps)

namespace KeepsMaps

theorem refl (c : Compiler) : KeepsMaps c c := fun h => ⟨h, id⟩

theorem trans (h : KeepsMaps c c') (h' : KeepsMaps c' c'') : KeepsMaps c c'' := fun hstatus => by
  obtain ⟨hbetween, hmaps'⟩ := h' hstatus
  obtain ⟨hbefore, hmaps⟩ := h hbetween
  exact ⟨hbefore, hmaps' ∘ hmaps⟩

theorem of_failed (h : c'.status ≠ .success) : KeepsMaps c c' := fun hstatus => absurd hstatus h

/-- Pushes and emits touch neither the status nor the maps. -/
theorem of_eq (hstatus : c'.status = c.status) (hallocator : c'.allocator = c.allocator) :
    KeepsMaps c c' := fun h => ⟨hstatus ▸ h, fun hmaps => hallocator ▸ hmaps⟩

theorem push (c : Compiler) (m : Macro) : KeepsMaps c (c.push m) := .of_eq rfl rfl

theorem pushAll (c : Compiler) (ms : List Macro) : KeepsMaps c (c.pushAll ms) :=
  .of_eq (pushAll_status c ms) (pushAll_allocator c ms)

theorem setDirty (c : Compiler) (arm : Nat) : KeepsMaps c (c.setDirty arm) := fun hstatus =>
  ⟨hstatus, fun hmaps => ⟨hmaps.inverse, hmaps.scratch⟩⟩

theorem evict (c : Compiler) (x : Reg) : KeepsMaps c (c.evictX86Register x) := by
  rw [evictX86Register_eq]
  exact fun hstatus => ⟨(apply_status c _).symm.trans hstatus, fun hmaps => (hmaps.evict x).1⟩

theorem allocate (c : Compiler) (arm : Nat) (skipLoad : Bool) :
    KeepsMaps c (c.allocateX86Register arm skipLoad).2 := by
  by_cases hok : c.Ok
  · cases hplan : c.allocator.allocate arm skipLoad with
    | none => exact of_failed (allocateX86Register_of_no_plan hok hplan)
    | some p =>
        rw [allocateX86Register_of_plan hok hplan]
        exact fun _ => ⟨hok.status, fun hmaps => hmaps.allocate hplan⟩
  · rw [allocateX86Register_failed hok]
    exact refl c

theorem prepareDestination (c : Compiler) (rd : Nat) (x86Rn : X86Register) (discarded : Bool) :
    KeepsMaps c (c.prepareDestination rd x86Rn discarded).2 := by
  unfold Compiler.prepareDestination
  cases discarded with
  | true => exact push c _
  | false =>
      simp only [Bool.false_eq_true, if_false]
      split
      · exact (allocate c rd true).trans (push _ _)
      · exact allocate c rd true

theorem finishAddSub (c : Compiler) (metadata : Metadata) (rd : Nat) (isSub : Bool)
    (arithmetic : Macro) : KeepsMaps c (c.finishAddSub metadata rd isSub arithmetic) := by
  have hpushed : KeepsMaps c (if isSettingFlags metadata then
      (c.push arithmetic).pushAll (setFlagsMacros isSub) else c.push arithmetic) := by
    split
    · exact (push c _).trans (pushAll _ _)
    · exact push c _
  simp only [Compiler.finishAddSub]
  split
  · exact hpushed
  · exact hpushed.trans (setDirty _ rd)

theorem terminateBlockConditional (c : Compiler) (condition : Condition)
    (fallthroughPc takenPc : Address) :
    KeepsMaps c (c.terminateBlockConditional condition fallthroughPc takenPc) :=
  .of_eq (terminateBlockConditional_status ..) (terminateBlockConditional_allocator ..)

theorem translateBCond (c : Compiler) (instruction : BitVec 32) (guestAddress : Address) :
    KeepsMaps c (c.translateBCond instruction guestAddress) := by
  simp only [Compiler.translateBCond]
  split
  · refine of_eq ?_ ?_
    · rw [onAssembler_status, flushAll_status, flushDirtyRegisters_status]
    · rw [onAssembler_allocator, flushAll_allocator, flushDirtyRegisters_allocator]
  · split
    · exact of_failed (by simp)
    · refine of_eq ?_ ?_
      · rw [terminateBlockConditional_status, onAssembler_status, flushAll_status]
      · rw [terminateBlockConditional_allocator, onAssembler_allocator, flushAll_allocator]

theorem translateAnd (c : Compiler) (metadata : Metadata) (instruction : BitVec 32) :
    KeepsMaps c (c.translateAnd metadata instruction) := by
  have hallocated := ((allocate c (registerOperand metadata instruction 1) false).trans
    (allocate _ (registerOperand metadata instruction 3) false)).trans
    (allocate _ (registerOperand metadata instruction 0) true)
  simp only [Compiler.translateAnd]
  split
  · exact of_failed (by simp)
  · split
    · exact of_failed (by simp)
    · split
      · exact of_failed (by simp)
      · refine hallocated.trans (.trans ?_ ((push _ _).trans (setDirty _ _)))
        split
        · exact push _ _
        · split
          · exact refl _
          · split
            · exact push _ _
            · exact refl _

theorem call (c : Compiler) (f : TranslatorCall) : KeepsMaps c (c.call f) := by
  cases f with
  | addSubImm metadata instruction isSub =>
      exact ((allocate c _ _).trans (prepareDestination _ _ _ _)).trans (finishAddSub _ _ _ _ _)
  | addSubReg metadata instruction isSub =>
      simp only [Compiler.call, translateAddSubReg]
      split
      · exact of_failed (by simp)
      · exact (((allocate c _ _).trans (allocate _ _ _)).trans (prepareDestination _ _ _ _)).trans
          (finishAddSub _ _ _ _ _)
  | bCond instruction guestAddress => exact translateBCond c instruction guestAddress
  | cbzCbnz metadata instruction guestAddress isCbnz =>
      exact ((allocate c _ _).trans (push _ _)).trans (terminateBlockConditional _ _ _ _)
  | and metadata instruction => exact translateAnd c metadata instruction
  | movImmediate metadata instruction =>
      simp only [Compiler.call, translateMovImmediate_eq]
      exact ((allocate c _ _).trans (pushAll _ _)).trans (setDirty _ _)
  | movRegister metadata instruction =>
      simp only [Compiler.call, translateMovRegister]
      split
      · exact refl c
      · exact (((allocate c _ _).trans (allocate _ _ _)).trans (push _ _)).trans (setDirty _ _)
  | allocate armRegister skipLoad => exact allocate c armRegister skipLoad
  | evict x86Register => exact evict c x86Register

theorem callAll (c : Compiler) (calls : List TranslatorCall) : KeepsMaps c (c.callAll calls) := by
  induction calls generalizing c with
  | nil => exact refl c
  | cons f calls ih => exact (call c f).trans (ih (c.call f))

end KeepsMaps

/-- From `c` to `c'` a failure of the compiler or of its assembler stays, and success keeps the whole
invariant. -/
def KeepsWf (c c' : Compiler) : Prop := c'.Ok → c.Ok ∧ (c.allocator.Wf → c'.allocator.Wf)

namespace KeepsWf

theorem trans (h : KeepsWf c c') (h' : KeepsWf c' c'') : KeepsWf c c'' := fun hok => by
  obtain ⟨hbetween, hwf'⟩ := h' hok
  obtain ⟨hbefore, hwf⟩ := h hbetween
  exact ⟨hbefore, hwf' ∘ hwf⟩

theorem of_plan (h : c'.Ok → c.Ok ∧ ∃ p : Plan, (c.allocator.Wf → p.allocator.Wf) ∧ c' = c.apply p) :
    KeepsWf c c' := fun hok => by
  obtain ⟨hbefore, p, hwf, rfl⟩ := h hok
  exact ⟨hbefore, hwf⟩

theorem allocate (c : Compiler) (arm : Nat) (skipLoad : Bool) :
    KeepsWf c (c.allocateX86Register arm skipLoad).2 := .of_plan fun hok => by
  obtain ⟨p, hplan, heq⟩ := allocateX86Register_plan hok
  exact ⟨hok.of_allocate, p.toPlan, fun hwf => (RegisterAllocator.allocate_spec hwf hplan).1,
    congrArg Prod.snd heq⟩

/-- The two translators of conditional branches leave the allocator as the end of the block finds
it. -/
theorem of_eq (hok : c'.Ok → c.Ok) (hallocator : c'.allocator = c.allocator) : KeepsWf c c' :=
  fun h => ⟨hok h, fun hwf => hallocator ▸ hwf⟩

theorem translateBCond (c : Compiler) (instruction : BitVec 32) (guestAddress : Address) :
    KeepsWf c (c.translateBCond instruction guestAddress) := by
  refine of_eq Ok.of_translateBCond ?_
  simp only [Compiler.translateBCond]
  split
  · rw [onAssembler_allocator, flushAll_allocator, flushDirtyRegisters_allocator]
  · split
    · rfl
    · rw [terminateBlockConditional_allocator, onAssembler_allocator, flushAll_allocator]

theorem call (c : Compiler) (f : TranslatorCall) : KeepsWf c (c.call f) := by
  cases f with
  | addSubImm metadata instruction isSub =>
      refine .of_plan fun hok => ?_
      obtain ⟨hbefore, p, hplan, heq⟩ := translateAddSubImm_plan hok
      exact ⟨hbefore, p, fun hwf => (RegisterAllocator.planAddSubImm_safe hwf hplan).wf, heq⟩
  | addSubReg metadata instruction isSub =>
      refine .of_plan fun hok => ?_
      obtain ⟨hbefore, -, p, hplan, heq⟩ := translateAddSubReg_plan hok
      exact ⟨hbefore, p, fun hwf => (RegisterAllocator.planAddSubReg_safe hwf hplan).wf, heq⟩
  | bCond instruction guestAddress => exact translateBCond c instruction guestAddress
  | cbzCbnz metadata instruction guestAddress isCbnz =>
      exact (allocate c _ _).trans (of_eq (fun hok => hok.of_terminateBlockConditional.of_push)
        (terminateBlockConditional_allocator ..))
  | and metadata instruction =>
      refine .of_plan fun hok => ?_
      obtain ⟨hbefore, -, p, hplan, heq⟩ := translateAnd_plan hok
      exact ⟨hbefore, p, fun hwf => (RegisterAllocator.planAnd_safe hwf hplan).wf, heq⟩
  | movImmediate metadata instruction =>
      refine .of_plan fun hok => ?_
      obtain ⟨hbefore, p, hplan, heq⟩ := translateMovImmediate_plan hok
      exact ⟨hbefore, p, fun hwf => (RegisterAllocator.planUpdate_safe hwf
        (fun d hd => confined_movImmediateMacros metadata instruction hd) hplan).wf, heq⟩
  | movRegister metadata instruction =>
      refine .of_plan fun hok => ?_
      obtain ⟨hbefore, p, hplan, heq⟩ := translateMovRegister_plan hok
      exact ⟨hbefore, p, fun hwf => (RegisterAllocator.planMovRegister_safe hwf hplan).wf, heq⟩
  | allocate armRegister skipLoad => exact allocate c armRegister skipLoad
  | evict x86Register =>
      refine .of_plan fun hok => ⟨?_, _, fun hwf =>
        (RegisterAllocator.evict_spec hwf x86Register).1, evictX86Register_eq c x86Register⟩
      rw [Compiler.call, evictX86Register_eq] at hok
      exact hok.of_apply

theorem callAll (c : Compiler) (calls : List TranslatorCall) : KeepsWf c (c.callAll calls) := by
  induction calls generalizing c with
  | nil => exact fun hok => ⟨hok, id⟩
  | cons f calls ih => exact (call c f).trans (ih (c.call f))

end KeepsWf

end Compiler

/-! ### Translations -/

theorem LoopState.translateOpcode_wf {s : LoopState} {metadata : Metadata} {w : BitVec 32}
    (hwf : s.compiler.allocator.Wf) (h : (s.translateOpcode metadata w).compiler.Ok) :
    (s.translateOpcode metadata w).compiler.allocator.Wf := by
  obtain ⟨-, houtcome⟩ := translateOpcode_ok h
  cases hm : metadata.outcome with
  | continues =>
      rw [hm] at houtcome
      obtain ⟨p, hplan, heq⟩ := houtcome
      rw [heq]
      exact (RegisterAllocator.plan_safe hwf hplan).wf
  | movesRegister =>
      rw [hm] at houtcome
      obtain ⟨p, hplan, heq⟩ := houtcome
      rw [heq]
      exact (RegisterAllocator.planMovRegister_safe hwf hplan).wf
  | stops =>
      rw [hm] at houtcome
      rw [houtcome]
      exact hwf
  | jumps =>
      rw [hm] at houtcome
      rw [houtcome]
      exact hwf
  | returns =>
      rw [hm] at houtcome
      obtain ⟨p, hplan, heq⟩ := houtcome
      rw [heq]
      exact (RegisterAllocator.planReturn_safe hwf hplan).wf
  | branches =>
      obtain ⟨c₁, ks, -, hwf₁, -, ⟨condition, fallthroughPc, takenPc, heq⟩ | ⟨-, heq⟩⟩ :=
        translateBranch hm h hwf
      · rw [heq, Compiler.terminateBlockConditional_allocator]
        exact hwf₁
      · rw [heq, Compiler.onAssembler_allocator]
        exact hwf₁
  | fails =>
      rw [hm] at houtcome
      exact houtcome.elim

section Runs

variable {input : TranslateInput} {c : Compiler} {start : Address}

theorem translateInstruction_wf {base : Address} {blockOffset i : Nat} {s : LoopState}
    (hwf : s.compiler.status = .success → s.compiler.allocator.Wf)
    (hstatus : (translateInstruction input base blockOffset i s).1.compiler.status = .success) :
    (translateInstruction input base blockOffset i s).1.compiler.allocator.Wf := by
  cases hdecode : balDecodeArm64 input.table (input.memory.word s.guestAddress) with
  | none =>
      rw [translateInstruction_undecoded hdecode] at hstatus ⊢
      exact hwf hstatus
  | some metadata =>
      by_cases htrap : isTrapped input.engineFlags metadata = true
      · rw [translateInstruction_trapped hdecode htrap] at hstatus ⊢
        exact hwf hstatus
      have htrapped : isTrapped input.engineFlags metadata = false := Bool.eq_false_iff.mpr htrap
      by_cases hfailed :
          (s.translateOpcode metadata (input.memory.word s.guestAddress)).failed = true
      · rw [translateInstruction_failed hdecode htrapped hfailed] at hstatus
        exact absurd hstatus (LoopState.recordFailure_status hfailed)
      · have hnot := Bool.eq_false_iff.mpr hfailed
        have hok := LoopState.ok_of_not_failed hnot
        obtain ⟨s', ⟨mappings, rfl⟩, heq⟩ := @translateInstruction_counted input base blockOffset i s
          metadata hdecode htrapped _ rfl hnot
        have hbefore := (LoopState.translateOpcode_ok hok).1
        have hnext := LoopState.translateOpcode_wf (hwf hbefore.status) hok
        rw [heq]
        split
        · exact hnext
        · split <;> exact hnext

/-- **The allocator's maps.** Wherever a translation stands with the status success, the two maps are
inverse to each other, only scratch registers are mapped, and a dirty register is mapped. -/
theorem Reaches.allocator_wf {p : LoopPoint} {s : LoopState} (h : Reaches input c start p s)
    (hstatus : s.compiler.status = .success) : s.compiler.allocator.Wf := by
  induction h with
  | start => exact RegisterAllocator.reset_wf
  | step hreach hnext ih =>
      obtain ⟨_, _, _, _, _, rfl⟩ | ⟨_, _, _, _, _, rfl⟩ | ⟨i, limit, _, _, rfl, _⟩ :=
        loopStep_next hnext
      · exact ih hstatus
      · exact ih hstatus
      · exact translateInstruction_wf ih hstatus

end Runs

/-- **The allocator's maps.** After any sequence of translators from a reset allocator that leaves the
compiler's status success, the two maps are inverse to each other and only scratch registers are
mapped; as long as the assembler has not failed either, a dirty register is mapped. Wherever the
loops of a translation stand the compiler's own status is enough, for the check after the opcode
switch has merged the two. -/
theorem allocator_invariant :
    (∀ (c : Compiler) (calls : List TranslatorCall), c.allocator = .reset →
      (c.callAll calls).status = .success →
        (c.callAll calls).allocator.Maps ∧
          ((c.callAll calls).assembler.status = .success → (c.callAll calls).allocator.Wf)) ∧
      ∀ (input : TranslateInput) (c : Compiler) (start : Address) (p : LoopPoint) (s : LoopState),
        Reaches input c start p s → s.compiler.status = .success → s.compiler.allocator.Wf := by
  refine ⟨fun c calls hreset hstatus => ?_, fun input c start p s => Reaches.allocator_wf⟩
  have hwf : c.allocator.Wf := hreset ▸ RegisterAllocator.reset_wf
  exact ⟨(Compiler.KeepsMaps.callAll c calls hstatus).2 ⟨hwf.inverse, hwf.scratch⟩,
    fun hassembler => (Compiler.KeepsWf.callAll c calls ⟨hstatus, hassembler⟩).2 hwf⟩

/-- `MOVZ` into X0, X1 and X2 and then `ADD X3, X4, X5`. -/
def threeMovesAdd : List TranslatorCall :=
  [.movImmediate (moveWideMetadata true 2) 0xD2800020, .movImmediate (moveWideMetadata true 2) 0xD2800021,
    .movImmediate (moveWideMetadata true 2) 0xD2800022,
    .addSubReg (addSubShiftedMetadata true false false) 0x8B050083 false]

/-- With room for them, and after one instruction of a block. -/
theorem allocator_invariant_add :
    ((startState (.fresh 256) 0x1000).compiler.callAll threeMovesAdd).allocator.Wf ∧
      ∃ s, Reaches (.ofWords 0x1000 [0x91000400, 0xD65F03C0] 8) (.fresh 256) 0x1000 (.forTest 1 2) s ∧
        s.compiler.allocator.armToX86 0 = some .rax ∧ s.compiler.allocator.Wf := by
  have hfirst : Reaches (.ofWords 0x1000 [0x91000400, 0xD65F03C0] 8) (.fresh 256) 0x1000
      (.forTest 0 2) (startState (.fresh 256) 0x1000) := .step .start rfl
  have hreach : Reaches (.ofWords 0x1000 [0x91000400, 0xD65F03C0] 8) (.fresh 256) 0x1000
      (.forTest 1 2) (translateInstruction (.ofWords 0x1000 [0x91000400, 0xD65F03C0] 8) 0x1000 0 0
        (startState (.fresh 256) 0x1000)).1 := .step hfirst rfl
  exact ⟨(allocator_invariant.1 _ _ rfl (by decide)).2 (by decide),
    _, hreach, by decide, allocator_invariant.2 _ _ _ _ _ hreach (by decide)⟩

/-- With room for nothing after the prologue, the fifth macro flushes the first one and fails; the
allocation of X3 is then refused, and X3 is marked dirty all the same. -/
theorem dirty_unmapped_add :
    (startState (.fresh 12) 0x1000).compiler.allocator = .reset ∧
      ((startState (.fresh 12) 0x1000).compiler.callAll threeMovesAdd).status = .success ∧
      ((startState (.fresh 12) 0x1000).compiler.callAll threeMovesAdd).allocator.dirty 3 = true ∧
      ((startState (.fresh 12) 0x1000).compiler.callAll threeMovesAdd).allocator.armToX86 3 = none ∧
      ¬((startState (.fresh 12) 0x1000).compiler.callAll threeMovesAdd).allocator.Wf := by
  have hdirty : ((startState (.fresh 12) 0x1000).compiler.callAll threeMovesAdd).allocator.dirty 3 =
      true := by decide
  have hunmapped : ((startState (.fresh 12) 0x1000).compiler.callAll threeMovesAdd).allocator.armToX86 3 =
      none := by decide
  refine ⟨rfl, by decide, hdirty, hunmapped, fun hwf => ?_⟩
  obtain ⟨x, hx⟩ := hwf.dirty_mapped 3 hdirty
  rw [hunmapped] at hx
  cases hx

end Ballistic
