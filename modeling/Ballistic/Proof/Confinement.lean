import Ballistic.Proof.Allocation
import Ballistic.Proof.Blocks

/-!
# Confinement of the translated code

Whatever a translator plans, its code writes scratch registers, the temporary register and the part
of the CPU record before the instruction counter, and nothing else, and the allocator's invariant
survives. This needs no assumption on the values computed, so it also covers the instructions whose
translation is wrong.
-/

namespace Ballistic

open Machine Machine.X86

/-- The registers that translated code may change. -/
def workingRegisters : List Reg := scratchRegisters ++ [.r11]

/-- The macro's code is confined to the working registers and the CPU record before the counter. -/
def Macro.Confined (m : Macro) : Prop :=
  ∀ i ∈ m.instrs, X86.Confined workingRegisters offsetInstructionCount i

/-- The plan keeps the allocator's invariant and pushes confined macros. -/
structure Plan.Safe (p : Plan) : Prop where
  wf : p.allocator.Wf
  confined : ∀ m ∈ p.macros, m.Confined

theorem scratch_working {x : Reg} (h : x ∈ scratchRegisters) : x ∈ workingRegisters :=
  List.mem_append_left _ h

theorem r11_working : Reg.r11 ∈ workingRegisters := by decide

/-- Confined macros leave the instruction counter alone. -/
theorem spares_instrsOf {ms : List Macro} (h : ∀ m ∈ ms, m.Confined) :
    ∀ i ∈ instrsOf ms, X86.Confined workingRegisters offsetInstructionCount i := by
  intro i hi
  obtain ⟨m, hm, hi⟩ := List.mem_flatMap.mp hi
  exact h m hm i hi

theorem confined_instrsOf {ms : List Macro} (h : ∀ m ∈ ms, m.Confined) :
    ∀ i ∈ instrsOf ms, X86.Confined workingRegisters cpuSize i := fun i hi =>
  (spares_instrsOf h i hi).mono (by decide)

/-! ### Macros -/

theorem toNat_offset {offset : Nat} (h : offset < 2 ^ 32) :
    ((BitVec.ofNat 64 offset).setWidth 32).toNat = offset := by
  simp only [BitVec.toNat_setWidth, BitVec.toNat_ofNat]
  omega

theorem confined_loadMacro {x : Reg} (hx : x ∈ scratchRegisters) (offset : Nat) :
    (loadMacro (some x) offset).Confined := by
  intro i hi
  rw [instrs_loadMacro, List.mem_singleton] at hi
  subst hi
  exact scratch_working hx

theorem confined_storeMacro (x : Reg) {offset : Nat} (h : offset + 8 ≤ offsetInstructionCount) :
    (storeMacro (some x) offset).Confined := by
  intro i hi
  rw [instrs_storeMacro, List.mem_singleton] at hi
  subst hi
  have hlt : offset < 2 ^ 32 := by
    unfold offsetInstructionCount at h
    omega
  simp only [X86.Confined, InFrame, toNat_offset hlt]
  exact h

theorem confined_setccMacro (condition : Condition) {offset : Nat} (h : offset + 1 ≤ offsetInstructionCount) :
    (setccMacro condition offset).Confined := by
  intro i hi
  have hinstrs : (setccMacro condition offset).instrs =
      [.setcc condition ((BitVec.ofNat 64 offset).setWidth 32)] := rfl
  rw [hinstrs, List.mem_singleton] at hi
  subst hi
  have hlt : offset < 2 ^ 32 := by
    unfold offsetInstructionCount at h
    omega
  simp only [X86.Confined, InFrame, toNat_offset hlt]
  exact h

/-- The opcodes with a destination register that the translators use. -/
def MacroOpcode.writesDestination : MacroOpcode → Bool
  | .addRegisterImmediate | .addRegisterRegister | .andRegisterImmediate | .andRegisterRegister
  | .movRegisterImmediate | .movRegisterRegister | .orRegisterImmediate | .subRegisterImmediate
  | .subRegisterRegister => true
  | _ => false

theorem confined_destination {m : Macro} (hopcode : m.opcode.writesDestination = true) {d : Reg}
    (hd : m.destination = some d) (hmem : d ∈ workingRegisters) : m.Confined := by
  obtain ⟨opcode, destination, source, immediate, condition⟩ := m
  simp only at hd hopcode
  subst hd
  intro i hi
  cases opcode with
  | addRegisterImmediate | subRegisterImmediate | movRegisterImmediate =>
      simp only [Macro.instrs, Option.elim_some, List.mem_singleton] at hi
      subst hi
      exact hmem
  | addRegisterRegister | subRegisterRegister | andRegisterRegister | movRegisterRegister =>
      cases source with
      | none => simp [Macro.instrs] at hi
      | some s =>
          simp only [Macro.instrs, Option.elim_some, List.mem_singleton] at hi
          subst hi
          exact hmem
  | andRegisterImmediate | orRegisterImmediate =>
      simp only [Macro.instrs, Option.elim_some, List.mem_cons, List.not_mem_nil, or_false] at hi
      rcases hi with rfl | rfl
      · exact r11_working
      · exact hmem
  | _ => cases hopcode

theorem confined_setFlagsMacros (isSub : Bool) : ∀ m ∈ Compiler.setFlagsMacros isSub, m.Confined := by
  intro m hm
  simp only [Compiler.setFlagsMacros, List.mem_cons, List.not_mem_nil, or_false] at hm
  rcases hm with rfl | rfl | rfl | rfl <;> exact confined_setccMacro _ (by decide)

/-! ### Plans -/

theorem forall_mem_append {P : Macro → Prop} {ms ns : List Macro} (hms : ∀ m ∈ ms, P m)
    (hns : ∀ m ∈ ns, P m) : ∀ m ∈ ms ++ ns, P m := fun m hm =>
  (List.mem_append.mp hm).elim (hms m) (hns m)

namespace RegisterAllocator

variable {r : RegisterAllocator}

theorem evict_safe (h : r.Wf) (x : Reg) : (r.evict x).Safe := by
  refine ⟨(evict_spec h x).1, fun m hm => ?_⟩
  unfold evict at hm
  cases hx : r.x86ToArm x with
  | none => simp [hx] at hm
  | some victim =>
      simp only [hx] at hm
      split at hm
      · simp only [List.mem_singleton] at hm
        subst hm
        have hlt := offsetX_lt victim
        exact confined_storeMacro x (by unfold offsetInstructionCount; omega)
      · simp at hm

theorem take_safe (h : r.Wf) : r.take.toPlan.Safe := by
  refine ⟨(take_spec h).1, ?_⟩
  unfold take
  cases r.freeRegister with
  | some free => simp
  | none =>
      cases r.cleanRegister with
      | some clean => exact (evict_safe h clean).confined
      | none => exact (evict_safe h.advanceCursor r.cursorRegister).confined

theorem allocate_safe (h : r.Wf) {arm : Nat} {skipLoad : Bool} {p : Allocated}
    (hplan : r.allocate arm skipLoad = some p) :
    p.toPlan.Safe ∧ p.register ∈ scratchRegisters := by
  obtain ⟨hwf, harm, hmap⟩ := allocate_spec h hplan
  refine ⟨⟨hwf, ?_⟩, hwf.scratch _ _ hmap⟩
  obtain ⟨-, ⟨x, -, -, rfl⟩ | ⟨-, rfl⟩⟩ := allocate_cases hplan
  · simp
  · refine forall_mem_append (take_safe h).confined fun m hm => ?_
    split at hm
    · simp at hm
    · simp only [List.mem_singleton] at hm
      subst hm
      exact confined_loadMacro (take_spec h).2.2.1 _

theorem planDestination_safe (h : r.Wf) {rd : Nat} {x86Rn : Reg} {discarded : Bool} {d : Allocated}
    (hplan : r.planDestination rd x86Rn discarded = some d) :
    d.toPlan.Safe ∧ d.register ∈ workingRegisters ∧
      (discarded = false → ∃ hrd : rd < 32, d.allocator.armToX86 ⟨rd, hrd⟩ = some d.register) := by
  unfold planDestination at hplan
  cases discarded with
  | true =>
      cases hplan
      refine ⟨⟨h, fun m hm => ?_⟩, r11_working, fun hfalse => by cases hfalse⟩
      simp only [List.mem_singleton] at hm
      subst hm
      exact confined_destination rfl rfl r11_working
  | false =>
      simp only [Bool.false_eq_true, if_false, Option.map_eq_some_iff] at hplan
      obtain ⟨p, hp, rfl⟩ := hplan
      obtain ⟨hsafe, hmem⟩ := allocate_safe h hp
      obtain ⟨-, hrd, hmap⟩ := allocate_spec h hp
      refine ⟨⟨hsafe.wf, forall_mem_append hsafe.confined fun m hm => ?_⟩, scratch_working hmem,
        fun _ => ⟨hrd, hmap⟩⟩
      split at hm
      · simp only [List.mem_singleton] at hm
        subst hm
        exact confined_destination rfl rfl (scratch_working hmem)
      · simp at hm

theorem finishPlan_safe (h : r.Wf) {rd : Nat} {x86Rn : Reg} {setsFlags : Bool} (isSub : Bool)
    {d : Allocated} (hplan : r.planDestination rd x86Rn (setsFlags && rd == 31) = some d) {arithmetic : Macro}
    (harithmetic : arithmetic.Confined) : (finishPlan d setsFlags rd isSub arithmetic).Safe := by
  obtain ⟨hsafe, -, hmap⟩ := planDestination_safe h hplan
  constructor
  case wf =>
    simp only [finishPlan]
    split
    · exact hsafe.wf
    · next hkept =>
        obtain ⟨hrd, hmapped⟩ := hmap (by simpa using hkept)
        exact hsafe.wf.setDirty hmapped
  case confined =>
    refine forall_mem_append hsafe.confined fun m hm => ?_
    rcases List.mem_cons.mp hm with rfl | hm
    · exact harithmetic
    · split at hm
      · exact confined_setFlagsMacros isSub m hm
      · simp at hm

theorem planAddSubImm_safe (h : r.Wf) {setsFlags isSub : Bool} {rd rn : Nat} {value : BitVec 64}
    {p : Plan} (hplan : r.planAddSubImm setsFlags isSub rd rn value = some p) : p.Safe := by
  simp only [planAddSubImm, Option.bind_eq_bind, Option.bind_eq_some_iff, Option.some.injEq] at hplan
  obtain ⟨n, hn, d, hd, rfl⟩ := hplan
  obtain ⟨hsafe, -⟩ := allocate_safe h hn
  obtain ⟨-, hmem, -⟩ := planDestination_safe hsafe.wf hd
  have hfinish := finishPlan_safe hsafe.wf isSub hd
    (confined_destination (m := immediateMacro (if isSub then .subRegisterImmediate
      else .addRegisterImmediate) (some d.register) value) (by cases isSub <;> rfl) rfl hmem)
  exact ⟨hfinish.wf, forall_mem_append hsafe.confined hfinish.confined⟩

theorem planAddSubReg_safe (h : r.Wf) {setsFlags isSub : Bool} {rd rn rm : Nat} {p : Plan}
    (hplan : r.planAddSubReg setsFlags isSub rd rn rm = some p) : p.Safe := by
  simp only [planAddSubReg, Option.bind_eq_bind, Option.bind_eq_some_iff, Option.some.injEq] at hplan
  obtain ⟨n, hn, m, hm, d, hd, rfl⟩ := hplan
  obtain ⟨hsafe, -⟩ := allocate_safe h hn
  obtain ⟨hsafe', -⟩ := allocate_safe hsafe.wf hm
  obtain ⟨-, hmem, -⟩ := planDestination_safe hsafe'.wf hd
  have hfinish := finishPlan_safe hsafe'.wf isSub hd
    (confined_destination (m := registerMacro (if isSub then .subRegisterRegister
      else .addRegisterRegister) (some d.register) (some m.register)) (by cases isSub <;> rfl) rfl
      hmem)
  exact ⟨hfinish.wf,
    forall_mem_append (forall_mem_append hsafe.confined hsafe'.confined) hfinish.confined⟩

theorem confined_andMacros (rd : Nat) {d : Reg} (hd : d ∈ scratchRegisters) (n m : Reg) :
    ∀ k ∈ andMacros rd d n m, k.Confined := by
  have hworking := scratch_working hd
  refine forall_mem_append (fun k hk => ?_) fun k hk => ?_
  · split at hk
    · simp only [List.mem_singleton] at hk
      subst hk
      exact confined_destination rfl rfl hworking
    · split at hk
      · simp at hk
      · split at hk
        · simp only [List.mem_singleton] at hk
          subst hk
          exact confined_destination rfl rfl hworking
        · simp at hk
  · simp only [List.mem_singleton] at hk
    subst hk
    exact confined_destination rfl rfl hworking

theorem planAnd_safe (h : r.Wf) {rd rn rm : Nat} {p : Plan} (hplan : r.planAnd rd rn rm = some p) :
    p.Safe := by
  simp only [planAnd, Option.bind_eq_bind, Option.bind_eq_some_iff, Option.some.injEq] at hplan
  obtain ⟨n, hn, m, hm, d, hd, rfl⟩ := hplan
  obtain ⟨hsafe, -⟩ := allocate_safe h hn
  obtain ⟨hsafe', -⟩ := allocate_safe hsafe.wf hm
  obtain ⟨hsafe'', hmem⟩ := allocate_safe hsafe'.wf hd
  obtain ⟨-, hrd, hmap⟩ := allocate_spec hsafe'.wf hd
  exact ⟨hsafe''.wf.setDirty hmap,
    forall_mem_append (forall_mem_append (forall_mem_append hsafe.confined hsafe'.confined)
      hsafe''.confined) (confined_andMacros rd hmem _ _)⟩

theorem planUpdate_safe (h : r.Wf) {rd : Nat} {skipLoad : Bool} {macros : X86Register → List Macro}
    (hmacros : ∀ d ∈ scratchRegisters, ∀ m ∈ macros (some d), m.Confined) {p : Plan}
    (hplan : r.planUpdate rd skipLoad macros = some p) : p.Safe := by
  simp only [planUpdate, Option.map_eq_some_iff] at hplan
  obtain ⟨d, hd, rfl⟩ := hplan
  obtain ⟨hsafe, hmem⟩ := allocate_safe h hd
  obtain ⟨-, hrd, hmap⟩ := allocate_spec h hd
  exact ⟨hsafe.wf.setDirty hmap, forall_mem_append hsafe.confined (hmacros _ hmem)⟩

theorem planMovRegister_safe (h : r.Wf) {rd rm : Nat} {p : Plan}
    (hplan : r.planMovRegister rd rm = some p) : p.Safe := by
  simp only [planMovRegister, Option.bind_eq_bind, Option.bind_eq_some_iff, Option.some.injEq] at hplan
  obtain ⟨m, hm, d, hd, rfl⟩ := hplan
  obtain ⟨hsafe, -⟩ := allocate_safe h hm
  obtain ⟨hsafe', hmem⟩ := allocate_safe hsafe.wf hd
  obtain ⟨-, hrd, hmap⟩ := allocate_spec hsafe.wf hd
  refine ⟨hsafe'.wf.setDirty hmap,
    forall_mem_append (forall_mem_append hsafe.confined hsafe'.confined) fun k hk => ?_⟩
  simp only [List.mem_singleton] at hk
  subst hk
  exact confined_destination rfl rfl (scratch_working hmem)

end RegisterAllocator

theorem confined_movImmediateMacros (metadata : Metadata) (w : BitVec 32) {d : Reg}
    (hd : d ∈ scratchRegisters) :
    ∀ m ∈ (Compiler.movImmediateMacros metadata w).2 (some d), m.Confined := by
  have hworking := scratch_working hd
  intro m hm
  simp only [Compiler.movImmediateMacros] at hm
  split at hm
  · simp only [List.mem_singleton] at hm
    subst hm
    exact confined_destination rfl rfl hworking
  · split at hm
    · simp only [List.mem_singleton] at hm
      subst hm
      exact confined_destination rfl rfl hworking
    · simp only [List.mem_cons, List.not_mem_nil, or_false] at hm
      rcases hm with rfl | rfl <;> exact confined_destination rfl rfl hworking

/-- The stores at the end of a block are confined. -/
theorem confined_dirtyStores {r : RegisterAllocator} (h : r.Wf) :
    ∀ m ∈ Compiler.dirtyStores r, m.Confined := by
  intro m hm
  simp only [Compiler.dirtyStores, List.mem_filterMap, List.mem_finRange, true_and] at hm
  obtain ⟨arm, hstore⟩ := hm
  split at hstore
  · next hdirty =>
      obtain ⟨x, hx⟩ := h.dirty_mapped arm hdirty
      cases hstore
      rw [hx]
      have hlt := offsetX_lt arm
      exact confined_storeMacro x (by unfold offsetInstructionCount; omega)
  · cases hstore

end Ballistic
