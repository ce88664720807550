import Ballistic.Proof.Emitters
import Ballistic.Proof.Residency
import Ballistic.Proof.Scratch

/-!
# Room in the buffer

No macro is longer than sixteen bytes. An assembler with that much room for every macro in the window
and for every one that is still to come does not fail, so with enough room at the start a translator
carries out its plan.
-/

namespace Ballistic

open Machine Machine.X86

/-! ### The assembler -/

/-- Nothing has failed, and `n` more bytes stay below `limit`, which is within the buffer. -/
structure Assembler.Room (a : Assembler) (limit n : Nat) : Prop where
  status : a.status = .success
  fits : a.offset + n ≤ limit
  limit_le : limit ≤ a.capacity
  sizeable : a.capacity ≤ sizeMax

namespace Assembler.Room

variable {a : Assembler} {limit n k : Nat}

theorem mono (h : a.Room limit n) (hle : k ≤ n) : a.Room limit k :=
  ⟨h.status, (Nat.add_le_add_left hle _).trans h.fits, h.limit_le, h.sizeable⟩

theorem emit (h : a.Room limit (n + k)) {e : Encoding} (hsize : e.instructionSizeBytes ≤ k)
    (hbytes : e.bytes.length ≤ k) (poisons : Bool) : (a.emit poisons (some e)).Room limit n := by
  have hfits := h.fits
  have hlimit := h.limit_le
  have hsizeable := h.sizeable
  have hcan : a.canEmit e.instructionSizeBytes = true := by
    rw [a.canEmit_iff]
    omega
  have hwrite : a.emit poisons (some e) = a.write e.bytes := by
    rw [Assembler.emit, if_neg (not_not.mpr h.status)]
    exact if_pos hcan
  rw [hwrite]
  exact ⟨h.status, by simp only [write]; omega, h.limit_le, h.sizeable⟩

/-- A call whose operands are accepted takes at most sixteen bytes. -/
theorem call (h : a.Room limit (n + 16)) (call : EmitCall) {i : Instr} (hvalid : call.instr = some i) :
    (call.apply a).Room limit n := by
  obtain ⟨encoding, hencoding, -, hemit⟩ := call.apply_eq_emit
  rw [hvalid] at hencoding
  obtain ⟨e, rfl, hencodes⟩ := hencoding.encodes
  have hlength := hencoding.length_eq
  have hshort := hencodes.1
  rw [hemit]
  exact h.emit (by omega) (by omega) _

theorem emitPushR64 (h : a.Room limit (n + 16)) (r : Reg) : (a.emitPushR64 (some r)).Room limit n :=
  h.call (.pushR64 (some r)) rfl

theorem emitPopR64 (h : a.Room limit (n + 16)) (r : Reg) : (a.emitPopR64 (some r)).Room limit n :=
  h.call (.popR64 (some r)) rfl

theorem emitRet (h : a.Room limit (n + 16)) : a.emitRet.Room limit n := h.call .ret rfl

theorem emitMovR64R64 (h : a.Room limit (n + 16)) (d s : Reg) :
    (a.emitMovR64R64 (some d) (some s)).Room limit n := h.call (.movR64R64 (some d) (some s)) rfl

theorem emitStoreR64RbpOffset (h : a.Room limit (n + 16)) (r : Reg) (offset : BitVec 32) :
    (a.emitStoreR64RbpOffset (some r) offset).Room limit n := h.call (.storeR64RbpOffset (some r) offset) rfl

theorem emitMovR64Imm64 (h : a.Room limit (n + 16)) (r : Reg) (v : BitVec 64) :
    (a.emitMovR64Imm64 (some r) v).Room limit n := h.call (.movR64Imm64 (some r) v) rfl

theorem emitStorePc (h : a.Room limit (n + 32)) (pc : Address) : (a.emitStorePc pc).Room limit n := by
  have hmoved : (a.emitMovR64Imm64 (some .rax) pc).Room limit (n + 16) := h.emitMovR64Imm64 .rax pc
  exact hmoved.emitStoreR64RbpOffset .rax _

theorem emitPrologue (h : a.Room limit (n + 96)) : a.emitPrologue.Room limit n := by
  have h1 := emitPushR64 (n := n + 80) h .rbp
  have h2 := emitPushR64 (n := n + 64) h1 .r12
  have h3 := emitPushR64 (n := n + 48) h2 .r13
  have h4 := emitPushR64 (n := n + 32) h3 .r14
  have h5 := emitPushR64 (n := n + 16) h4 .r15
  exact h5.emitMovR64R64 .rbp .rdi

theorem emitEpilogue (h : a.Room limit (n + 96)) : a.emitEpilogue.Room limit n := by
  have h1 := emitPopR64 (n := n + 80) h .r15
  have h2 := emitPopR64 (n := n + 64) h1 .r14
  have h3 := emitPopR64 (n := n + 48) h2 .r13
  have h4 := emitPopR64 (n := n + 32) h3 .r12
  have h5 := emitPopR64 (n := n + 16) h4 .rbp
  exact h5.emitRet

theorem emitShortEpilogue (h : a.Room limit (n + 32)) : a.emitShortEpilogue.Room limit n := by
  have h1 := emitPopR64 (n := n + 16) h .rbp
  exact h1.emitRet

theorem registerForm {opcode : Byte} {d s : Reg} {poisons : Bool} (h : a.Room limit (n + 3)) :
    (a.emit poisons (Assembler.registerForm opcode (some d) (some s))).Room limit n :=
  h.emit le_rfl le_rfl _

/-- A constant takes at most ten bytes, which leaves six for an instruction that uses it. -/
theorem movImm {d : Reg} {v : BitVec 64} (h : a.Room limit (n + 10)) :
    (a.emitMovR64Imm64 (some d) v).Room limit n := by
  unfold Assembler.emitMovR64Imm64
  simp only [Option.map_some]
  split
  · refine h.emit ?_ ?_ _
    · dsimp only
      split <;> omega
    · dsimp only
      split <;> simp [bytes32]
  · exact h.emit le_rfl (by simp [bytes64]) _

end Assembler.Room

/-! ### Macros -/

/-- The macros that the translators push: their operands are registers, and they have a case in the
switch of `flush_single_macro`. -/
def Macro.isEmittable (m : Macro) : Bool :=
  match m.opcode with
  | .nop | .addCpuIcount | .setcc => true
  | .load | .addRegisterImmediate | .subRegisterImmediate | .movRegisterImmediate
  | .andRegisterImmediate | .orRegisterImmediate => m.destination.isSome
  | .store => m.source.isSome
  | .addRegisterRegister | .subRegisterRegister | .andRegisterRegister | .movRegisterRegister =>
      m.destination.isSome && m.source.isSome
  | _ => false

theorem Assembler.Room.flushSingleMacro {a : Assembler} {limit n : Nat} (h : a.Room limit (n + 16)) {m : Macro}
    (hm : m.isEmittable = true) : (flushSingleMacro a m).Room limit n := by
  obtain ⟨opcode, destination, source, immediate, condition⟩ := m
  rw [Ballistic.flushSingleMacro, if_neg (not_not.mpr h.status)]
  have hregister : ∀ {r : X86Register}, r.isSome = true → ∃ d, r = some d :=
    fun hr => Option.isSome_iff_exists.mp hr
  cases opcode with
  | nop => exact h.mono (by omega)
  | addCpuIcount => exact h.call (.addMem64RbpOffsetImm _ _) rfl
  | setcc => exact h.call (.setccMem8RbpOffset _ _) rfl
  | load =>
      obtain ⟨d, rfl⟩ := hregister hm
      exact h.call (.loadR64RbpOffset (some d) _) rfl
  | store =>
      obtain ⟨s, rfl⟩ := hregister hm
      exact h.call (.storeR64RbpOffset (some s) _) rfl
  | addRegisterImmediate =>
      obtain ⟨d, rfl⟩ := hregister hm
      exact h.call (.addR64Imm32 (some d) _) rfl
  | subRegisterImmediate =>
      obtain ⟨d, rfl⟩ := hregister hm
      exact h.call (.subR64Imm32 (some d) _) rfl
  | movRegisterImmediate =>
      obtain ⟨d, rfl⟩ := hregister hm
      exact h.call (.movR64Imm64 (some d) _) rfl
  | andRegisterImmediate | orRegisterImmediate =>
      obtain ⟨d, rfl⟩ := hregister hm
      have hconstant : (a.emitMovR64Imm64 assemblerTemporaryRegister immediate).Room limit (n + 3) :=
        (h.mono (by omega) : a.Room limit (n + 3 + 10)).movImm
      exact hconstant.registerForm
  | addRegisterRegister | subRegisterRegister | andRegisterRegister | movRegisterRegister =>
      simp only [Macro.isEmittable, Bool.and_eq_true] at hm
      obtain ⟨d, rfl⟩ := hregister hm.1
      obtain ⟨s, rfl⟩ := hregister hm.2
      exact (h.mono (by omega) : a.Room limit (n + 3)).registerForm
  | _ => exact absurd hm (by simp [Macro.isEmittable])

theorem Assembler.Room.flushMacros {a : Assembler} {limit n : Nat} {ms : List Macro}
    (hms : ∀ m ∈ ms, m.isEmittable = true) (h : a.Room limit (n + 16 * ms.length)) :
    (flushMacros a ms).Room limit n := by
  induction ms generalizing a with
  | nil => exact h
  | cons m ms ih =>
      refine ih (fun m' hm' => hms m' (List.mem_cons_of_mem _ hm')) ?_
      rw [List.length_cons, Nat.mul_add, ← Nat.add_assoc] at h
      exact h.flushSingleMacro (hms m List.mem_cons_self)

theorem isEmittable_runPeepholeOptimizer {before : List Macro} {m : Macro}
    (hbefore : ∀ m ∈ before, m.isEmittable = true) (hm : m.isEmittable = true) :
    ∀ m' ∈ runPeepholeOptimizer before m, m'.isEmittable = true := by
  have hlast : ∀ m' ∈ before ++ [m], m'.isEmittable = true := by
    simp only [List.mem_append, List.mem_singleton]
    rintro m' (hm' | rfl)
    · exact hbefore m' hm'
    · exact hm
  unfold runPeepholeOptimizer
  split
  · simp only [List.mem_append, List.mem_singleton]
    rintro m' (hm' | rfl)
    · exact hbefore m' hm'
    · rfl
  · split
    · exact hlast
    · split
      · simp only [List.mem_append, List.mem_cons, List.not_mem_nil, or_false]
        rintro m' (hm' | rfl | rfl)
        · exact hbefore m' (List.mem_of_mem_dropLast hm')
        · rfl
        · exact hm
      · exact hlast

/-! ### The compiler -/

namespace Compiler

/-- Nothing has failed, and there is room for the macros in the window and `n` more. -/
structure Room (c : Compiler) (limit n : Nat) : Prop where
  status : c.status = .success
  assembler : c.assembler.Room limit (16 * (c.window.macros.length + n))
  emittable : ∀ m ∈ c.window.macros, m.isEmittable = true

namespace Room

variable {c : Compiler} {limit n k : Nat}

theorem ok (h : c.Room limit n) : c.Ok := ⟨h.status, h.assembler.status⟩

theorem mono (h : c.Room limit n) (hle : k ≤ n) : c.Room limit k :=
  ⟨h.status, h.assembler.mono (by omega), h.emittable⟩

theorem push (h : c.Room limit (n + 1)) {m : Macro} (hm : m.isEmittable = true) : (c.push m).Room limit n := by
  unfold Compiler.push slidingWindowPush
  split
  · next hfull =>
      have hflushed : (Ballistic.flushMacros c.assembler c.window.macros).Room limit (16 * (n + 1)) :=
        Assembler.Room.flushMacros h.emittable (h.assembler.mono (by omega))
      have hempty : ∀ m ∈ ([] : List Macro), m.isEmittable = true := by simp
      simp only [hflushed.status, ne_eq, not_true_eq_false, if_false]
      refine ⟨h.status, ?_, isEmittable_runPeepholeOptimizer hempty hm⟩
      rw [runPeepholeOptimizer_length, List.length_nil, Nat.zero_add, Nat.add_comm 1]
      exact hflushed
  · simp only [h.assembler.status, ne_eq, not_true_eq_false, if_false]
    refine ⟨h.status, ?_, isEmittable_runPeepholeOptimizer h.emittable hm⟩
    rw [runPeepholeOptimizer_length]
    exact h.assembler.mono (by omega)

theorem pushAll {ms : List Macro} (hms : ∀ m ∈ ms, m.isEmittable = true)
    (h : c.Room limit (n + ms.length)) : (c.pushAll ms).Room limit n := by
  induction ms generalizing c with
  | nil => exact h
  | cons m ms ih =>
      exact ih (fun m' hm' => hms m' (List.mem_cons_of_mem _ hm'))
        (h.push (hms m List.mem_cons_self))

theorem withAllocator (h : c.Room limit n) (r : RegisterAllocator) :
    ({ c with allocator := r } : Compiler).Room limit n := ⟨h.status, h.assembler, h.emittable⟩

theorem flushAll (h : c.Room limit n) : c.flushAll.Room limit n where
  status := h.status
  assembler := by
    change (Ballistic.flushMacros c.assembler c.window.macros).Room limit (16 * (0 + n))
    exact Assembler.Room.flushMacros h.emittable (h.assembler.mono (by omega))
  emittable := by
    change ∀ m ∈ ([] : List Macro), _
    simp

/-- Direct emits, behind an empty window. -/
theorem onAssembler (h : c.Room limit (n + k)) (hempty : c.window.macros = []) {f : Assembler → Assembler}
    (hf : ∀ {a : Assembler} {m : Nat}, a.Room limit (m + 16 * k) → (f a).Room limit m) :
    (c.onAssembler f).Room limit n where
  status := h.status
  assembler := by
    refine hf ?_
    have hroom := h.assembler
    have hbehind : (c.onAssembler f).window.macros = [] := hempty
    rw [hempty] at hroom
    rw [hbehind]
    exact hroom.mono (by simp only [List.length_nil]; omega)
  emittable := h.emittable

end Room

end Compiler

/-! ### Plans -/

/-- A plan of at most `k` macros, all of which can be lowered. -/
structure Plan.Takes (p : Plan) (k : Nat) : Prop where
  length_le : p.macros.length ≤ k
  emittable : ∀ m ∈ p.macros, m.isEmittable = true

namespace Plan.Takes

variable {p q : Plan} {k l : Nat} {r : RegisterAllocator}

theorem mono (h : p.Takes k) (hle : k ≤ l) : p.Takes l := ⟨h.length_le.trans hle, h.emittable⟩

theorem nil : (Plan.mk r []).Takes 0 := ⟨le_rfl, by simp⟩

theorem cons {m : Macro} {ms : List Macro} (hm : m.isEmittable = true) (h : (Plan.mk r ms).Takes k) :
    (Plan.mk r (m :: ms)).Takes (k + 1) :=
  ⟨Nat.succ_le_succ h.length_le, List.forall_mem_cons.mpr ⟨hm, h.emittable⟩⟩

theorem append (h : p.Takes k) (h' : q.Takes l) (r : RegisterAllocator) :
    (Plan.mk r (p.macros ++ q.macros)).Takes (k + l) where
  length_le := by
    rw [List.length_append]
    exact Nat.add_le_add h.length_le h'.length_le
  emittable := List.forall_mem_append.mpr ⟨h.emittable, h'.emittable⟩

theorem withAllocator (h : p.Takes k) (r : RegisterAllocator) : (Plan.mk r p.macros).Takes k :=
  ⟨h.length_le, h.emittable⟩

end Plan.Takes

theorem Compiler.Room.apply {c : Compiler} {limit n k : Nat} (h : c.Room limit (n + k)) {p : Plan}
    (hp : p.Takes k) : (c.apply p).Room limit n := by
  have hlength := hp.length_le
  exact ((h.mono (by omega) : c.Room limit (n + p.macros.length)).pushAll hp.emittable).withAllocator _

namespace RegisterAllocator

variable {r : RegisterAllocator} {touched : Finset (Fin 32)}

theorem evict_takes (r : RegisterAllocator) (x : Reg) : (r.evict x).Takes 1 := by
  unfold evict
  split
  · exact Plan.Takes.nil.mono (by omega)
  · split
    · exact .cons rfl .nil
    · exact Plan.Takes.nil.mono (by omega)

theorem take_takes (r : RegisterAllocator) : r.take.toPlan.Takes 1 := by
  unfold take
  split
  · exact Plan.Takes.nil.mono (by omega)
  · split
    · exact evict_takes _ _
    · exact evict_takes _ _

theorem allocate_takes {arm : Nat} {skipLoad : Bool} {p : Allocated}
    (h : r.allocate arm skipLoad = some p) : p.toPlan.Takes 2 := by
  obtain ⟨-, ⟨x, -, -, rfl⟩ | ⟨-, rfl⟩⟩ := allocate_cases h
  · exact Plan.Takes.nil.mono (by omega)
  · have hload : (Plan.mk r (if skipLoad then []
        else [loadMacro (some r.take.register) (offsetX arm)])).Takes 1 := by
      split
      · exact Plan.Takes.nil.mono (by omega)
      · exact .cons rfl .nil
    exact (take_takes r).append hload _

theorem planDestination_takes {rd : Nat} {x86Rn : Reg} {discarded : Bool} {p : Allocated}
    (h : r.planDestination rd x86Rn discarded = some p) : p.toPlan.Takes 3 := by
  unfold planDestination at h
  split at h
  · cases h
    exact Plan.Takes.mono (.cons rfl .nil) (by omega)
  · obtain ⟨d, hd, rfl⟩ := Option.map_eq_some_iff.mp h
    have hmove : (Plan.mk r (if d.register ≠ x86Rn then
        [registerMacro .movRegisterRegister (some d.register) (some x86Rn)] else [])).Takes 1 := by
      split
      · exact .cons rfl .nil
      · exact Plan.Takes.nil.mono (by omega)
    exact (allocate_takes hd).append hmove _

theorem finishPlan_takes {d : Allocated} (hd : d.toPlan.Takes 3) (setsFlags : Bool) (rd : Nat)
    (isSub : Bool) {arithmetic : Macro} (harithmetic : arithmetic.isEmittable = true) :
    (finishPlan d setsFlags rd isSub arithmetic).Takes 8 := by
  have hflags : (Plan.mk d.allocator (if setsFlags then Compiler.setFlagsMacros isSub else [])).Takes 4 := by
    split
    · exact .cons rfl (.cons rfl (.cons rfl (.cons rfl .nil)))
    · exact Plan.Takes.nil.mono (by omega)
  exact hd.append (.cons harithmetic hflags) _

/-! ### Eight registers -/

/-- As many registers have a host register as there are host registers in use. -/
theorem card_le_mapped (h : r.Wf) {xs : Finset Reg} (hfull : ∀ x ∈ xs, r.x86ToArm x ≠ none) :
    xs.card ≤ r.mapped.card := by
  have hsome : ∀ x ∈ xs, ∃ a, r.x86ToArm x = some a := fun x hx =>
    Option.ne_none_iff_exists'.mp (hfull x hx)
  choose f hf using hsome
  rw [← Finset.card_attach]
  refine Finset.card_le_card_of_injOn (fun x => f x.1 x.2) ?_ ?_
  · intro x _
    exact mem_mapped.mpr ⟨_, (h.inverse _ _).mpr (hf x.1 x.2)⟩
  · intro x _ y _ hxy
    have hx := (h.inverse _ _).mpr (hf x.1 x.2)
    have hy := (h.inverse _ _).mpr (hf y.1 y.2)
    simp only at hxy
    rw [hxy, hy] at hx
    exact Subtype.ext (Option.some.inj hx).symm

/-- `R15` is the last scratch register that is handed out. -/
theorem freeRegister_ne_r15 (h : r.Wf) (hroom : r.mapped.card < 8) : r.freeRegister ≠ some .r15 := by
  intro hfree
  have hfull : ∀ x ∈ scratchRegisters.dropLast.toFinset, r.x86ToArm x ≠ none := by
    intro x hx hnone
    have hscratch : scratchRegisters = scratchRegisters.dropLast ++ [.r15] := by decide
    rw [freeRegister, hscratch, List.find?_append] at hfree
    cases hfind : scratchRegisters.dropLast.find? (fun x => r.x86ToArm x == none) with
    | none =>
        have hbusy := List.find?_eq_none.mp hfind x (List.mem_toFinset.mp hx)
        exact hbusy (by simp [hnone])
    | some y =>
        rw [hfind, Option.some_or, Option.some.injEq] at hfree
        have hmem := List.mem_of_find?_eq_some hfind
        rw [hfree] at hmem
        exact absurd hmem (by decide)
  have hcard : scratchRegisters.dropLast.toFinset.card = 8 := by decide
  have hle := card_le_mapped h hfull
  omega

/-- An allocator in which only registers of `touched` have host registers, and none has `R15`. -/
structure Low (r : RegisterAllocator) (touched : Finset (Fin 32)) : Prop where
  wf : r.Wf
  mapped_subset : r.mapped ⊆ touched
  ne_r15 : ∀ a, r.armToX86 a ≠ some .r15

theorem reset_low (touched : Finset (Fin 32)) : reset.Low touched where
  wf := reset_wf
  mapped_subset := by
    intro a ha
    obtain ⟨x, hx⟩ := mem_mapped.mp ha
    cases hx
  ne_r15 := by
    intro a ha
    cases ha

/-- With at most eight registers in play, every request is served. -/
theorem Low.allocate (h : r.Low touched) (hcard : touched.card ≤ 8) {a : Fin 32} (ha : a ∈ touched)
    (skipLoad : Bool) :
    ∃ p, r.allocate a skipLoad = some p ∧ p.allocator.Low touched ∧
      p.allocator.armToX86 a = some p.register := by
  obtain ⟨p, hplan, -⟩ := h.wf.allocate_serves a skipLoad (h.ne_r15 a)
  obtain ⟨hwf, harm, hregister⟩ := allocate_spec h.wf hplan
  obtain ⟨-, hsubset⟩ := allocate_keeps h.wf (hcard.trans (by omega)) h.mapped_subset ha hplan
  refine ⟨p, hplan, ⟨hwf, hsubset, ?_⟩, hregister⟩
  obtain ⟨_, ⟨x, -, -, rfl⟩ | ⟨hmiss, rfl⟩⟩ := allocate_cases hplan
  · exact h.ne_r15
  · simp only [Fin.eta] at hmiss
    have hroom : r.mapped.card < 8 := by
      have hsub : r.mapped ⊂ touched := by
        refine (Finset.ssubset_iff_of_subset h.mapped_subset).mpr ⟨a, ha, fun hmem => ?_⟩
        obtain ⟨x, hx⟩ := mem_mapped.mp hmem
        rw [hx] at hmiss
        cases hmiss
      have hlt := Finset.card_lt_card hsub
      omega
    obtain ⟨free, hfree⟩ := exists_freeRegister h.wf (hroom.trans (by omega))
    have hne := freeRegister_ne_r15 h.wf hroom
    intro b hb
    simp only [take, hfree, map] at hb
    by_cases hba : b = a
    · rw [hba, Function.update_self, Option.some.injEq] at hb
      exact hne (hb ▸ hfree)
    · rw [Function.update_of_ne hba] at hb
      exact h.ne_r15 b hb

theorem Low.setDirty (h : r.Low touched) {a : Fin 32} {x : Reg} (hx : r.armToX86 a = some x) :
    (r.setDirty a).Low touched :=
  ⟨h.wf.setDirty hx, h.mapped_subset, h.ne_r15⟩

theorem Low.planDestination (h : r.Low touched) (hcard : touched.card ≤ 8) {rd : Fin 32}
    {discarded : Bool} (hrd : discarded = false → rd ∈ touched) (x86Rn : Reg) :
    ∃ p, r.planDestination rd x86Rn discarded = some p ∧ p.allocator.Low touched ∧
      (discarded = false → p.allocator.armToX86 rd = some p.register) := by
  unfold RegisterAllocator.planDestination
  cases discarded with
  | true => exact ⟨_, rfl, h, nofun⟩
  | false =>
      obtain ⟨p, hplan, hlow, hregister⟩ := h.allocate hcard (hrd rfl) true
      simp only [hplan, Bool.false_eq_true, if_false, Option.map_some]
      exact ⟨_, rfl, hlow, fun _ => hregister⟩

theorem Low.finishPlan {d : Allocated} {rd : Fin 32} {setsFlags : Bool}
    (h : d.allocator.Low touched)
    (hd : (setsFlags && (rd : Nat) == 31) = false → d.allocator.armToX86 rd = some d.register)
    (isSub : Bool) (arithmetic : Macro) :
    (finishPlan d setsFlags rd isSub arithmetic).allocator.Low touched := by
  unfold RegisterAllocator.finishPlan
  split
  · exact h
  · next hkept => exact h.setDirty (hd (Bool.eq_false_iff.mpr hkept))

/-- An allocator that is consistent, with at most eight registers to be stored. -/
structure Settled (r : RegisterAllocator) : Prop where
  wf : r.Wf
  few : ((List.finRange 32).filter fun a : Fin 32 => r.dirty a).length ≤ 8

theorem Low.settled (h : r.Low touched) (hcard : touched.card ≤ 8) : r.Settled where
  wf := h.wf
  few := by
    have hnodup : ((List.finRange 32).filter fun a : Fin 32 => r.dirty a).Nodup :=
      (List.nodup_finRange 32).filter _
    have hsubset : ((List.finRange 32).filter fun a : Fin 32 => r.dirty a).toFinset ⊆ touched := by
      intro a ha
      rw [List.mem_toFinset, List.mem_filter] at ha
      exact h.mapped_subset (mem_mapped.mpr (h.wf.dirty_mapped a ha.2))
    rw [← List.toFinset_card_of_nodup hnodup]
    exact (Finset.card_le_card hsubset).trans hcard

/-- The ninth register is served as well, once: it may get `R15`. -/
theorem Low.allocate_once (h : r.Low touched) (hcard : touched.card ≤ 8) (a : Fin 32)
    (skipLoad : Bool) : ∃ p, r.allocate a skipLoad = some p ∧ p.allocator.Settled := by
  obtain ⟨p, hplan, -⟩ := h.wf.allocate_serves a skipLoad (h.ne_r15 a)
  have hsettled := h.settled hcard
  refine ⟨p, hplan, (allocate_spec h.wf hplan).1, ?_⟩
  obtain ⟨_, ⟨x, -, -, rfl⟩ | ⟨hmiss, rfl⟩⟩ := allocate_cases hplan
  · exact hsettled.few
  · have hroom : r.mapped.card < 9 := by
      have hle := (Finset.card_le_card h.mapped_subset).trans hcard
      omega
    obtain ⟨free, hfree⟩ := exists_freeRegister h.wf hroom
    simp only [take, hfree]
    exact hsettled.few

theorem Settled.dirtyStores (h : r.Settled) :
    (Plan.mk r (Compiler.dirtyStores r)).Takes 8 where
  length_le := by
    have hlength : (Compiler.dirtyStores r).length =
        ((List.finRange 32).filter fun a : Fin 32 => r.dirty a).length := by
      rw [Compiler.dirtyStores, List.length_filterMap_eq_countP, List.countP_eq_length_filter]
      congr 2
      funext a
      split <;> simp_all
    dsimp only
    rw [hlength]
    exact h.few
  emittable := by
    intro m hm
    obtain ⟨a, -, ha⟩ := List.mem_filterMap.mp hm
    split at ha
    · next hdirty =>
        obtain ⟨x, hx⟩ := h.wf.dirty_mapped a hdirty
        cases ha
        rw [hx]
        rfl
    · cases ha

end RegisterAllocator

/-! ### Block ends -/

namespace Compiler.Room

variable {c : Compiler} {limit n : Nat}

theorem flushDirtyRegisters (hsettled : c.allocator.Settled)
    (h : c.Room limit (n + 8)) : c.flushDirtyRegisters.Room limit n := by
  have htakes := hsettled.dirtyStores
  have hlength := htakes.length_le
  exact (h.mono (by dsimp only at hlength; omega)).pushAll htakes.emittable

/-- One arm of a block end: the stores of the dirty registers, and emits behind them. -/
theorem arm {k : Nat} (hsettled : c.allocator.Settled)
    (h : c.Room limit (n + k + 8)) {f : Assembler → Assembler}
    (hf : ∀ {a : Assembler} {m : Nat}, a.Room limit (m + 16 * k) → (f a).Room limit m) :
    (c.flushDirtyRegisters.flushAll.onAssembler f).Room limit n :=
  (flushDirtyRegisters hsettled h).flushAll.onAssembler rfl hf

theorem terminateBlock (hsettled : c.allocator.Settled)
    (h : c.Room limit (n + 17)) (pc : Address) (dynamic : Bool) (count : Nat) (flags : EngineFlags) :
    (c.terminateBlock pc dynamic count flags).Room limit n := by
  unfold Compiler.terminateBlock
  generalize hcounted : (if flags.has EngineFlags.instructionCounting = true then
    c.push (immediateMacro .addCpuIcount (some .rbp) (BitVec.ofNat 64 count)) else c) = c1
  have hroom1 : c1.Room limit (n + 16) ∧ c1.allocator = c.allocator := by
    rw [← hcounted]
    split
    · exact ⟨h.push rfl, rfl⟩
    · exact ⟨h.mono (by omega), rfl⟩
  obtain ⟨hroom1, hallocator⟩ := hroom1
  rw [← hallocator] at hsettled
  cases dynamic with
  | true =>
      simp only [if_true]
      exact arm hsettled (k := 6) (hroom1.mono (by omega)) fun ha => ha.emitEpilogue
  | false =>
      simp only [Bool.false_eq_true, if_false]
      refine arm hsettled (k := 8) (f := fun a => (a.emitStorePc pc).emitEpilogue) hroom1
        fun {a m} ha => ?_
      have hstored : (a.emitStorePc pc).Room limit (m + 96) :=
        Assembler.Room.emitStorePc (ha.mono (by omega)) _
      exact hstored.emitEpilogue

theorem terminateBlockConditional (hsettled : c.allocator.Settled)
    (h : c.Room limit (n + 29)) (condition : Condition) (fallthroughPc takenPc : Address) :
    (c.terminateBlockConditional condition fallthroughPc takenPc).Room limit n := by
  unfold Compiler.terminateBlockConditional
  dsimp only
  have hjump : (c.flushAll.onAssembler (·.emitJccRel32 condition
      (BitVec.ofNat 32 (epilogueSize c.flushAll.allocator fallthroughPc)))).Room limit (n + 28) :=
    h.flushAll.onAssembler (n := n + 28) (k := 1) rfl fun ha => ha.call (.jccRel32 condition _) rfl
  generalize hc1 : c.flushAll.onAssembler (·.emitJccRel32 condition
    (BitVec.ofNat 32 (epilogueSize c.flushAll.allocator fallthroughPc))) = c1 at hjump
  have hsettled1 : c1.allocator.Settled := by
    rw [← hc1, onAssembler_allocator, flushAll_allocator]
    exact hsettled
  have hfirst : (c1.flushDirtyRegisters.flushAll.onAssembler fun a =>
      (a.emitStorePc fallthroughPc).emitEpilogue).Room limit (n + 12) := by
    refine arm hsettled1 (k := 8) hjump fun {a m} ha => ?_
    have hstored : (a.emitStorePc fallthroughPc).Room limit (m + 96) :=
      Assembler.Room.emitStorePc (ha.mono (by omega)) _
    exact hstored.emitEpilogue
  have hsettled2 : (c1.flushDirtyRegisters.flushAll.onAssembler fun a =>
      (a.emitStorePc fallthroughPc).emitEpilogue).allocator.Settled := by
    rw [onAssembler_allocator, flushAll_allocator, flushDirtyRegisters_allocator]
    exact hsettled1
  refine arm hsettled2 (k := 4) hfirst fun {a m} ha => ?_
  have hstored : (a.emitStorePc takenPc).Room limit (m + 32) :=
    Assembler.Room.emitStorePc (ha.mono (by omega)) _
  exact hstored.emitShortEpilogue

end Compiler.Room

end Ballistic
