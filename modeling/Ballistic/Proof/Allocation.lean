import Ballistic.Machine.A64
import Ballistic.Machine.X86Frame
import Ballistic.Proof.Plan

/-!
# What the register allocator keeps

`RegisterAllocator.Wf` is the allocator's own invariant: the two maps are inverse to each other, only
scratch registers are handed out, and only mapped guest registers are dirty. `Holds` relates the host
to a guest state: a mapped guest register is in its host register, and the copy in the CPU record is
up to date unless the register is dirty. Evictions, loads and the choice of a victim change where a
guest register lives and never its value (`Holds.allocate`).
-/

namespace Ballistic

open Machine Machine.X86

namespace RegisterAllocator

/-! ### Dirty bits -/

theorem dirty_eq (r : RegisterAllocator) {a : Nat} (ha : a < 32) : r.dirty a = r.isDirty.getLsbD a := by
  unfold dirty
  rw [← BitVec.twoPow_eq, BitVec.and_twoPow]
  cases r.isDirty.getLsbD a with
  | false => simp
  | true =>
      have hne : BitVec.twoPow 32 a ≠ 0#32 := by
        intro hzero
        have hbit := congrArg (BitVec.getLsbD · a) hzero
        simp [ha] at hbit
      simpa using hne

theorem dirty_setDirty (r : RegisterAllocator) (a : Nat) {b : Nat} (hb : b < 32) :
    (r.setDirty a).dirty b = (r.dirty b || decide (b = a)) := by
  rw [dirty_eq _ hb, dirty_eq _ hb, setDirty, ← BitVec.twoPow_eq, BitVec.getLsbD_or,
    BitVec.getLsbD_twoPow]
  by_cases hab : a = b
  · simp [hab, hb]
  · simp [hab, Ne.symm hab]

theorem dirty_clearDirty (r : RegisterAllocator) (a : Nat) {b : Nat} (hb : b < 32) :
    (r.clearDirty a).dirty b = (r.dirty b && !decide (b = a)) := by
  rw [dirty_eq _ hb, dirty_eq _ hb, clearDirty, ← BitVec.twoPow_eq, BitVec.getLsbD_and,
    BitVec.getLsbD_not, BitVec.getLsbD_twoPow]
  by_cases hab : a = b
  · simp [hab, hb]
  · simp [hab, Ne.symm hab, hb]

/-! ### The invariant -/

structure Wf (r : RegisterAllocator) : Prop where
  inverse : ∀ a x, r.armToX86 a = some x ↔ r.x86ToArm x = some a
  scratch : ∀ a x, r.armToX86 a = some x → x ∈ scratchRegisters
  dirty_mapped : ∀ a : Fin 32, r.dirty a = true → ∃ x, r.armToX86 a = some x

/-- No two guest registers share a host register. -/
theorem Wf.injective {r : RegisterAllocator} (h : r.Wf) {a b : Fin 32} {x : Reg}
    (ha : r.armToX86 a = some x) (hb : r.armToX86 b = some x) : a = b :=
  Option.some.inj (((h.inverse _ _).mp ha).symm.trans ((h.inverse _ _).mp hb))

theorem reset_wf : reset.Wf where
  inverse := by simp [reset]
  scratch := by simp [reset]
  dirty_mapped := by
    intro a h
    rw [dirty_eq _ a.isLt] at h
    simp [reset] at h

theorem Wf.unmap {r : RegisterAllocator} (h : r.Wf) {a : Fin 32} {x : Reg}
    (hmap : r.armToX86 a = some x) (hclean : r.dirty a = false) : (r.unmap a x).Wf where
  inverse := by
    intro b y
    by_cases hb : b = a
    · subst hb
      by_cases hy : y = x
      · simp [RegisterAllocator.unmap, hy]
      · have hne : r.x86ToArm y ≠ some b := by
          intro hy'
          rw [← h.inverse, hmap] at hy'
          exact hy (Option.some.inj hy').symm
        simp [RegisterAllocator.unmap, Function.update_of_ne hy, hne]
    · by_cases hy : y = x
      · subst hy
        have hne : r.armToX86 b ≠ some y := fun hb' => hb (h.injective hb' hmap)
        simp [RegisterAllocator.unmap, Function.update_of_ne hb, hne]
      · simp [RegisterAllocator.unmap, Function.update_of_ne hb, Function.update_of_ne hy,
          h.inverse]
  scratch := by
    intro b y hby
    by_cases hb : b = a
    · simp [RegisterAllocator.unmap, hb] at hby
    · simp only [RegisterAllocator.unmap, Function.update_of_ne hb] at hby
      exact h.scratch b y hby
  dirty_mapped := by
    intro b hb
    have hne : b ≠ a := by
      rintro rfl
      exact absurd hb (by simpa [RegisterAllocator.unmap, dirty] using hclean)
    obtain ⟨y, hy⟩ := h.dirty_mapped b hb
    exact ⟨y, by simpa [RegisterAllocator.unmap, Function.update_of_ne hne] using hy⟩

theorem Wf.clearDirty {r : RegisterAllocator} (h : r.Wf) (a : Nat) : (r.clearDirty a).Wf where
  inverse := h.inverse
  scratch := h.scratch
  dirty_mapped := by
    intro b hb
    rw [dirty_clearDirty r a b.isLt, Bool.and_eq_true] at hb
    exact h.dirty_mapped b hb.1

theorem Wf.setDirty {r : RegisterAllocator} (h : r.Wf) {a : Fin 32} {x : Reg}
    (hmap : r.armToX86 a = some x) : (r.setDirty a).Wf where
  inverse := h.inverse
  scratch := h.scratch
  dirty_mapped := by
    intro b hb
    rw [dirty_setDirty r a b.isLt, Bool.or_eq_true, decide_eq_true_eq] at hb
    rcases hb with hb | hb
    · exact h.dirty_mapped b hb
    · have hba : b = a := Fin.ext hb
      exact ⟨x, hba ▸ hmap⟩

theorem Wf.map {r : RegisterAllocator} (h : r.Wf) {a : Fin 32} {x : Reg}
    (hunmapped : r.armToX86 a = none) (hfree : r.x86ToArm x = none) (hx : x ∈ scratchRegisters) :
    (r.map a x).Wf where
  inverse := by
    intro b y
    by_cases hb : b = a
    · subst hb
      by_cases hy : y = x
      · simp [RegisterAllocator.map, hy]
      · have hne : r.x86ToArm y ≠ some b := by
          rw [ne_eq, ← h.inverse, hunmapped]
          simp
        simp [RegisterAllocator.map, Function.update_of_ne hy, hne, Ne.symm hy]
    · by_cases hy : y = x
      · subst hy
        have hne : r.armToX86 b ≠ some y := by
          rw [ne_eq, h.inverse, hfree]
          simp
        simp [RegisterAllocator.map, Function.update_of_ne hb, hne, Ne.symm hb]
      · simp [RegisterAllocator.map, Function.update_of_ne hb, Function.update_of_ne hy, h.inverse]
  scratch := by
    intro b y hby
    by_cases hb : b = a
    · simp only [RegisterAllocator.map, hb, Function.update_self, Option.some.injEq] at hby
      exact hby ▸ hx
    · simp only [RegisterAllocator.map, Function.update_of_ne hb] at hby
      exact h.scratch b y hby
  dirty_mapped := by
    intro b hb
    obtain ⟨y, hy⟩ := h.dirty_mapped b hb
    have hne : b ≠ a := by
      rintro rfl
      rw [hunmapped] at hy
      cases hy
    exact ⟨y, by simpa [RegisterAllocator.map, Function.update_of_ne hne] using hy⟩

/-! ### The victim -/

theorem freeRegister_spec {r : RegisterAllocator} {x : Reg} (h : r.freeRegister = some x) :
    x ∈ scratchRegisters ∧ r.x86ToArm x = none := by
  unfold freeRegister at h
  exact ⟨List.mem_of_find?_eq_some h, by simpa using List.find?_some h⟩

/-- The host register holds a guest register that is not dirty. -/
def holdsClean (r : RegisterAllocator) (x : Reg) : Bool :=
  (r.x86ToArm x).any fun a : Fin 32 => !r.dirty a

theorem holdsClean_iff {r : RegisterAllocator} {x : Reg} :
    r.holdsClean x = true ↔ ∃ a, r.x86ToArm x = some a ∧ r.dirty a = false := by
  unfold holdsClean
  cases r.x86ToArm x <;> simp

/-- The search for a clean register ends at the last candidate that holds one. -/
theorem cleanRegister_eq_find (r : RegisterAllocator) :
    r.cleanRegister = cleanCandidates.reverse.find? r.holdsClean := by
  have hfold : ∀ (xs : List Reg) (free : Option Reg),
      xs.foldl (fun free x =>
          (r.x86ToArm x).elim free fun armVictim => if r.dirty armVictim then free else some x) free =
        (xs.reverse.find? r.holdsClean).or free := by
    intro xs
    induction xs with
    | nil => exact fun free => rfl
    | cons x xs ih =>
        intro free
        rw [List.foldl_cons, ih, List.reverse_cons, List.find?_append, Option.or_assoc]
        congr 1
        rw [List.find?_cons, holdsClean]
        cases r.x86ToArm x with
        | none => rfl
        | some a =>
            simp only [Option.any_some, Option.elim_some]
            cases r.dirty a <;> rfl
  have hstep : r.cleanRegister = cleanCandidates.foldl (fun free x =>
      (r.x86ToArm x).elim free fun armVictim => if r.dirty armVictim then free else some x) none := by
    rw [cleanRegister]
    congr 1
    funext free x
    cases r.x86ToArm x <;> rfl
  rw [hstep, hfold, Option.or_none]

theorem cleanRegister_spec {r : RegisterAllocator} {x : Reg} (h : r.cleanRegister = some x) :
    ∃ a, r.x86ToArm x = some a ∧ r.dirty a = false := by
  rw [cleanRegister_eq_find] at h
  exact holdsClean_iff.mp (List.find?_some h)

theorem cleanRegister_mem {r : RegisterAllocator} {x : Reg} (h : r.cleanRegister = some x) :
    x ∈ cleanCandidates := by
  rw [cleanRegister_eq_find] at h
  exact List.mem_reverse.mp (List.mem_of_find?_eq_some h)

theorem cursorRegister_mem (r : RegisterAllocator) : r.cursorRegister ∈ scratchRegisters := by
  unfold cursorRegister
  rw [List.getD_eq_getElem?_getD, List.getElem?_eq_getElem (Nat.mod_lt _ (by decide))]
  exact List.getElem_mem _

theorem evict_spec {r : RegisterAllocator} (h : r.Wf) (x : Reg) :
    (r.evict x).allocator.Wf ∧ (r.evict x).allocator.x86ToArm x = none ∧
      (∀ a, r.armToX86 a = none → (r.evict x).allocator.armToX86 a = none) := by
  unfold evict
  cases hx : r.x86ToArm x with
  | none => exact ⟨h, hx, fun a ha => ha⟩
  | some v =>
      have hmap : r.armToX86 v = some x := (h.inverse v x).mpr hx
      have hkeep : ∀ a, r.armToX86 a = none → Function.update r.armToX86 v none a = none := by
        intro a ha
        by_cases hav : a = v
        · simp [hav]
        · rw [Function.update_of_ne hav]
          exact ha
      by_cases hdirty : r.dirty v = true
      · simp only [hdirty, if_true]
        refine ⟨(h.clearDirty v).unmap hmap ?_, by simp [unmap], hkeep⟩
        rw [dirty_clearDirty r v v.isLt]
        simp
      · simp only [hdirty]
        exact ⟨h.unmap hmap (by simpa using hdirty), by simp [unmap], hkeep⟩

theorem Wf.advanceCursor {r : RegisterAllocator} (h : r.Wf) : r.advanceCursor.Wf :=
  ⟨h.inverse, h.scratch, h.dirty_mapped⟩

theorem take_spec {r : RegisterAllocator} (h : r.Wf) :
    r.take.allocator.Wf ∧ r.take.allocator.x86ToArm r.take.register = none ∧
      r.take.register ∈ scratchRegisters ∧
      ∀ a, r.armToX86 a = none → r.take.allocator.armToX86 a = none := by
  unfold take
  cases hfree : r.freeRegister with
  | some x =>
      obtain ⟨hmem, hx⟩ := freeRegister_spec hfree
      exact ⟨h, hx, hmem, fun a ha => ha⟩
  | none =>
      cases hclean : r.cleanRegister with
      | some x =>
          obtain ⟨a, hx, -⟩ := cleanRegister_spec hclean
          obtain ⟨hwf, hnone, hkeep⟩ := evict_spec h x
          exact ⟨hwf, hnone, h.scratch a x ((h.inverse a x).mpr hx), hkeep⟩
      | none =>
          obtain ⟨hwf, hnone, hkeep⟩ := evict_spec h.advanceCursor r.cursorRegister
          exact ⟨hwf, hnone, cursorRegister_mem r, hkeep⟩

/-- **What an allocation does**: it hands out the register that the guest register has, unless that is
`R15`, or it takes one and loads it. -/
theorem allocate_cases {r : RegisterAllocator} {arm : Nat} {skipLoad : Bool} {p : Allocated}
    (hplan : r.allocate arm skipLoad = some p) :
    ∃ harm : arm < 32,
      (∃ x, r.armToX86 ⟨arm, harm⟩ = some x ∧ x.number < Reg.number .r15 ∧ p = ⟨⟨r, []⟩, x⟩) ∨
      (r.armToX86 ⟨arm, harm⟩ = none ∧
        p = ⟨⟨r.take.allocator.map ⟨arm, harm⟩ r.take.register,
          r.take.macros ++
            if skipLoad then [] else [loadMacro (some r.take.register) (offsetX arm)]⟩,
          r.take.register⟩) := by
  unfold allocate at hplan
  split at hplan
  · next harm =>
      refine ⟨harm, ?_⟩
      split at hplan
      · next cached hcached =>
          split at hplan
          · cases hplan
          · next hlow =>
              split at hplan
              · cases hplan
              · cases hplan
                exact .inl ⟨cached, hcached, Nat.lt_of_not_le hlow, rfl⟩
      · next hmiss =>
          cases hplan
          exact .inr ⟨hmiss, rfl⟩
  · cases hplan

/-- The invariant is kept, and the register asked for is mapped to the one handed out. -/
theorem allocate_spec {r : RegisterAllocator} (h : r.Wf) {arm : Nat} {skipLoad : Bool}
    {p : Allocated} (hplan : r.allocate arm skipLoad = some p) :
    p.allocator.Wf ∧ ∃ harm : arm < 32, p.allocator.armToX86 ⟨arm, harm⟩ = some p.register := by
  obtain ⟨harm, ⟨x, hcached, -, rfl⟩ | ⟨hmiss, rfl⟩⟩ := allocate_cases hplan
  · exact ⟨h, harm, hcached⟩
  · obtain ⟨hwf, hnone, hmem, hkeep⟩ := take_spec h
    exact ⟨hwf.map (hkeep _ hmiss) hnone hmem, harm, by simp [map]⟩

end RegisterAllocator

/-! ### Host and guest -/

/-- The host state `s` holds the guest state `g`, up to the program counter, for every register that
is not in `stale`. -/
structure Holds (base : Address) (r : RegisterAllocator) (s : State) (g : A64.State)
    (stale : Set (Fin 32)) : Prop where
  rbp : s.regs .rbp = base
  mapped : ∀ a ∉ stale, ∀ x, r.armToX86 a = some x → s.regs x = g.x a
  memory : ∀ a : Fin 32, a ∉ stale → r.dirty a = false →
    s.memory.read64 (above base (offsetX a)) = g.x a
  flagN : s.memory (above base offsetFlagN) = g.flagN
  flagZ : s.memory (above base offsetFlagZ) = g.flagZ
  flagC : s.memory (above base offsetFlagC) = g.flagC
  flagV : s.memory (above base offsetFlagV) = g.flagV

/-- The instruction of a load from the CPU record. -/
theorem instrs_loadMacro (x : Reg) (offset : Nat) :
    (loadMacro (some x) offset).instrs = [.load x ((BitVec.ofNat 64 offset).setWidth 32)] := rfl

theorem instrs_storeMacro (x : Reg) (offset : Nat) :
    (storeMacro (some x) offset).instrs = [.store x ((BitVec.ofNat 64 offset).setWidth 32)] := rfl

theorem frameAddress_offset (s : State) {offset : Nat} (h : offset < 2 ^ 31) :
    s.frameAddress ((BitVec.ofNat 64 offset).setWidth 32) = above (s.regs .rbp) offset := by
  have htoNat : ((BitVec.ofNat 64 offset).setWidth 32).toNat = offset := by
    simp only [BitVec.toNat_setWidth, BitVec.toNat_ofNat]
    omega
  rw [State.frameAddress_eq s (by omega), htoNat]

theorem offsetX_lt (a : Fin 32) : offsetX a + 8 ≤ 256 := by
  unfold offsetX
  omega

namespace Holds

variable {base : Address} {r : RegisterAllocator} {s t : State} {g : A64.State}
  {stale : Set (Fin 32)}

theorem store (h : Holds base r s g stale) {a : Fin 32} (ha : a ∉ stale) {x : Reg}
    (hmap : r.armToX86 a = some x) :
    Holds base (r.clearDirty a) ((Instr.store x ((BitVec.ofNat 64 (offsetX a)).setWidth 32)).exec s)
      g stale := by
  have hlt := offsetX_lt a
  have haddress : s.frameAddress ((BitVec.ofNat 64 (offsetX a)).setWidth 32) =
      above base (offsetX a) := by
    rw [frameAddress_offset s (by omega), h.rbp]
  have hflag : ∀ o, 256 ≤ o → o < 2 ^ 31 →
      (s.memory.write64 (above base (offsetX a)) (s.regs x)) (above base o) =
        s.memory (above base o) :=
    fun o ho ho' => Memory.write64_above_apply _ _ _ (by omega) ho' (.inl (by omega))
  constructor
  case rbp => exact h.rbp
  case mapped => exact h.mapped
  case memory =>
    intro b hb hclean
    rw [RegisterAllocator.dirty_clearDirty r a b.isLt] at hclean
    simp only [Instr.exec, haddress]
    by_cases hab : b = a
    · subst hab
      rw [Memory.read64_write64_self]
      exact h.mapped b hb x hmap
    · have hne : (b : Nat) ≠ a := fun hval => hab (Fin.ext hval)
      simp only [hne, decide_false, Bool.not_false, Bool.and_true] at hclean
      rw [Memory.read64_write64_above _ _ _ (by omega) (by have := offsetX_lt b; omega)
        (by unfold offsetX; omega)]
      exact h.memory b hb hclean
  all_goals simp only [Instr.exec, haddress]
  case flagN => rw [hflag _ (by decide) (by decide), h.flagN]
  case flagZ => rw [hflag _ (by decide) (by decide), h.flagZ]
  case flagC => rw [hflag _ (by decide) (by decide), h.flagC]
  case flagV => rw [hflag _ (by decide) (by decide), h.flagV]

theorem congr_allocator {r' : RegisterAllocator} (h : Holds base r s g stale)
    (hmap : ∀ a ∉ stale, ∀ x, r'.armToX86 a = some x → r.armToX86 a = some x)
    (hdirty : ∀ a : Fin 32, a ∉ stale → r'.dirty a = false → r.dirty a = false) :
    Holds base r' s g stale :=
  { h with
    mapped := fun a ha x hx => h.mapped a ha x (hmap a ha x hx)
    memory := fun a ha hclean => h.memory a ha (hdirty a ha hclean) }

theorem evict (hwf : r.Wf) (h : Holds base r s g ∅) (x : Reg) :
    Holds base (r.evict x).allocator (execAll s (instrsOf (r.evict x).macros)) g ∅ ∧
      (execAll s (instrsOf (r.evict x).macros)).regs = s.regs := by
  unfold RegisterAllocator.evict
  cases hx : r.x86ToArm x with
  | none => exact ⟨h, rfl⟩
  | some v =>
      have hmap : r.armToX86 v = some x := (hwf.inverse v x).mpr hx
      have hunmap : ∀ a : Fin 32, a ∉ (∅ : Set (Fin 32)) → ∀ y,
          Function.update r.armToX86 v none a = some y → r.armToX86 a = some y := by
        intro a _ y hy
        by_cases hav : a = v
        · simp [hav] at hy
        · rwa [Function.update_of_ne hav] at hy
      by_cases hdirty : r.dirty v = true
      · simp only [hdirty, if_true, instrsOf_cons, instrsOf_nil, List.append_nil, instrs_storeMacro,
          execAll_cons, execAll_nil]
        exact ⟨(h.store (by simp) hmap).congr_allocator hunmap fun a _ hclean => hclean, rfl⟩
      · simp only [hdirty]
        exact ⟨h.congr_allocator hunmap fun a _ hclean => hclean, rfl⟩

theorem take (hwf : r.Wf) (h : Holds base r s g ∅) :
    Holds base r.take.allocator (execAll s (instrsOf r.take.macros)) g ∅ ∧
      (execAll s (instrsOf r.take.macros)).regs = s.regs := by
  unfold RegisterAllocator.take
  cases r.freeRegister with
  | some x => exact ⟨h, rfl⟩
  | none =>
      cases r.cleanRegister with
      | some x => exact h.evict hwf x
      | none =>
          have h' : Holds base r.advanceCursor s g ∅ :=
            h.congr_allocator (fun _ _ _ hx => hx) fun _ _ hclean => hclean
          exact h'.evict hwf.advanceCursor r.cursorRegister

theorem weaken {stale' : Set (Fin 32)} (h : Holds base r s g stale) (hsub : stale ⊆ stale') :
    Holds base r s g stale' :=
  { h with
    mapped := fun a ha => h.mapped a fun hmem => ha (hsub hmem)
    memory := fun a ha => h.memory a fun hmem => ha (hsub hmem) }

/-- Mapping a register whose host register is free, without loading it. -/
theorem map (h : Holds base r s g ∅) (a : Fin 32) (x : Reg) : Holds base (r.map a x) s g {a} := by
  refine (h.weaken (Set.empty_subset {a})).congr_allocator (fun b hb y hy => ?_)
    fun _ _ hclean => hclean
  simp only [Set.mem_singleton_iff] at hb
  simpa only [RegisterAllocator.map, Function.update_of_ne hb] using hy

theorem load (h : Holds base r s g ∅) (hclean : ∀ a : Fin 32, r.armToX86 a = none → r.dirty a = false)
    {a : Fin 32} (hunmapped : r.armToX86 a = none) {x : Reg} (hfree : ∀ b, r.armToX86 b ≠ some x)
    (hx : x ≠ .rbp) :
    Holds base (r.map a x) ((Instr.load x ((BitVec.ofNat 64 (offsetX a)).setWidth 32)).exec s)
      g ∅ := by
  have hlt := offsetX_lt a
  have haddress : s.frameAddress ((BitVec.ofNat 64 (offsetX a)).setWidth 32) =
      above base (offsetX a) := by
    rw [frameAddress_offset s (by omega), h.rbp]
  constructor
  case rbp =>
    simp only [Instr.exec, State.set]
    rw [Function.update_of_ne (Ne.symm hx), h.rbp]
  case mapped =>
    intro b _ y hy
    simp only [Instr.exec, State.set, haddress]
    by_cases hb : b = a
    · subst hb
      simp only [RegisterAllocator.map, Function.update_self, Option.some.injEq] at hy
      subst hy
      rw [Function.update_self]
      exact h.memory b (by simp) (hclean b hunmapped)
    · simp only [RegisterAllocator.map, Function.update_of_ne hb] at hy
      have hyx : y ≠ x := fun he => hfree b (he ▸ hy)
      rw [Function.update_of_ne hyx]
      exact h.mapped b (by simp) y hy
  case memory => exact fun b hb hdirty => h.memory b hb hdirty
  case flagN => exact h.flagN
  case flagZ => exact h.flagZ
  case flagC => exact h.flagC
  case flagV => exact h.flagV

/-- **Allocation keeps the guest.** Whatever is evicted or loaded, every guest register has the value
it had; only a register that is about to be overwritten may be stale. -/
theorem allocate (hwf : r.Wf) (h : Holds base r s g ∅) {a : Fin 32} {skipLoad : Bool}
    {p : Allocated} (hplan : r.allocate a skipLoad = some p) :
    Holds base p.allocator (execAll s (instrsOf p.macros)) g (if skipLoad then {a} else ∅) ∧
      (skipLoad = true → (execAll s (instrsOf p.macros)).regs = s.regs) ∧
      ∀ y ≠ p.register, (execAll s (instrsOf p.macros)).regs y = s.regs y := by
  obtain ⟨_, ⟨x, -, -, rfl⟩ | ⟨hmiss, rfl⟩⟩ := RegisterAllocator.allocate_cases hplan
  · exact ⟨h.weaken (by simp), fun _ => rfl, fun _ _ => rfl⟩
  · simp only [Fin.eta] at hmiss ⊢
    obtain ⟨hwf', hnone, hmem, hkeep⟩ := RegisterAllocator.take_spec hwf
    obtain ⟨htake, hregs⟩ := h.take hwf
    cases skipLoad with
    | true =>
        simp only [if_true, List.append_nil]
        exact ⟨htake.map a _, fun _ => hregs, fun y _ => by rw [hregs]⟩
    | false =>
        simp only [Bool.false_eq_true, if_false, instrsOf_append, instrsOf_cons, instrsOf_nil,
          List.append_nil, instrs_loadMacro, execAll_append, execAll_cons, execAll_nil]
        refine ⟨htake.load ?_ (hkeep a hmiss) ?_ ?_, fun hfalse => hfalse.elim, fun y hy => ?_⟩
        · intro b hb
          by_contra hdirty
          obtain ⟨x, hx⟩ := hwf'.dirty_mapped b (by simpa using hdirty)
          rw [hb] at hx
          cases hx
        · intro b hb
          rw [hwf'.inverse, hnone] at hb
          cases hb
        · rintro hrbp
          rw [hrbp] at hmem
          exact absurd hmem (by decide)
        · simp only [Instr.exec, State.set]
          rw [Function.update_of_ne hy, hregs]

/-- Overwriting the host register of a stale guest register. Besides it only registers outside the
scratch set may have changed. -/
theorem overwrite (hwf : r.Wf) {a : Fin 32} {x : Reg} (hmap : r.armToX86 a = some x)
    (h : Holds base r s g {a}) (hrbp : t.regs .rbp = s.regs .rbp)
    (hother : ∀ y ∈ scratchRegisters, y ≠ x → t.regs y = s.regs y) (hmemory : t.memory = s.memory) :
    Holds base r t g {a} := by
  constructor
  case rbp => rw [hrbp, h.rbp]
  case mapped =>
    intro b hb y hy
    have hyx : y ≠ x := by
      rintro rfl
      exact hb (hwf.injective hy hmap)
    rw [hother y (hwf.scratch b y hy) hyx]
    exact h.mapped b hb y hy
  case memory =>
    intro b hb hclean
    rw [hmemory]
    exact h.memory b hb hclean
  case flagN => rw [hmemory]; exact h.flagN
  case flagZ => rw [hmemory]; exact h.flagZ
  case flagC => rw [hmemory]; exact h.flagC
  case flagV => rw [hmemory]; exact h.flagV

/-- Marking a stale register dirty makes its host register the guest's value. -/
theorem settle {a : Fin 32} {x : Reg} (hmap : r.armToX86 a = some x) (h : Holds base r s g {a}) :
    Holds base (r.setDirty a) s (g.setX a (s.regs x)) ∅ := by
  constructor
  case rbp => exact h.rbp
  case mapped =>
    intro b _ y hy
    by_cases hb : b = a
    · subst hb
      obtain rfl : x = y := Option.some.inj (hmap.symm.trans hy)
      simp
    · rw [A64.State.setX_of_ne g _ hb]
      exact h.mapped b (by simpa using hb) y hy
  case memory =>
    intro b _ hclean
    rw [RegisterAllocator.dirty_setDirty r a b.isLt, Bool.or_eq_false_iff,
      decide_eq_false_iff_not] at hclean
    have hb : b ≠ a := fun hba => hclean.2 (by rw [hba])
    rw [A64.State.setX_of_ne g _ hb]
    exact h.memory b (by simpa using hb) hclean.1
  case flagN => exact h.flagN
  case flagZ => exact h.flagZ
  case flagC => exact h.flagC
  case flagV => exact h.flagV

/-- Registers outside the scratch set carry nothing of the guest. -/
theorem congr_state (hwf : r.Wf) (h : Holds base r s g stale) (hrbp : t.regs .rbp = s.regs .rbp)
    (hregs : ∀ y ∈ scratchRegisters, t.regs y = s.regs y) (hmemory : t.memory = s.memory) :
    Holds base r t g stale where
  rbp := by rw [hrbp, h.rbp]
  mapped := fun a ha x hx => by rw [hregs x (hwf.scratch a x hx), h.mapped a ha x hx]
  memory := fun a ha hclean => by rw [hmemory, h.memory a ha hclean]
  flagN := by rw [hmemory, h.flagN]
  flagZ := by rw [hmemory, h.flagZ]
  flagC := by rw [hmemory, h.flagC]
  flagV := by rw [hmemory, h.flagV]

end Holds

end Ballistic
