import Ballistic.Proof.Allocation

/-!
# The host registers as the allocator scans them

Which host register the allocator takes depends on no guest register: its scans only see which host
registers are free, which hold a clean guest register and which a dirty one, and the eviction cursor.
A `HostFile` is that view, and taking a register is a step of it (`HostFile.give`). So the state before
an instruction fixes the registers that the next requests take (`victim`), and where the guest registers
asked for one after another come to be (`turn`).
-/

namespace Ballistic

open Machine Machine.X86

/-! ### Host files -/

inductive HostStatus where
  | free | clean | dirty
  deriving DecidableEq, Repr

structure HostFile where
  status : Reg → HostStatus
  evictionCursor : BitVec 8

namespace HostFile

/-- The first free register, else the last clean candidate. -/
def scanned (file : HostFile) : Option Reg :=
  (scratchRegisters.find? fun x => file.status x == .free).or
    (RegisterAllocator.cleanCandidates.reverse.find? fun x => file.status x == .clean)

/-- The register that is taken next. -/
def victim (file : HostFile) : Reg :=
  file.scanned.getD
    (scratchRegisters.getD (file.evictionCursor.toNat % scratchRegisters.length) .rax)

/-- The next register is taken, and is clean then. -/
def give (file : HostFile) : HostFile :=
  { status := Function.update file.status file.victim .clean
    evictionCursor :=
      if file.scanned.isSome then file.evictionCursor else file.evictionCursor + 1 }

end HostFile

namespace RegisterAllocator

variable {r : RegisterAllocator}

/-! ### The view of an allocator -/

def status (r : RegisterAllocator) (x : Reg) : HostStatus :=
  match r.x86ToArm x with
  | none => .free
  | some arm => if r.dirty arm then .dirty else .clean

def hostFile (r : RegisterAllocator) : HostFile :=
  { status := r.status, evictionCursor := r.evictionCursor }

theorem scanned_hostFile (r : RegisterAllocator) :
    r.hostFile.scanned = r.freeRegister.or r.cleanRegister := by
  have hfree : (fun x => r.hostFile.status x == .free) = fun x => r.x86ToArm x == none := by
    funext x
    simp only [hostFile, status]
    cases r.x86ToArm x with
    | none => rfl
    | some arm => by_cases hdirty : r.dirty arm = true <;> simp [hdirty]
  have hclean : (fun x => r.hostFile.status x == .clean) = r.holdsClean := by
    funext x
    simp only [hostFile, status, holdsClean]
    cases r.x86ToArm x with
    | none => rfl
    | some arm => by_cases hdirty : r.dirty arm = true <;> simp [hdirty]
  rw [HostFile.scanned, hfree, hclean, cleanRegister_eq_find, freeRegister]

theorem take_register (r : RegisterAllocator) : r.take.register = r.hostFile.victim := by
  rw [HostFile.victim, scanned_hostFile]
  unfold take
  cases r.freeRegister with
  | some x => rfl
  | none =>
      cases r.cleanRegister with
      | some x => rfl
      | none => rfl

theorem unmap_status (r : RegisterAllocator) (arm : Fin 32) (x : Reg) :
    (r.unmap arm x).status = Function.update r.status x .free := by
  funext y
  by_cases hy : y = x
  · subst hy
    simp [status, unmap]
  · simp only [status, unmap, Function.update_of_ne hy]
    rfl

theorem map_status (r : RegisterAllocator) {arm : Fin 32} (x : Reg) (hclean : r.dirty arm = false) :
    (r.map arm x).status = Function.update r.status x .clean := by
  funext y
  by_cases hy : y = x
  · subst hy
    have hmap : (r.map arm y).x86ToArm y = some arm := by simp [map]
    have hkeep : (r.map arm y).dirty arm = false := hclean
    rw [Function.update_self, status, hmap]
    simp [hkeep]
  · simp only [status, map, Function.update_of_ne hy]
    rfl

/-- A register that is not dirty any more looks different only where it is. -/
theorem clearDirty_status (h : r.Wf) {arm : Fin 32} {x y : Reg} (hx : r.x86ToArm x = some arm)
    (hy : y ≠ x) : (r.clearDirty arm).status y = r.status y := by
  have hkeep : (r.clearDirty arm).x86ToArm y = r.x86ToArm y := rfl
  simp only [status, hkeep]
  cases ha : r.x86ToArm y with
  | none => rfl
  | some a =>
      have hne : (a : Nat) ≠ arm := by
        intro hsame
        rw [Fin.ext hsame, ← h.inverse, (h.inverse _ _).mpr hx] at ha
        exact hy (Option.some.inj ha).symm
      simp [dirty_clearDirty r arm a.isLt, hne]

/-- An eviction frees its register, and changes the view of no other one. -/
theorem evict_status (h : r.Wf) (x : Reg) :
    (r.evict x).allocator.status = Function.update r.status x .free := by
  unfold evict
  cases hx : r.x86ToArm x with
  | none =>
      have hfree : r.status x = .free := by simp [status, hx]
      rw [← hfree, Function.update_eq_self]
  | some victim =>
      by_cases hdirty : r.dirty victim = true
      · simp only [hdirty, if_true, unmap_status]
        funext y
        by_cases hy : y = x
        · subst hy
          simp
        · rw [Function.update_of_ne hy, Function.update_of_ne hy, clearDirty_status h hx hy]
      · simp only [hdirty, Bool.false_eq_true, if_false, unmap_status]

theorem evict_cursor (r : RegisterAllocator) (x : Reg) :
    (r.evict x).allocator.evictionCursor = r.evictionCursor := by
  unfold evict
  cases r.x86ToArm x with
  | none => rfl
  | some victim =>
      simp only
      split <;> rfl

/-- Taking a register and mapping an unmapped guest register to it is a step of the host file. -/
theorem take_hostFile (h : r.Wf) {arm : Fin 32} (hmiss : r.armToX86 arm = none) :
    (r.take.allocator.map arm r.take.register).hostFile = r.hostFile.give := by
  have hclean : r.take.allocator.dirty arm = false := by
    obtain ⟨hwf, -, -, hkeep⟩ := take_spec h
    by_contra hdirty
    obtain ⟨x, hx⟩ := hwf.dirty_mapped arm (by simpa using hdirty)
    cases (hkeep arm hmiss).symm.trans hx
  have hstatus : (r.take.allocator.map arm r.take.register).status =
      Function.update r.status r.take.register .clean := by
    rw [map_status _ _ hclean]
    unfold take
    cases hfree : r.freeRegister with
    | some x => rfl
    | none =>
        cases r.cleanRegister with
        | some x => simp only [evict_status h, Function.update_idem]
        | none =>
            simp only [evict_status h.advanceCursor, Function.update_idem]
            rfl
  have hcursor : (r.take.allocator.map arm r.take.register).evictionCursor =
      r.hostFile.give.evictionCursor := by
    simp only [HostFile.give, scanned_hostFile]
    unfold take
    cases r.freeRegister with
    | some x => rfl
    | none =>
        cases r.cleanRegister with
        | some x => exact evict_cursor r x
        | none => exact evict_cursor r.advanceCursor r.cursorRegister
  calc (r.take.allocator.map arm r.take.register).hostFile
      = ⟨Function.update r.status r.take.register .clean, r.hostFile.give.evictionCursor⟩ :=
        congrArg₂ HostFile.mk hstatus hcursor
    _ = r.hostFile.give := by
        rw [take_register]
        rfl

theorem filter_ne_eq_self {o : Option Reg} {x : Reg} (hne : o ≠ some x) :
    (o.filter fun y => y ≠ x) = o := by
  cases o with
  | none => rfl
  | some y =>
      have hyx : y ≠ x := fun hsame => hne (congrArg some hsame)
      simp [Option.filter_some, hyx]

theorem Wf.ne_of_free (h : r.Wf) {x : Reg} (hfree : r.x86ToArm x = none) (a : Fin 32) :
    r.armToX86 a ≠ some x :=
  fun hmap => absurd (hfree.symm.trans ((h.inverse _ _).mp hmap)) nofun

theorem evict_mapped (h : r.Wf) (x : Reg) (a : Fin 32) :
    (r.evict x).allocator.armToX86 a = (r.armToX86 a).filter fun y => y ≠ x := by
  unfold evict
  cases hx : r.x86ToArm x with
  | none => exact (filter_ne_eq_self (h.ne_of_free hx a)).symm
  | some victim =>
      have hmap : r.armToX86 victim = some x := (h.inverse _ _).mpr hx
      have hkeep : Function.update r.armToX86 victim none a = (r.armToX86 a).filter fun y => y ≠ x := by
        by_cases ha : a = victim
        · subst ha
          simp [hmap, Option.filter_some]
        · rw [Function.update_of_ne ha, filter_ne_eq_self]
          exact fun ha' => ha (h.injective ha' hmap)
      simp only
      split <;> exact hkeep

/-- The guest register that had the taken register has none any more. -/
theorem take_mapped (h : r.Wf) (a : Fin 32) :
    r.take.allocator.armToX86 a = (r.armToX86 a).filter fun y => y ≠ r.take.register := by
  unfold take
  cases hfree : r.freeRegister with
  | some x => exact (filter_ne_eq_self (h.ne_of_free (freeRegister_spec hfree).2 a)).symm
  | none =>
      cases r.cleanRegister with
      | some x => exact evict_mapped h x a
      | none => exact evict_mapped h.advanceCursor r.cursorRegister a

/-! ### Requests in turn -/

/-- The register that the request after `taken` others takes, of those that have to take one. -/
def victim (r : RegisterAllocator) (taken : Nat) : Reg := (HostFile.give^[taken] r.hostFile).victim

/-- The host register that `arm` has left once `taken` registers have been taken for others. -/
def hostAfter (r : RegisterAllocator) (taken : Nat) (arm : Fin 32) : Option Reg :=
  (r.armToX86 arm).filter fun x => (List.range taken).all fun i => x ≠ r.victim i

/-- Where `arm` comes to be when it is asked for after `taken` registers have been taken for others, and
how many have been taken then. -/
def turn (r : RegisterAllocator) (taken : Nat) (arm : Fin 32) : Reg × Nat :=
  match r.hostAfter taken arm with
  | some x => (x, taken)
  | none => (r.victim taken, taken + 1)

/-- `r'` is `r` after requests for the registers of `asked`, for which `taken` registers were taken. -/
structure After (r : RegisterAllocator) (taken : Nat) (asked : List (Fin 32)) (r' : RegisterAllocator) :
    Prop where
  wf : r'.Wf
  hostFile : r'.hostFile = HostFile.give^[taken] r.hostFile
  host : ∀ a ∉ asked, r'.armToX86 a = r.hostAfter taken a

theorem Wf.after (h : r.Wf) : r.After 0 [] r where
  wf := h
  hostFile := rfl
  host := by
    intro a _
    unfold hostAfter
    cases r.armToX86 a <;> rfl

theorem After.mono {taken : Nat} {asked asked' : List (Fin 32)} {r' : RegisterAllocator}
    (h : r.After taken asked r') (hsub : asked ⊆ asked') : r.After taken asked' r' :=
  { h with host := fun a ha => h.host a (mt (@hsub a) ha) }

theorem hostAfter_succ (r : RegisterAllocator) (taken : Nat) (a : Fin 32) :
    r.hostAfter (taken + 1) a = (r.hostAfter taken a).filter fun x => x ≠ r.victim taken := by
  simp [hostAfter, List.range_succ, Option.filter_filter]

/-- **A request in turn** hands out what the state before all of them says. -/
theorem After.allocate {taken : Nat} {asked : List (Fin 32)} {r' : RegisterAllocator}
    (h : r.After taken asked r') {arm : Fin 32} (hnew : arm ∉ asked) {skipLoad : Bool} {p : Allocated}
    (hplan : r'.allocate arm skipLoad = some p) :
    p.register = (r.turn taken arm).1 ∧
      r.After (r.turn taken arm).2 (arm :: asked) p.allocator := by
  have hwf := (allocate_spec h.wf hplan).1
  have hhost := h.host arm hnew
  have hother : ∀ {a}, a ∉ arm :: asked → a ≠ arm ∧ a ∉ asked := fun ha =>
    ⟨fun hsame => ha (hsame ▸ List.mem_cons_self ..), fun hmem => ha (List.mem_cons_of_mem _ hmem)⟩
  obtain ⟨_, ⟨y, hcached, -, rfl⟩ | ⟨hmiss, rfl⟩⟩ := allocate_cases hplan
  · simp only [Fin.eta] at hcached
    rw [hcached] at hhost
    simp only [turn, ← hhost]
    exact ⟨trivial, h.wf, h.hostFile, fun a ha => h.host a (hother ha).2⟩
  · simp only [Fin.eta] at hmiss hwf ⊢
    rw [hmiss] at hhost
    have hvictim : r'.take.register = r.victim taken := by
      rw [take_register, h.hostFile, victim]
    simp only [turn, ← hhost]
    refine ⟨hvictim, hwf, ?_, fun a ha => ?_⟩
    · rw [take_hostFile h.wf hmiss, h.hostFile, Function.iterate_succ_apply']
    · have hkeep : (r'.take.allocator.map arm r'.take.register).armToX86 a =
          r'.take.allocator.armToX86 a := Function.update_of_ne (hother ha).1 ..
      rw [hkeep, take_mapped h.wf, hvictim, h.host a (hother ha).2, hostAfter_succ]

end RegisterAllocator

end Ballistic
