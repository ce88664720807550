import Ballistic.Proof.Values

/-!
# What the code of an instruction reads

For an instruction on two registers the allocator is asked three times, and a later answer may be the
host register of an earlier one. The code then finds the value of another guest register in an operand:
`firstSource` and `secondSource` say of which. An addition or subtraction adds the values of these two
(`Holds.planAddSubReg_sources`), a conjunction the value of the first one and its own second operand
(`Holds.planAnd_sources`).
-/

namespace Ballistic

open Machine Machine.X86

/-! ### Sources -/

/-- The guest register whose value is in the host register of the first operand, once the second one
has been loaded. -/
def firstSource (rn rm : A64.Register) (n m : Allocated) : A64.Register :=
  if m.register = n.register then rm else rn

/-- The guest register whose value is in the host register of the second operand, once the first one
has been copied to the destination. -/
def secondSource (rn rm : A64.Register) (n m d : Allocated) : A64.Register :=
  if d.register = m.register then firstSource rn rm n m else rm

/-- A first operand that has kept its host register is read from its own register. -/
theorem firstSource_of_mapped {rn rm : A64.Register} {n m : Allocated} (hwf : m.allocator.Wf)
    (hn : m.allocator.armToX86 rn = some n.register) (hm : m.allocator.armToX86 rm = some m.register) :
    firstSource rn rm n m = rn := by
  unfold firstSource
  split
  · next hsame => exact hwf.injective hm (hsame ▸ hn)
  · rfl

/-- Where the destination of an addition or subtraction is. -/
theorem RegisterAllocator.planDestination_spec {r : RegisterAllocator} (hwf : r.Wf) {rd : Fin 32}
    {x86Rn : Reg} {discarded : Bool} {d : Allocated}
    (hplan : r.planDestination rd x86Rn discarded = some d) :
    d.allocator.Wf ∧ if discarded then d.register = .r11
      else d.allocator.armToX86 rd = some d.register := by
  unfold RegisterAllocator.planDestination at hplan
  cases discarded with
  | true =>
      cases hplan
      exact ⟨hwf, rfl⟩
  | false =>
      obtain ⟨p, hp, rfl⟩ := Option.map_eq_some_iff.mp hplan
      obtain ⟨hwf', _, hmap⟩ := RegisterAllocator.allocate_spec hwf hp
      exact ⟨hwf', hmap⟩

/-- If the second operand has kept its host register, too, it is lost just where it is the destination. -/
theorem secondSource_of_mapped {r : RegisterAllocator} (hwf : r.Wf) {rd rn rm : A64.Register}
    {discarded : Bool} {n m d : Allocated} (hd : r.planDestination rd n.register discarded = some d)
    (hm : d.allocator.armToX86 rm = some m.register) (hfirst : firstSource rn rm n m = rn) :
    secondSource rn rm n m d = if discarded = false ∧ rd = rm then rn else rm := by
  obtain ⟨hwfd, hcase⟩ := RegisterAllocator.planDestination_spec hwf hd
  unfold secondSource
  rw [hfirst]
  congr 1
  apply propext
  cases discarded with
  | true =>
      rw [if_pos rfl] at hcase
      have hne : d.register ≠ m.register := fun hsame =>
        absurd (hwfd.scratch _ _ hm) (by rw [← hsame, hcase]; decide)
      simp [hne]
  | false =>
      simp only [Bool.false_eq_true, if_false] at hcase
      simp only [true_and]
      constructor
      · exact fun hsame => hwfd.injective hcase (hsame ▸ hm)
      · rintro rfl
        exact Option.some.inj (hcase.symm.trans hm)

section Sources

variable {base : Address} {r : RegisterAllocator} {s : State} {g : A64.State} {rd rn rm : A64.Register}
  {n m d : Allocated}

theorem Holds.loadBoth (hwf : r.Wf) (h : Holds base r s g ∅) (hn : r.allocate rn false = some n)
    (hm : n.allocator.allocate rm false = some m) :
    m.allocator.Wf ∧
      Holds base m.allocator (execAll (execAll s (instrsOf n.macros)) (instrsOf m.macros)) g ∅ ∧
      (execAll (execAll s (instrsOf n.macros)) (instrsOf m.macros)).regs n.register =
        g.x (firstSource rn rm n m) ∧
      (execAll (execAll s (instrsOf n.macros)) (instrsOf m.macros)).regs m.register = g.x rm := by
  obtain ⟨hwfn, _, hnmap⟩ := RegisterAllocator.allocate_spec hwf hn
  obtain ⟨hwfm, _, hmmap⟩ := RegisterAllocator.allocate_spec hwfn hm
  have hheldn := (h.allocate hwf hn).1
  simp only [Bool.false_eq_true, if_false] at hheldn
  obtain ⟨hheldm, -, hother⟩ := hheldn.allocate hwfn hm
  simp only [Bool.false_eq_true, if_false] at hheldm
  have hsecond := hheldm.mapped rm (by simp) _ hmmap
  refine ⟨hwfm, hheldm, ?_, hsecond⟩
  unfold firstSource
  split
  · next hsame => rw [← hsame, hsecond]
  · next hne => rw [hother _ (Ne.symm hne), hheldn.mapped rn (by simp) _ hnmap]

/-- What the second operand holds when the arithmetic instruction reads it. -/
theorem Holds.secondOperand (hwf : r.Wf) (h : Holds base r s g ∅) (hn : r.allocate rn false = some n)
    (hm : n.allocator.allocate rm false = some m) {discarded : Bool}
    (hd : m.allocator.planDestination rd n.register discarded = some d) :
    (execAll (execAll (execAll s (instrsOf n.macros)) (instrsOf m.macros))
      (instrsOf d.macros)).regs m.register = g.x (secondSource rn rm n m d) := by
  obtain ⟨hwfm, hheld, hfirst, hsecond⟩ := h.loadBoth hwf hn hm
  obtain ⟨hcopied, hother, -, -, -⟩ := hheld.planDestination hwfm hd
  unfold secondSource
  split
  · next hsame => rw [← hsame, hcopied, hfirst]
  · next hne => rw [hother _ (Ne.symm hne), hsecond]

/-! ### Plans -/

/-- **An addition or subtraction of registers** adds the values that its operands' host registers come
to hold. -/
theorem Holds.planAddSubReg_sources (hwf : r.Wf) (h : Holds base r s g ∅) {setsFlags isSub : Bool}
    {p : Plan} (hplan : r.planAddSubReg setsFlags isSub rd rn rm = some p) :
    ∃ n m d, r.allocate rn false = some n ∧ n.allocator.allocate rm false = some m ∧
      m.allocator.planDestination rd n.register (setsFlags && (rd : Nat) == 31) = some d ∧
      p.allocator.Wf ∧ Holds base p.allocator (execAll s (instrsOf p.macros))
        (g.writeSum setsFlags rd
          (A64.addSub isSub (g.x (firstSource rn rm n m)) (g.x (secondSource rn rm n m d)))) ∅ := by
  simp only [RegisterAllocator.planAddSubReg, Option.bind_eq_bind, Option.bind_eq_some_iff,
    Option.some.injEq] at hplan
  obtain ⟨n, hn, m, hm, d, hd, rfl⟩ := hplan
  obtain ⟨hwfm, hheld, hfirst, -⟩ := h.loadBoth hwf hn hm
  have hfinish := hheld.finishPlan hwfm hd (isArithmetic_register isSub d.register m.register)
    (h.secondOperand hwf hn hm hd)
  rw [hfirst] at hfinish
  simp only [instrsOf_append, execAll_append]
  exact ⟨n, m, d, hn, hm, hd, hfinish⟩

/-- **A conjunction of registers.** Its code takes the operand that is not the destination, so only the
first operand can have been lost. -/
theorem Holds.planAnd_sources (hwf : r.Wf) (h : Holds base r s g ∅) {p : Plan}
    (hplan : r.planAnd rd rn rm = some p) :
    ∃ n m d, r.allocate rn false = some n ∧ n.allocator.allocate rm false = some m ∧
      m.allocator.allocate rd true = some d ∧
      p.allocator.Wf ∧ Holds base p.allocator (execAll s (instrsOf p.macros))
        (g.setX rd (if rd = 31 then 0 else g.x (firstSource rn rm n m) &&& g.x rm)) ∅ := by
  simp only [RegisterAllocator.planAnd, Option.bind_eq_bind, Option.bind_eq_some_iff,
    Option.some.injEq] at hplan
  obtain ⟨n, hn, m, hm, d, hd, rfl⟩ := hplan
  obtain ⟨hwfm, hheld, hfirst, hsecond⟩ := h.loadBoth hwf hn hm
  obtain ⟨hwfd, _, hdmap⟩ := RegisterAllocator.allocate_spec hwfm hd
  obtain ⟨hstale, hregs, -⟩ := hheld.allocate hwfm hd
  have hfinish := hstale.finishAnd hwfd hdmap (n := n.register) (m := m.register)
  rw [hregs rfl, hfirst, hsecond] at hfinish
  simp only [instrsOf_append, execAll_append]
  refine ⟨n, m, d, hn, hm, hd, hwfd.setDirty hdmap, ?_⟩
  have hzero : ((rd : Nat) = 31) = (rd = 31) := by
    rw [Fin.ext_iff]
    rfl
  simpa only [hzero] using hfinish

end Sources

end Ballistic
