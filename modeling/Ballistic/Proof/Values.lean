import Ballistic.Proof.Allocation

/-!
# What the translated instructions compute

The plans of the translators, executed, do to the guest what the A64 instruction does. The host
computes with two-operand instructions, so each plan copies its first operand into the destination
and then changes it; the flags of the last arithmetic instruction are stored one by one.
-/

namespace Ballistic

open Machine Machine.X86

/-! ### Flags of the two machines -/

/-- The four flags as A64 has them after an addition or subtraction on the host. -/
def hostNzcv (isSub : Bool) (f : Flags) : A64.Nzcv :=
  { n := f.sf, z := f.zf, c := if isSub then !f.cf else f.cf, v := f.of }

theorem addSub_add (x y : BitVec 64) :
    A64.addSub false x y = (x + y, hostNzcv false (addFlags x y)) := A64.addSub_false x y

theorem addSub_sub (x y : BitVec 64) :
    A64.addSub true x y = (x - y, hostNzcv true (subFlags x y)) := by
  rw [A64.addSub_true (by decide)]
  simp only [hostNzcv, subFlags, resultFlags, if_true, ← decide_not, Nat.not_lt]

/-- The arithmetic of a host instruction. -/
def hostResult (isSub : Bool) (x y : BitVec 64) : BitVec 64 := if isSub then x - y else x + y

def hostFlags (isSub : Bool) (x y : BitVec 64) : Flags :=
  if isSub then subFlags x y else addFlags x y

theorem addSub_eq_host (isSub : Bool) (x y : BitVec 64) :
    A64.addSub isSub x y = (hostResult isSub x y, hostNzcv isSub (hostFlags isSub x y)) := by
  cases isSub with
  | false => exact addSub_add x y
  | true => exact addSub_sub x y

theorem exec_setcc (s : State) (condition : Condition) {offset : Nat} (ho : offset < 2 ^ 31) :
    (Instr.setcc condition ((BitVec.ofNat 64 offset).setWidth 32)).exec s =
      { s with memory :=
          s.memory.write8 (above (s.regs .rbp) offset) (setccByte (s.flags.holds condition)) } := by
  simp only [Instr.exec, frameAddress_offset s ho]

/-- The CPU record with the flag bytes set, in the order the code stores them. -/
def storeFlags (m : Memory) (base : Address) (f : A64.Nzcv) : Memory :=
  let m := m.write8 (above base offsetFlagN) (setccByte f.n)
  let m := m.write8 (above base offsetFlagZ) (setccByte f.z)
  let m := m.write8 (above base offsetFlagV) (setccByte f.v)
  m.write8 (above base offsetFlagC) (setccByte f.c)

theorem execAll_setFlags {base : Address} {s : State} (hrbp : s.regs .rbp = base) (isSub : Bool) :
    execAll s (instrsOf (Compiler.setFlagsMacros isSub)) =
      { s with memory := storeFlags s.memory base (hostNzcv isSub s.flags) } := by
  have hinstrs : instrsOf (Compiler.setFlagsMacros isSub) =
      [.setcc .s ((BitVec.ofNat 64 offsetFlagN).setWidth 32),
        .setcc .e ((BitVec.ofNat 64 offsetFlagZ).setWidth 32),
        .setcc .o ((BitVec.ofNat 64 offsetFlagV).setWidth 32),
        .setcc (if isSub then .ae else .b) ((BitVec.ofNat 64 offsetFlagC).setWidth 32)] := rfl
  subst hrbp
  simp only [hinstrs, execAll_cons, execAll_nil]
  rw [exec_setcc _ _ (by decide), exec_setcc _ _ (by decide), exec_setcc _ _ (by decide),
    exec_setcc _ _ (by decide)]
  cases isSub <;> rfl

/-- Storing the flags changes the flags of the guest and nothing else. -/
theorem Holds.setFlags {base : Address} {r : RegisterAllocator} {s : State} {g : A64.State}
    {stale : Set (Fin 32)} (h : Holds base r s g stale) (isSub : Bool) :
    Holds base r (execAll s (instrsOf (Compiler.setFlagsMacros isSub)))
      (g.setNzcv (hostNzcv isSub s.flags)) stale := by
  rw [execAll_setFlags h.rbp]
  have hother : ∀ (m : Memory) (v : Byte) {o p : Nat}, o < 2 ^ 31 → p < 2 ^ 31 → o ≠ p →
      m.write8 (above base o) v (above base p) = m (above base p) :=
    fun m v _ _ ho hp hne => Memory.write8_above_apply m base v ho hp hne
  constructor
  case rbp => exact h.rbp
  case mapped => exact h.mapped
  case memory =>
    intro a ha hclean
    have hlt := offsetX_lt a
    have hread : ∀ (m : Memory) (v : Byte) {o : Nat}, 256 ≤ o → o < 2 ^ 31 →
        (m.write8 (above base o) v).read64 (above base (offsetX a)) =
          m.read64 (above base (offsetX a)) :=
      fun m v _ ho ho' => Memory.read64_write8_above m base v ho' (by omega) (.inr (by omega))
    simp (disch := decide) only [storeFlags, hread]
    exact h.memory a ha hclean
  case flagN =>
    simp (disch := decide) only [storeFlags, hother, Memory.write8_self]
    rfl
  case flagZ =>
    simp (disch := decide) only [storeFlags, hother, Memory.write8_self]
    rfl
  case flagV =>
    simp (disch := decide) only [storeFlags, hother, Memory.write8_self]
    rfl
  case flagC =>
    simp only [storeFlags, Memory.write8_self]
    rfl

/-! ### Additions and subtractions -/

section AddSub

variable {base : Address} {r : RegisterAllocator} {s : State} {g : A64.State}

/-- The host instruction at the core of an addition or subtraction: it adds a value `y`, found in a
register or in the instruction, to the register `d`. -/
structure IsArithmetic (isSub : Bool) (arithmetic : Macro) (d : Reg) (y : State → BitVec 64) :
    Prop where
  exec : ∀ s, execAll s arithmetic.instrs =
    { s.set d (hostResult isSub (s.regs d) (y s)) with
      flags := hostFlags isSub (s.regs d) (y s) }

theorem isArithmetic_extended (isSub : Bool) (d : Reg) (value : BitVec 64) :
    IsArithmetic isSub
      (immediateMacro (if isSub then .subRegisterImmediate else .addRegisterImmediate) (some d)
        value) d fun _ => (value.setWidth 32).signExtend 64 := by
  constructor
  intro s
  cases isSub with
  | false => rfl
  | true => rfl

theorem isArithmetic_immediate (isSub : Bool) (d : Reg) {value : BitVec 64}
    (hvalue : value.toNat < 2 ^ 31) :
    IsArithmetic isSub
      (immediateMacro (if isSub then .subRegisterImmediate else .addRegisterImmediate) (some d)
        value) d fun _ => value := by
  have hextend : (value.setWidth 32).signExtend 64 = value := by
    have hmsb : (value.setWidth 32).msb = false := by
      rw [BitVec.msb_eq_decide, decide_eq_false_iff_not, BitVec.toNat_setWidth]
      omega
    rw [BitVec.signExtend_eq_setWidth_of_msb_false hmsb]
    apply BitVec.eq_of_toNat_eq
    simp only [BitVec.toNat_setWidth]
    omega
  have harithmetic := isArithmetic_extended isSub d value
  rwa [hextend] at harithmetic

theorem isArithmetic_register (isSub : Bool) (d m : Reg) :
    IsArithmetic isSub
      (registerMacro (if isSub then .subRegisterRegister else .addRegisterRegister) (some d)
        (some m)) d fun s => s.regs m := by
  constructor
  intro s
  cases isSub with
  | false => rfl
  | true => rfl

theorem not_scratch_r11 {y : Reg} (hy : y ∈ scratchRegisters) : y ≠ .r11 := by
  rintro rfl
  exact absurd hy (by decide)

theorem not_scratch_rbp {y : Reg} (hy : y ∈ scratchRegisters) : y ≠ .rbp := by
  rintro rfl
  exact absurd hy (by decide)

/-- The destination is prepared: it holds the first operand, and no other register has changed. -/
theorem Holds.planDestination (hwf : r.Wf) (h : Holds base r s g ∅) {rd : Fin 32} {x86Rn : Reg}
    {discarded : Bool} {d : Allocated} (hplan : r.planDestination rd x86Rn discarded = some d) :
    (execAll s (instrsOf d.macros)).regs d.register = s.regs x86Rn ∧
      (∀ z ≠ d.register, (execAll s (instrsOf d.macros)).regs z = s.regs z) ∧
      d.allocator.Wf ∧
      Holds base d.allocator (execAll s (instrsOf d.macros)) g {rd} ∧
      (if discarded then d.register = .r11 ∧ Holds base d.allocator (execAll s (instrsOf d.macros)) g ∅
        else d.allocator.armToX86 rd = some d.register) := by
  unfold RegisterAllocator.planDestination at hplan
  cases discarded with
  | true =>
      cases hplan
      have hmov : execAll s (instrsOf [registerMacro .movRegisterRegister (some .r11)
          (some x86Rn)]) = s.set .r11 (s.regs x86Rn) := rfl
      have hholds : Holds base r (s.set .r11 (s.regs x86Rn)) g ∅ :=
        h.congr_state hwf (s.set_of_ne _ (by decide))
          (fun y hy => s.set_of_ne _ (not_scratch_r11 hy)) rfl
      simp only [hmov]
      exact ⟨s.set_self .., fun z hz => s.set_of_ne _ hz, hwf, hholds.weaken (Set.empty_subset _),
        trivial, hholds⟩
  | false =>
      simp only [Bool.false_eq_true, if_false, Option.map_eq_some_iff] at hplan ⊢
      obtain ⟨p, hp, rfl⟩ := hplan
      obtain ⟨hwf', hrd, hmap⟩ := RegisterAllocator.allocate_spec hwf hp
      obtain ⟨hholds, hregs, -⟩ := h.allocate hwf hp
      have hregs := hregs rfl
      simp only [if_true] at hholds
      have hmem := hwf'.scratch _ _ hmap
      by_cases hsame : p.register = x86Rn
      · simp only [hsame, ne_eq, not_true_eq_false, if_false, List.append_nil]
        exact ⟨by rw [hregs], fun z _ => by rw [hregs], hwf', hholds, hsame ▸ hmap⟩
      · have hmov : ∀ t : State, execAll t (instrsOf [registerMacro .movRegisterRegister
            (some p.register) (some x86Rn)]) = t.set p.register (t.regs x86Rn) := fun _ => rfl
        simp only [ne_eq, hsame, not_false_eq_true, if_true, instrsOf_append, execAll_append, hmov]
        refine ⟨?_, fun z hz => ?_, hwf', ?_, hmap⟩
        · rw [State.set_self, hregs]
        · rw [State.set_of_ne _ _ hz, hregs]
        · exact hholds.overwrite hwf' hmap (State.set_of_ne _ _ (Ne.symm (not_scratch_rbp hmem)))
            (fun y _ hy => State.set_of_ne _ _ hy) rfl

/-- The end of an addition or subtraction: the sum of the first operand and of what the arithmetic
instruction reads goes to the destination, and its flags to the flags. -/
theorem Holds.finishPlan (hwf : r.Wf) (h : Holds base r s g ∅) {rd : Fin 32} {x86Rn : Reg}
    {setsFlags isSub : Bool} {d : Allocated}
    (hplan : r.planDestination rd x86Rn (setsFlags && (rd : Nat) == 31) = some d) {arithmetic : Macro}
    {y : State → BitVec 64} (harithmetic : IsArithmetic isSub arithmetic d.register y)
    {second : BitVec 64} (hsecond : y (execAll s (instrsOf d.macros)) = second) :
    (RegisterAllocator.finishPlan d setsFlags rd isSub arithmetic).allocator.Wf ∧
      Holds base (RegisterAllocator.finishPlan d setsFlags rd isSub arithmetic).allocator
        (execAll s (instrsOf (RegisterAllocator.finishPlan d setsFlags rd isSub arithmetic).macros))
        (g.writeSum setsFlags rd (A64.addSub isSub (s.regs x86Rn) second)) ∅ := by
  obtain ⟨hfirst, -, hwf', hstale, hcase⟩ := h.planDestination hwf hplan
  simp only [RegisterAllocator.finishPlan, instrsOf_append, instrsOf_cons, execAll_append,
    harithmetic.exec, hfirst, hsecond, addSub_eq_host]
  generalize hs' : execAll s (instrsOf d.macros) = s' at *
  by_cases hdiscarded : (setsFlags && (rd : Nat) == 31) = true
  · simp only [hdiscarded, if_true] at hcase ⊢
    obtain ⟨hr11, hholds⟩ := hcase
    simp only [Bool.and_eq_true, beq_iff_eq] at hdiscarded
    obtain ⟨rfl, hrd⟩ := hdiscarded
    have hrd' : rd = 31 := Fin.ext hrd
    refine ⟨hwf', ?_⟩
    have hset : Holds base d.allocator { s'.set d.register (hostResult isSub (s.regs x86Rn) second) with
        flags := hostFlags isSub (s.regs x86Rn) second } g ∅ := by
      rw [hr11]
      have hother : ∀ y ≠ .r11,
          (s'.set .r11 (hostResult isSub (s.regs x86Rn) second)).regs y = s'.regs y :=
        fun y hy => s'.set_of_ne _ hy
      exact hholds.congr_state hwf' (hother .rbp (by decide))
        (fun y hy => hother y (not_scratch_r11 hy)) rfl
    simpa [A64.State.writeSum, A64.State.setGeneral, hrd'] using hset.setFlags isSub
  · simp only [hdiscarded] at hcase ⊢
    have hmem := hwf'.scratch _ _ hcase
    refine ⟨hwf'.setDirty hcase, ?_⟩
    have hset : Holds base (d.allocator.setDirty rd)
        { s'.set d.register (hostResult isSub (s.regs x86Rn) second) with
          flags := hostFlags isSub (s.regs x86Rn) second }
        (g.setX rd (hostResult isSub (s.regs x86Rn) second)) ∅ := by
      have hover := hstale.overwrite hwf' hcase
        (t := { s'.set d.register (hostResult isSub (s.regs x86Rn) second) with
          flags := hostFlags isSub (s.regs x86Rn) second })
        (s'.set_of_ne _ (Ne.symm (not_scratch_rbp hmem))) (fun y _ hy => s'.set_of_ne _ hy) rfl
      have hsettle := hover.settle hcase
      simpa using hsettle
    cases setsFlags with
    | false => simpa [A64.State.writeSum] using hset
    | true =>
        have hne : rd ≠ 31 := by
          rintro rfl
          simp at hdiscarded
        simpa [A64.State.writeSum, A64.State.setGeneral, hne] using hset.setFlags isSub

theorem Holds.planAddSubImm (hwf : r.Wf) (h : Holds base r s g ∅) {rd rn : Fin 32}
    {setsFlags isSub : Bool} {value : BitVec 64} (hvalue : value.toNat < 2 ^ 31) {p : Plan}
    (hplan : r.planAddSubImm setsFlags isSub rd rn value = some p) :
    p.allocator.Wf ∧ Holds base p.allocator (execAll s (instrsOf p.macros))
      (g.writeSum setsFlags rd (A64.addSub isSub (g.x rn) value)) ∅ := by
  simp only [RegisterAllocator.planAddSubImm, Option.bind_eq_bind, Option.bind_eq_some_iff,
    Option.some.injEq] at hplan
  obtain ⟨n, hn, d, hd, rfl⟩ := hplan
  obtain ⟨hwfn, _, hmap⟩ := RegisterAllocator.allocate_spec hwf hn
  obtain ⟨hholds, -, -⟩ := h.allocate hwf hn
  simp only [Bool.false_eq_true, if_false] at hholds
  have hfirst := hholds.mapped rn (by simp) _ hmap
  obtain ⟨hwf', hfinal⟩ := hholds.finishPlan hwfn hd
    (isArithmetic_immediate isSub d.register hvalue) rfl
  rw [hfirst] at hfinal
  simp only [instrsOf_append, execAll_append]
  exact ⟨hwf', hfinal⟩

end AddSub

/-! ### Updates of one register -/

section Update

variable {base : Address} {r : RegisterAllocator} {s : State} {g : A64.State}

/-- The macros change the register `x` by `f` and otherwise at most the temporary register. -/
structure IsUpdate (f : BitVec 64 → BitVec 64) (macros : X86Register → List Macro) : Prop where
  value : ∀ x ≠ .r11, ∀ t : State,
    (execAll t (instrsOf (macros (some x)))).regs x = f (t.regs x)
  regs : ∀ x, ∀ t : State, ∀ y ≠ x, y ≠ .r11 →
    (execAll t (instrsOf (macros (some x)))).regs y = t.regs y
  memory : ∀ x, ∀ t : State, (execAll t (instrsOf (macros (some x)))).memory = t.memory

theorem Holds.planUpdate (hwf : r.Wf) (h : Holds base r s g ∅) {rd : Fin 32} {skipLoad : Bool}
    {f : BitVec 64 → BitVec 64} {macros : X86Register → List Macro} (hupdate : IsUpdate f macros)
    (hskip : skipLoad = true → ∀ v w, f v = f w) {p : Plan}
    (hplan : r.planUpdate rd skipLoad macros = some p) :
    p.allocator.Wf ∧ Holds base p.allocator (execAll s (instrsOf p.macros))
      (g.setX rd (f (g.x rd))) ∅ := by
  simp only [RegisterAllocator.planUpdate, Option.map_eq_some_iff] at hplan
  obtain ⟨d, hd, rfl⟩ := hplan
  obtain ⟨hwf', _, hmap⟩ := RegisterAllocator.allocate_spec hwf hd
  obtain ⟨hholds, -, -⟩ := h.allocate hwf hd
  have hmem := hwf'.scratch _ _ hmap
  refine ⟨hwf'.setDirty hmap, ?_⟩
  simp only [instrsOf_append, execAll_append]
  generalize hs' : execAll s (instrsOf d.macros) = s' at hholds
  have hstale : Holds base d.allocator s' g {rd} := hholds.weaken (by split <;> simp)
  have hover := hstale.overwrite hwf' hmap
    (hupdate.regs d.register s' .rbp (Ne.symm (not_scratch_rbp hmem)) (by decide))
    (fun y hy hne => hupdate.regs d.register s' y hne (not_scratch_r11 hy))
    (hupdate.memory d.register s')
  have hvalue : (execAll s' (instrsOf (macros (some d.register)))).regs d.register = f (g.x rd) := by
    rw [hupdate.value d.register (not_scratch_r11 hmem)]
    cases skipLoad with
    | true => exact hskip rfl _ _
    | false =>
        simp only [Bool.false_eq_true, if_false] at hholds
        rw [hholds.mapped rd (by simp) _ hmap]
  have hsettle := hover.settle hmap
  rwa [hvalue] at hsettle

theorem isUpdate_movImmediate (value : BitVec 64) :
    IsUpdate (fun _ => value) fun d => [immediateMacro .movRegisterImmediate d value] where
  value := fun x _ t => by simp [immediateMacro, Macro.instrs, Instr.exec]
  regs := fun x t y hy _ => t.set_of_ne value hy
  memory := fun x t => rfl

/-- A mask and an insertion, each through the temporary register. -/
theorem isUpdate_insert (mask value : BitVec 64) :
    IsUpdate (fun v => v &&& mask ||| value) fun d =>
      [immediateMacro .andRegisterImmediate d mask, immediateMacro .orRegisterImmediate d value] where
  value := fun x hx t => by
    simp [immediateMacro, Macro.instrs, Instr.exec, AluOp.result, State.set,
      Function.update_of_ne hx]
  regs := fun x t y hy hr11 => by
    simp [immediateMacro, Macro.instrs, Instr.exec, State.set, Function.update_of_ne hy,
      Function.update_of_ne hr11]
  memory := fun x t => rfl

end Update

/-! ### Conjunctions -/

section And

variable {base : Address} {r : RegisterAllocator} {s : State} {g : A64.State}

/-- The macros of `translate_and` read both operands before they change one of them. -/
theorem execAll_andMacros (s : State) (rd : Nat) (d n m : Reg) :
    execAll s (instrsOf (RegisterAllocator.andMacros rd d n m)) =
      { s.set d (if rd = 31 then 0 else s.regs n &&& s.regs m) with
        flags := logicFlags (if rd = 31 then 0 else s.regs n &&& s.regs m) } := by
  have hand : ∀ (t : State) (x y : Reg),
      execAll t (registerMacro .andRegisterRegister (some x) (some y)).instrs =
        { t.set x (t.regs x &&& t.regs y) with flags := logicFlags (t.regs x &&& t.regs y) } :=
    fun _ _ _ => rfl
  have hmov : ∀ (t : State) (x y : Reg),
      execAll t (registerMacro .movRegisterRegister (some x) (some y)).instrs =
        t.set x (t.regs y) := fun _ _ _ => rfl
  have hzero : ∀ (t : State) (x : Reg),
      execAll t (immediateMacro .movRegisterImmediate (some x) 0).instrs = t.set x 0 :=
    fun _ _ => rfl
  unfold RegisterAllocator.andMacros
  rw [instrsOf_append, execAll_append, instrsOf_cons, instrsOf_nil, List.append_nil, hand]
  by_cases hrd : rd = 31
  · simp only [hrd, if_true, instrsOf_cons, instrsOf_nil, List.append_nil, hzero]
    simp [State.set]
  · by_cases hdm : d = m
    · subst hdm
      simp [hrd, BitVec.and_comm]
    · have hmd : m ≠ d := Ne.symm hdm
      by_cases hdn : d = n
      · subst hdn
        simp [hrd, hdm]
      · simp only [hrd, hdm, hdn, ne_eq, not_false_eq_true, if_true, if_false, instrsOf_cons,
          instrsOf_nil, List.append_nil, hmov]
        simp [State.set, Function.update_of_ne hmd]

/-- The end of a conjunction, with the registers handed out for its operands. -/
theorem Holds.finishAnd (hwf : r.Wf) {rd : Fin 32} (h : Holds base r s g {rd}) {d n m : Reg}
    (hmap : r.armToX86 rd = some d) :
    Holds base (r.setDirty rd) (execAll s (instrsOf (RegisterAllocator.andMacros rd d n m)))
      (g.setX rd (if (rd : Nat) = 31 then 0 else s.regs n &&& s.regs m)) ∅ := by
  have hmem := hwf.scratch _ _ hmap
  rw [execAll_andMacros]
  generalize (if (rd : Nat) = 31 then 0 else s.regs n &&& s.regs m) = value
  have hover := h.overwrite hwf hmap (t := { s.set d value with flags := logicFlags value })
    (s.set_of_ne _ (Ne.symm (not_scratch_rbp hmem))) (fun y _ hy => s.set_of_ne _ hy) rfl
  simpa using hover.settle hmap

end And

/-! ### Moves -/

theorem Holds.planMovRegister {base : Address} {r : RegisterAllocator} {s : State} {g : A64.State}
    (hwf : r.Wf) (h : Holds base r s g ∅) {rd rm : Fin 32} {p : Plan}
    (hplan : r.planMovRegister rd rm = some p) :
    p.allocator.Wf ∧ Holds base p.allocator (execAll s (instrsOf p.macros)) (g.setX rd (g.x rm)) ∅ := by
  simp only [RegisterAllocator.planMovRegister, Option.bind_eq_bind, Option.bind_eq_some_iff,
    Option.some.injEq] at hplan
  obtain ⟨m, hm, d, hd, rfl⟩ := hplan
  obtain ⟨hwfm, _, hmmap⟩ := RegisterAllocator.allocate_spec hwf hm
  obtain ⟨hwfd, _, hdmap⟩ := RegisterAllocator.allocate_spec hwfm hd
  obtain ⟨hheld, -, -⟩ := h.allocate hwf hm
  simp only [Bool.false_eq_true, if_false] at hheld
  obtain ⟨hstale, hregs, -⟩ := hheld.allocate hwfm hd
  simp only [if_true] at hstale
  have hmem := hwfd.scratch _ _ hdmap
  have hvalue := hheld.mapped rm (by simp) _ hmmap
  rw [← congrFun (hregs rfl) m.register] at hvalue
  refine ⟨hwfd.setDirty hdmap, ?_⟩
  simp only [instrsOf_append, execAll_append]
  generalize execAll (execAll s (instrsOf m.macros)) (instrsOf d.macros) = u at *
  have hmov : execAll u (instrsOf [registerMacro .movRegisterRegister (some d.register)
      (some m.register)]) = u.set d.register (u.regs m.register) := rfl
  have hover := hstale.overwrite hwfd hdmap (t := u.set d.register (u.regs m.register))
    (u.set_of_ne _ (Ne.symm (not_scratch_rbp hmem))) (fun y _ hy => u.set_of_ne _ hy) rfl
  have hsettle := hover.settle hdmap
  rw [State.set_self, hvalue] at hsettle
  rwa [hmov, hvalue]

end Ballistic
