import Ballistic.Proof.Straight
import Ballistic.Proof.Values

/-!
# Which guest registers are in host registers

There are nine scratch registers. A block whose instructions ask for at most nine different guest
registers therefore never evicts one: what an instruction has been given stays where it is
(`RegisterAllocator.allocate_keeps`). Evictions or not, the code of a block always leaves some guest
state (`Succeeds.guestUpTo`), and the host determines it up to the program counter (`Holds.unique`).
-/

namespace Ballistic

open Machine Machine.X86

namespace RegisterAllocator

variable {r : RegisterAllocator}

/-! ### Mapped registers -/

/-- The guest registers that have a host register. -/
def mapped (r : RegisterAllocator) : Finset (Fin 32) :=
  Finset.univ.filter fun a => (r.armToX86 a).isSome

theorem mem_mapped {a : Fin 32} : a ∈ r.mapped ↔ ∃ x, r.armToX86 a = some x := by
  simp [mapped, Option.isSome_iff_exists]

theorem scratchRegisters_card : scratchRegisters.toFinset.card = 9 := by decide

/-- While a scratch register is not needed, one is free. -/
theorem exists_freeRegister (h : r.Wf) (hroom : r.mapped.card < 9) :
    ∃ x, r.freeRegister = some x := by
  by_contra hnone
  have hfull : ∀ x ∈ scratchRegisters, ∃ a, r.x86ToArm x = some a := by
    intro x hx
    by_contra hfree
    have hempty : r.x86ToArm x = none := by
      cases hmap : r.x86ToArm x with
      | none => rfl
      | some a => exact absurd ⟨a, hmap⟩ hfree
    have hfind : r.freeRegister.isSome = true := by
      rw [freeRegister, List.find?_isSome]
      exact ⟨x, hx, by simp [hempty]⟩
    exact hnone (Option.isSome_iff_exists.mp hfind)
  choose f hf using hfull
  have hle : scratchRegisters.toFinset.attach.card ≤ r.mapped.card := by
    refine Finset.card_le_card_of_injOn (fun x => f x.1 (List.mem_toFinset.mp x.2)) ?_ ?_
    · intro x _
      exact mem_mapped.mpr ⟨_, (h.inverse _ _).mpr (hf x.1 _)⟩
    · intro x _ y _ hxy
      have hx := (h.inverse _ _).mpr (hf x.1 (List.mem_toFinset.mp x.2))
      have hy := (h.inverse _ _).mpr (hf y.1 (List.mem_toFinset.mp y.2))
      simp only at hxy
      rw [hxy, hy] at hx
      exact Subtype.ext (Option.some.inj hx).symm
  rw [Finset.card_attach, scratchRegisters_card] at hle
  omega

/-- Every register keeps the host register that it has. -/
def Keeps (r r' : RegisterAllocator) : Prop :=
  ∀ a x, r.armToX86 a = some x → r'.armToX86 a = some x

theorem Keeps.refl (r : RegisterAllocator) : r.Keeps r := fun _ _ h => h

theorem Keeps.trans {r' r'' : RegisterAllocator} (h : r.Keeps r') (h' : r'.Keeps r'') :
    r.Keeps r'' := fun a x hx => h' a x (h a x hx)

/-- Only the register that is asked for gets a host register. -/
theorem allocate_mapped (h : r.Wf) {arm : Nat} {skipLoad : Bool} {p : Allocated}
    (hplan : r.allocate arm skipLoad = some p) {a : Fin 32} (ha : a ∈ p.allocator.mapped) :
    a ∈ r.mapped ∨ (a : Nat) = arm := by
  obtain ⟨x, hx⟩ := mem_mapped.mp ha
  obtain ⟨harm, ⟨y, -, -, rfl⟩ | ⟨-, rfl⟩⟩ := allocate_cases hplan
  · exact .inl ha
  · by_cases hsame : (a : Nat) = arm
    · exact .inr hsame
    · refine .inl (mem_mapped.mpr ?_)
      obtain ⟨-, -, -, hkeep⟩ := take_spec h
      have hne : a ≠ ⟨arm, harm⟩ := fun heq => hsame (congrArg Fin.val heq)
      cases hmap : r.armToX86 a with
      | some y => exact ⟨y, rfl⟩
      | none =>
          simp only [map, Function.update_of_ne hne, hkeep a hmap] at hx
          cases hx

/-- **No eviction.** Where at most nine registers are in play, every register stays where it is. -/
theorem allocate_keeps (h : r.Wf) {touched : Finset (Fin 32)} (hcard : touched.card ≤ 9)
    (hmapped : r.mapped ⊆ touched) {a : Fin 32} (ha : a ∈ touched) {skipLoad : Bool} {p : Allocated}
    (hplan : r.allocate a skipLoad = some p) :
    r.Keeps p.allocator ∧ p.allocator.mapped ⊆ touched := by
  refine ⟨?_, fun b hb => ?_⟩
  swap
  · rcases allocate_mapped h hplan hb with hb | hb
    · exact hmapped hb
    · rwa [Fin.ext hb]
  obtain ⟨_, ⟨y, -, -, rfl⟩ | ⟨hmiss, rfl⟩⟩ := allocate_cases hplan
  · exact .refl _
  · simp only [Fin.eta] at hmiss
    have hroom : r.mapped.card < 9 := by
      have hsub : r.mapped ⊂ touched := by
        refine (Finset.ssubset_iff_of_subset hmapped).mpr ⟨a, ha, fun hmem => ?_⟩
        obtain ⟨x, hx⟩ := mem_mapped.mp hmem
        rw [hmiss] at hx
        cases hx
      have hlt := Finset.card_lt_card hsub
      omega
    obtain ⟨free, hfree⟩ := exists_freeRegister h hroom
    intro b x hx
    have hba : b ≠ a := by
      rintro rfl
      rw [hmiss] at hx
      cases hx
    simp only [take, hfree, map, Function.update_of_ne hba]
    exact hx

/-! ### Registers of an instruction -/

theorem planDestination_mapped (h : r.Wf) {rd : Nat} {x86Rn : Reg} {discarded : Bool} {d : Allocated}
    (hplan : r.planDestination rd x86Rn discarded = some d) {a : Fin 32}
    (ha : a ∈ d.allocator.mapped) : a ∈ r.mapped ∨ discarded = false ∧ (a : Nat) = rd := by
  unfold planDestination at hplan
  cases discarded with
  | true =>
      cases hplan
      exact .inl ha
  | false =>
      obtain ⟨p, hp, rfl⟩ := Option.map_eq_some_iff.mp hplan
      exact (allocate_mapped h hp ha).imp_right fun heq => ⟨rfl, heq⟩

/-- The guest registers that the plan of an instruction asks for, in this order. -/
def askedRegisters (metadata : Metadata) (w : BitVec 32) : List Nat :=
  let rd := Compiler.registerOperand metadata w 0
  let rn := Compiler.registerOperand metadata w 1
  let rm := Compiler.registerOperand metadata w 3
  match metadata.irOpcode with
  | .mov => [rd]
  | .and => [rn, rm, rd]
  | _ =>
      rn :: (if isRegister (metadata.operand 3) then [rm] else []) ++
        if Compiler.isSettingFlags metadata && rd == 31 then [] else [rd]

theorem finishPlan_mapped (d : Allocated) (setsFlags : Bool) (rd : Nat) (isSub : Bool)
    (arithmetic : Macro) :
    (finishPlan d setsFlags rd isSub arithmetic).allocator.mapped = d.allocator.mapped := by
  unfold finishPlan
  split <;> rfl

theorem planAnd_mapped (h : r.Wf) {rd rn rm : Nat} {p : Plan} (hplan : r.planAnd rd rn rm = some p)
    {a : Fin 32} (ha : a ∈ p.allocator.mapped) : a ∈ r.mapped ∨ (a : Nat) ∈ [rn, rm, rd] := by
  simp only [planAnd, Option.bind_eq_bind, Option.bind_eq_some_iff, Option.some.injEq] at hplan
  obtain ⟨n, hn, m, hm, d, hd, rfl⟩ := hplan
  have hwfn := (allocate_spec h hn).1
  have hwfm := (allocate_spec hwfn hm).1
  rcases allocate_mapped hwfm hd ha with ha | heq
  · rcases allocate_mapped hwfn hm ha with ha | heq
    · exact (allocate_mapped h hn ha).imp_right fun heq => by simp [heq]
    · exact .inr (by simp [heq])
  · exact .inr (by simp [heq])

theorem planAddSubReg_mapped (h : r.Wf) {setsFlags isSub : Bool} {rd rn rm : Nat} {p : Plan}
    (hplan : r.planAddSubReg setsFlags isSub rd rn rm = some p) {a : Fin 32}
    (ha : a ∈ p.allocator.mapped) :
    a ∈ r.mapped ∨ (a : Nat) ∈ rn :: [rm] ++ if setsFlags && rd == 31 then [] else [rd] := by
  simp only [planAddSubReg, Option.bind_eq_bind, Option.bind_eq_some_iff, Option.some.injEq] at hplan
  obtain ⟨n, hn, m, hm, d, hd, rfl⟩ := hplan
  have hwfn := (allocate_spec h hn).1
  have hwfm := (allocate_spec hwfn hm).1
  simp only [finishPlan_mapped] at ha
  rcases planDestination_mapped hwfm hd ha with ha | ⟨hkept, heq⟩
  · rcases allocate_mapped hwfn hm ha with ha | heq
    · exact (allocate_mapped h hn ha).imp_right fun heq => by simp [heq]
    · exact .inr (by simp [heq])
  · exact .inr (by rw [hkept]; simp [heq])

theorem planAddSubImm_mapped (h : r.Wf) {setsFlags isSub : Bool} {rd rn : Nat} {value : BitVec 64}
    {p : Plan} (hplan : r.planAddSubImm setsFlags isSub rd rn value = some p) {a : Fin 32}
    (ha : a ∈ p.allocator.mapped) :
    a ∈ r.mapped ∨ (a : Nat) ∈ rn :: [] ++ if setsFlags && rd == 31 then [] else [rd] := by
  simp only [planAddSubImm, Option.bind_eq_bind, Option.bind_eq_some_iff, Option.some.injEq] at hplan
  obtain ⟨n, hn, d, hd, rfl⟩ := hplan
  simp only [finishPlan_mapped] at ha
  rcases planDestination_mapped (allocate_spec h hn).1 hd ha with ha | ⟨hkept, heq⟩
  · exact (allocate_mapped h hn ha).imp_right fun heq => by simp [heq]
  · exact .inr (by rw [hkept]; simp [heq])

theorem plan_mapped (h : r.Wf) {metadata : Metadata} {w : BitVec 32} {p : Plan}
    (hplan : r.plan metadata w = some p) {a : Fin 32} (ha : a ∈ p.allocator.mapped) :
    a ∈ r.mapped ∨ (a : Nat) ∈ askedRegisters metadata w := by
  simp only [plan] at hplan
  simp only [askedRegisters]
  cases hopcode : metadata.irOpcode with
  | mov =>
      simp only [hopcode] at hplan ⊢
      obtain ⟨d, hd, rfl⟩ := Option.map_eq_some_iff.mp hplan
      exact (allocate_mapped h hd ha).imp_right fun heq => by simp [heq]
  | and =>
      simp only [hopcode] at hplan ⊢
      exact planAnd_mapped h hplan ha
  | _ =>
      simp only [hopcode] at hplan ⊢
      split at hplan
      · next hregister =>
          simp only [hregister, if_true]
          exact planAddSubReg_mapped h hplan ha
      · next hregister =>
          simp only [hregister]
          exact planAddSubImm_mapped h hplan ha

end RegisterAllocator

/-! ### The guest behind the host -/

section Guest

variable {base : Address} {r : RegisterAllocator} {s : State} {g g' : A64.State}

/-- The host determines the guest that it holds, up to the program counter. -/
theorem Holds.unique (hwf : r.Wf) (h : Holds base r s g ∅) (h' : Holds base r s g' ∅) :
    g.SameRegisters g' where
  x := by
    funext a
    cases hmap : r.armToX86 a with
    | some x => rw [← h.mapped a (by simp) x hmap, ← h'.mapped a (by simp) x hmap]
    | none =>
        have hclean : r.dirty a = false := by
          cases hdirty : r.dirty a with
          | false => rfl
          | true =>
              obtain ⟨x, hx⟩ := hwf.dirty_mapped a hdirty
              rw [hmap] at hx
              cases hx
        rw [← h.memory a (by simp) hclean, ← h'.memory a (by simp) hclean]
  flagN := h.flagN.symm.trans h'.flagN
  flagZ := h.flagZ.symm.trans h'.flagZ
  flagC := h.flagC.symm.trans h'.flagC
  flagV := h.flagV.symm.trans h'.flagV

theorem Holds.congr (h : Holds base r s g ∅) (hsame : g.SameRegisters g') : Holds base r s g' ∅ where
  rbp := h.rbp
  mapped := fun a ha x hx => (h.mapped a ha x hx).trans (congrFun hsame.x a)
  memory := fun a ha hclean => (h.memory a ha hclean).trans (congrFun hsame.x a)
  flagN := h.flagN.trans hsame.flagN
  flagZ := h.flagZ.trans hsame.flagZ
  flagC := h.flagC.trans hsame.flagC
  flagV := h.flagV.trans hsame.flagV

theorem isUpdate_movImmediateMacros (metadata : Metadata) (w : BitVec 32) :
    ∃ f, IsUpdate f (Compiler.movImmediateMacros metadata w).2 ∧
      ((Compiler.movImmediateMacros metadata w).1 = true → ∀ v v', f v = f v') := by
  simp only [Compiler.movImmediateMacros]
  split
  · exact ⟨_, isUpdate_movImmediate _, fun _ _ _ => rfl⟩
  · split
    · exact ⟨_, isUpdate_movImmediate _, fun _ _ _ => rfl⟩
    · exact ⟨_, isUpdate_insert _ _, fun hskip => by cases hskip⟩

/-- A destination is a register of the guest. -/
theorem RegisterAllocator.planDestination_lt {rd : Nat} {x86Rn : Reg} {setsFlags : Bool} {d : Allocated}
    (hplan : r.planDestination rd x86Rn (setsFlags && rd == 31) = some d) : rd < 32 := by
  unfold RegisterAllocator.planDestination at hplan
  split at hplan
  · next hdiscarded =>
      simp only [Bool.and_eq_true, beq_iff_eq] at hdiscarded
      omega
  · obtain ⟨p, hp, -⟩ := Option.map_eq_some_iff.mp hplan
    exact (RegisterAllocator.allocate_cases hp).1

/-- **A plan leaves a guest**, be it the right one or not. -/
theorem Holds.plan (hwf : r.Wf) (h : Holds base r s g ∅) {metadata : Metadata} {w : BitVec 32}
    {p : Plan} (hplan : r.plan metadata w = some p) :
    ∃ g', Holds base p.allocator (execAll s (instrsOf p.macros)) g' ∅ := by
  have hload : ∀ {r : RegisterAllocator} {s : State} {arm : Nat} {p : Allocated}, r.Wf →
      Holds base r s g ∅ → r.allocate arm false = some p →
      Holds base p.allocator (execAll s (instrsOf p.macros)) g ∅ := by
    intro r s arm p hwf h hp
    obtain ⟨harm, -⟩ := RegisterAllocator.allocate_cases hp
    simpa using (h.allocate hwf (a := ⟨arm, harm⟩) hp).1
  have hoperand : ∀ {arm : Nat}, arm < 32 → ∃ rd : A64.Register, arm = rd :=
    fun harm => ⟨⟨_, harm⟩, rfl⟩
  simp only [RegisterAllocator.plan] at hplan
  split at hplan
  · obtain ⟨f, hupdate, hskip⟩ := isUpdate_movImmediateMacros metadata w
    obtain ⟨d, hd, -⟩ := Option.map_eq_some_iff.mp hplan
    obtain ⟨rd, hrd⟩ := hoperand (RegisterAllocator.allocate_cases hd).1
    rw [hrd] at hplan
    exact ⟨_, (h.planUpdate hwf hupdate hskip hplan).2⟩
  · simp only [RegisterAllocator.planAnd, Option.bind_eq_bind, Option.bind_eq_some_iff,
      Option.some.injEq] at hplan
    obtain ⟨n, hn, m, hm, d, hd, rfl⟩ := hplan
    have hwfn := (RegisterAllocator.allocate_spec hwf hn).1
    have hwfm := (RegisterAllocator.allocate_spec hwfn hm).1
    obtain ⟨hwfd, hrd, hmap⟩ := RegisterAllocator.allocate_spec hwfm hd
    have hheld := hload hwfn (hload hwf h hn) hm
    obtain ⟨hstale, -, -⟩ := hheld.allocate hwfm (a := ⟨_, hrd⟩) hd
    simp only [instrsOf_append, execAll_append]
    exact ⟨_, hstale.finishAnd hwfd hmap⟩
  · split at hplan
    · simp only [RegisterAllocator.planAddSubReg, Option.bind_eq_bind, Option.bind_eq_some_iff,
        Option.some.injEq] at hplan
      obtain ⟨n, hn, m, hm, d, hd, rfl⟩ := hplan
      have hwfn := (RegisterAllocator.allocate_spec hwf hn).1
      have hwfm := (RegisterAllocator.allocate_spec hwfn hm).1
      obtain ⟨rd, hrd⟩ := hoperand (RegisterAllocator.planDestination_lt hd)
      rw [hrd] at hd ⊢
      simp only [instrsOf_append, execAll_append]
      exact ⟨_, ((hload hwfn (hload hwf h hn) hm).finishPlan hwfm hd (isArithmetic_register _ _ _)
        rfl).2⟩
    · simp only [RegisterAllocator.planAddSubImm, Option.bind_eq_bind, Option.bind_eq_some_iff,
        Option.some.injEq] at hplan
      obtain ⟨n, hn, d, hd, rfl⟩ := hplan
      have hwfn := (RegisterAllocator.allocate_spec hwf hn).1
      obtain ⟨rd, hrd⟩ := hoperand (RegisterAllocator.planDestination_lt hd)
      rw [hrd] at hd ⊢
      simp only [instrsOf_append, execAll_append]
      exact ⟨_, ((hload hwf h hn).finishPlan hwfn hd (isArithmetic_extended _ _ _) rfl).2⟩

end Guest

/-! ### Blocks -/

section Blocks

variable {input : TranslateInput} {c : Compiler} {start : Address} {t : Translation} {entry : Nat}
  {i limit : Nat} {s : LoopState} {metadata : Metadata}

/-- The block that is translated at `start` asks for the guest register `a`. -/
def Touches (input : TranslateInput) (c : Compiler) (start : Address) (a : Fin 32) : Prop :=
  ∃ i limit s metadata, Reaches input c start (.forTest i limit) s ∧ i < limit ∧
    balDecodeArm64 input.table (input.memory.word s.guestAddress) = some metadata ∧
    metadata.outcome = .continues ∧
    (a : Nat) ∈ RegisterAllocator.askedRegisters metadata (input.memory.word s.guestAddress)

theorem Succeeds.mapped_touched (h : Succeeds input c start t entry) {p : LoopPoint}
    (hreach : Reaches input c start p s) (hrunning : Running input start p s) :
    s.compiler.allocator.Wf ∧ ∀ a ∈ s.compiler.allocator.mapped, Touches input c start a := by
  refine h.induction (P := fun s => s.compiler.allocator.Wf ∧
    ∀ a ∈ s.compiler.allocator.mapped, Touches input c start a) ?_ ?_ hreach hrunning
  · refine ⟨RegisterAllocator.reset_wf, fun a ha => ?_⟩
    obtain ⟨x, hx⟩ := RegisterAllocator.mem_mapped.mp ha
    cases hx
  · intro i limit s s' metadata plan hreach _ ⟨hwf, htouched⟩ hin hdecode hmore hplan _ hcounts
    obtain ⟨hcompiler, -⟩ := hcounts.eq
    simp only [hcompiler]
    refine ⟨(RegisterAllocator.plan_safe hwf hplan).wf, fun a ha => ?_⟩
    rcases RegisterAllocator.plan_mapped hwf hplan ha with ha | hasked
    · exact htouched a ha
    · exact ⟨i, limit, s, metadata, hreach, hin, hdecode, (endingOf_none hmore).2.1, hasked⟩

/-- The code up to a point of the block leaves a guest in the host, whatever the CPU record holds at
its start. -/
theorem Succeeds.guestUpTo (h : Succeeds input c start t entry) {p : LoopPoint}
    (hreach : Reaches input c start p s) (hrunning : Running input start p s) :
    ∃ js, CodeUpTo c start s js ∧ ∀ {base : Address} {host : State} {g : A64.State},
      Holds base .reset host g ∅ → ∃ g', Holds base s.compiler.allocator (execAll host js) g' ∅ := by
  refine h.induction (P := fun s => ∃ js, CodeUpTo c start s js ∧
    ∀ {base : Address} {host : State} {g : A64.State}, Holds base .reset host g ∅ →
      ∃ g', Holds base s.compiler.allocator (execAll host js) g' ∅) ?_ ?_ hreach hrunning
  · exact ⟨[], ⟨RegisterAllocator.reset_wf, .refl _, by simp⟩, fun hholds => ⟨_, hholds⟩⟩
  · intro i limit s s' metadata plan _ _ hup _ _ _ hplan hok hcounts
    obtain ⟨js, hcode, hguest⟩ := hup
    obtain ⟨hcompiler, -⟩ := hcounts.eq
    refine ⟨_, hcode.apply (RegisterAllocator.plan_safe hcode.wf hplan) hok hcompiler, ?_⟩
    intro base host g hholds
    obtain ⟨g', hheld⟩ := hguest hholds
    simp only [hcompiler, execAll_append]
    exact hheld.plan hcode.wf hplan

theorem Succeeds.runs (h : Succeeds input c start t entry)
    (hreach : Reaches input c start (.forTest i limit) s) : Running input start (.forTest i limit) s := by
  rcases h.reached hreach with hrunning | ⟨habsurd, -⟩
  · exact hrunning
  · cases habsurd

/-- The switch succeeds on every instruction of the block that is not trapped. -/
theorem Succeeds.translated (h : Succeeds input c start t entry)
    (hreach : Reaches input c start (.forTest i limit) s) (hin : i < limit)
    (hdecode : balDecodeArm64 input.table (input.memory.word s.guestAddress) = some metadata)
    (huntrapped : isTrapped input.engineFlags metadata = false) :
    (s.translateOpcode metadata (input.memory.word s.guestAddress)).compiler.Ok := by
  have hok : (translateInstruction input start c.assembler.offset i s).1.compiler.Ok := by
    have hnext : loopStep input start c.assembler.offset (.forTest i limit) s =
        .next (if (translateInstruction input start c.assembler.offset i s).2 then .whileTest
          else .forTest (i + 1) limit) (translateInstruction input start c.assembler.offset i s).1 := by
      simp only [loopStep, hin, if_true]
      split <;> rfl
    exact h.ok (.step hreach hnext)
  obtain ⟨-, hcase⟩ := translateInstruction_ok hok
  simp only [hdecode, huntrapped, Bool.false_eq_true, if_false] at hcase
  exact hcase.1

/-- An instruction of the block after which it may go on is carried out by its plan. -/
theorem Succeeds.planned (h : Succeeds input c start t entry)
    (hreach : Reaches input c start (.forTest i limit) s) (hin : i < limit)
    (hdecode : balDecodeArm64 input.table (input.memory.word s.guestAddress) = some metadata)
    (huntrapped : isTrapped input.engineFlags metadata = false)
    (houtcome : metadata.outcome = .continues) :
    ∃ p, s.compiler.allocator.plan metadata (input.memory.word s.guestAddress) = some p ∧
      s.translateOpcode metadata (input.memory.word s.guestAddress) =
        s.withCompiler (s.compiler.apply p) := by
  have hswitch := (LoopState.translateOpcode_ok (h.translated hreach hin hdecode huntrapped)).2
  simp only [houtcome] at hswitch
  exact hswitch

end Blocks

end Ballistic
