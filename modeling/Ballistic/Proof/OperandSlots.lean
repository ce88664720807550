import Ballistic.Proof.RegisterForms

/-!
# Opcodes that share a translator

The switch over the opcode tells the instruction classes apart by the types of the operand slots two
to four, and these are in the order of the bits of the encoding. An addition of an extended register
and an addition of tags reach the translator of immediates, a logical immediate reaches the one of
registers, and every `ORR` reaches the one of `MOV`. For blocks of one such instruction, the code does
what the instruction does in exactly the cases of `SlotsAgree`.
-/

namespace Machine.A64

/-! ### Logical immediates -/

theorem rotated_pos {ones r size : Nat} (hones : 0 < ones) (hlt : ones < 2 ^ size) (hr : r ≤ size) :
    0 < ones / 2 ^ r + ones % 2 ^ r * 2 ^ (size - r) ∧
      ones / 2 ^ r + ones % 2 ^ r * 2 ^ (size - r) < 2 ^ size := by
  have hsplit : 2 ^ size = 2 ^ r * 2 ^ (size - r) := by
    rw [← Nat.pow_add, Nat.add_sub_cancel' hr]
  have hpos : 0 < 2 ^ (size - r) := Nat.two_pow_pos _
  have hquotient : ones / 2 ^ r < 2 ^ (size - r) := by
    rw [Nat.div_lt_iff_lt_mul (Nat.two_pow_pos r), Nat.mul_comm, ← hsplit]
    exact hlt
  have hremainder : ones % 2 ^ r < 2 ^ r := Nat.mod_lt _ (Nat.two_pow_pos r)
  constructor
  · rw [Nat.pos_iff_ne_zero]
    intro hzero
    have hboth := Nat.add_eq_zero_iff.mp hzero
    have hmod : ones % 2 ^ r = 0 := by
      rcases Nat.mul_eq_zero.mp hboth.2 with hmod | hmod <;> omega
    have hdiv := Nat.div_add_mod ones (2 ^ r)
    rw [hboth.1, hmod] at hdiv
    omega
  · calc
      ones / 2 ^ r + ones % 2 ^ r * 2 ^ (size - r)
          < 2 ^ (size - r) + ones % 2 ^ r * 2 ^ (size - r) := Nat.add_lt_add_right hquotient _
      _ = (ones % 2 ^ r + 1) * 2 ^ (size - r) := by rw [Nat.add_mul, Nat.one_mul, Nat.add_comm]
      _ ≤ 2 ^ r * 2 ^ (size - r) := Nat.mul_le_mul_right _ hremainder
      _ = 2 ^ size := hsplit.symm

theorem replicated_mod (element size count : Nat) :
    ((List.range (count + 1)).map fun k => element * 2 ^ (k * size)).sum % 2 ^ size =
      element % 2 ^ size := by
  have hrest : ∀ n, ((List.range n).map fun k => element * 2 ^ ((k + 1) * size)).sum % 2 ^ size = 0 := by
    intro n
    induction n with
    | zero => simp
    | succ n ih =>
        rw [List.range_succ, List.map_append, List.sum_append, Nat.add_mod, ih, Nat.zero_add,
          Nat.mod_mod]
        simp [Nat.add_mul, Nat.pow_add, ← Nat.mul_assoc]
  rw [List.range_succ_eq_map, List.map_cons, List.sum_cons, List.map_map, Nat.add_mod]
  have h := hrest count
  simp only [Function.comp_def, Nat.succ_eq_add_one]
  rw [h]
  simp

theorem decodeBitMasks_ne_zero {n : Bool} {imms immr : BitVec 6} {mask : BitVec 64}
    (h : decodeBitMasks n imms immr = some mask) : mask ≠ 0 := by
  unfold decodeBitMasks at h
  simp only at h
  generalize hsel : (BitVec.ofBool n ++ ~~~imms).toNat = selector at h
  have hselLt : selector < 2 ^ 7 := hsel ▸ (BitVec.ofBool n ++ ~~~imms).isLt
  split at h
  · cases h
  · next hlen =>
      split at h
      · cases h
      · next hs =>
          cases h
          rw [not_or] at hlen
          have hlog : Nat.log2 selector ≤ 6 := by
            have := (Nat.log2_lt hlen.1).mpr hselLt
            omega
          generalize Nat.log2 selector = len at *
          generalize hsize : 2 ^ len = size at *
          have hsizePos : 0 < size := hsize ▸ Nat.two_pow_pos len
          have hsizeLe : size ≤ 64 := by
            rw [← hsize]
            exact Nat.pow_le_pow_right (by decide) hlog
          have hsLt : imms.toNat % size < size := Nat.mod_lt _ hsizePos
          have hrLt : immr.toNat % size < size := Nat.mod_lt _ hsizePos
          generalize imms.toNat % size = s at *
          generalize immr.toNat % size = r at *
          have htwo : 2 ≤ 2 ^ (s + 1) := Nat.le_self_pow (by omega) 2
          have hones : 2 ^ (s + 1) - 1 < 2 ^ size := by
            have hle : 2 ^ (s + 1) ≤ 2 ^ size := Nat.pow_le_pow_right (by decide) hsLt
            omega
          obtain ⟨hpos, hlt⟩ := rotated_pos (r := r) (by omega) hones (by omega)
          generalize (2 ^ (s + 1) - 1) / 2 ^ r + (2 ^ (s + 1) - 1) % 2 ^ r * 2 ^ (size - r) = element at *
          obtain ⟨count, hcount⟩ : ∃ count, 64 / size = count + 1 :=
            ⟨64 / size - 1, by have := Nat.div_pos hsizeLe hsizePos; omega⟩
          rw [hcount]
          intro hzero
          have hnat := congrArg BitVec.toNat hzero
          rw [BitVec.toNat_ofNat] at hnat
          have hmod : (((List.range (count + 1)).map fun k => element * 2 ^ (k * size)).sum) % 2 ^ size = 0 := by
            rw [← Nat.mod_mod_of_dvd _ (Nat.pow_dvd_pow 2 hsizeLe), hnat]
            rfl
          rw [replicated_mod, Nat.mod_eq_of_lt hlt] at hmod
          omega

theorem decodeBitMasks_ne_allOnes : ∀ (n : Bool) (immr : BitVec 6),
    decodeBitMasks n 0 immr ≠ some (BitVec.allOnes 64) := by decide

/-! ### Tags -/

theorem getLsbD_withAllocationTag (address : BitVec 64) (tag : BitVec 4) (i : Nat) :
    (withAllocationTag address tag).getLsbD i =
      if i < 56 then address.getLsbD i
      else if i < 60 then tag.getLsbD (i - 56)
      else address.getLsbD i := by
  have houter : (withAllocationTag address tag).getLsbD i =
      if i < 56 then (address.extractLsb' 0 56).getLsbD i
      else (address.extractLsb' 60 4 ++ tag).getLsbD (i - 56) := BitVec.getLsbD_append
  rw [houter, BitVec.getLsbD_append]
  by_cases hlow : i < 56
  · simp [hlow]
  · by_cases htag : i < 60
    · simp [hlow, htag, show i - 56 < 4 by omega]
    · have hplace : 60 + (i - 56 - 4) = i := by omega
      simp only [hlow, htag, show ¬i - 56 < 4 by omega, if_false, BitVec.getLsbD_extractLsb', hplace]
      by_cases hhigh : i < 64
      · simp [show i - 56 - 4 < 4 by omega]
      · simp [BitVec.getLsbD_of_ge address i (by omega)]

theorem extractLsb'_withAllocationTag_low (address : BitVec 64) (tag : BitVec 4) :
    (withAllocationTag address tag).extractLsb' 0 56 = address.extractLsb' 0 56 := by
  ext i hi
  simp [getLsbD_withAllocationTag, hi]

theorem extractLsb'_withAllocationTag_tag (address : BitVec 64) (tag : BitVec 4) :
    (withAllocationTag address tag).extractLsb' 56 4 = tag := by
  ext i hi
  simp [getLsbD_withAllocationTag, show 56 + i < 60 by omega, BitVec.getLsbD_eq_getElem hi]

theorem withAllocationTag_self (address : BitVec 64) :
    withAllocationTag address (address.extractLsb' 56 4) = address := by
  apply BitVec.eq_of_getLsbD_eq
  intro i _
  rw [getLsbD_withAllocationTag]
  split
  · rfl
  · split
    · rw [BitVec.getLsbD_extractLsb', show 56 + (i - 56) = i by omega]
      simp [show i - 56 < 4 by omega]
    · rfl

/-- Where some tags are excluded but not all, one of them is followed by a tag that is not. -/
theorem exists_excluded_before {exclude : BitVec 16} (hsome : exclude ≠ 0)
    (hall : exclude ≠ BitVec.allOnes 16) :
    ∃ tag : BitVec 4, exclude.getLsbD tag.toNat = true ∧ exclude.getLsbD (tag + 1).toNat = false := by
  by_contra hnone
  have hnext : ∀ tag : BitVec 4, exclude.getLsbD tag.toNat = true →
      exclude.getLsbD (tag + 1).toNat = true := by
    intro tag htag
    by_contra hfree
    exact hnone ⟨tag, htag, Bool.eq_false_iff.mpr hfree⟩
  obtain ⟨first, hfirst⟩ : ∃ tag : BitVec 4, exclude.getLsbD tag.toNat = true := by
    by_contra hempty
    refine hsome (BitVec.eq_of_getLsbD_eq fun i hi => ?_)
    have hbit : exclude.getLsbD (BitVec.ofNat 4 i).toNat ≠ true := fun h => hempty ⟨_, h⟩
    rw [BitVec.toNat_ofNat, Nat.mod_eq_of_lt hi] at hbit
    simpa using hbit
  have hsteps : ∀ k : Nat, exclude.getLsbD (first + BitVec.ofNat 4 k).toNat = true := by
    intro k
    induction k with
    | zero => simpa using hfirst
    | succ k ih =>
        have hstep := hnext _ ih
        rwa [BitVec.add_assoc, show BitVec.ofNat 4 k + 1 = BitVec.ofNat 4 (k + 1) by
          rw [BitVec.ofNat_add]; rfl] at hstep
  refine hall (BitVec.eq_of_getLsbD_eq fun i hi => ?_)
  have hbit := hsteps (BitVec.ofNat 4 i - first).toNat
  rw [BitVec.ofNat_toNat, BitVec.setWidth_eq, BitVec.add_comm, BitVec.sub_add_cancel,
    BitVec.toNat_ofNat, Nat.mod_eq_of_lt hi] at hbit
  rw [hbit, BitVec.getLsbD_allOnes, decide_eq_true hi]

/-- An offset of zero keeps every tag exactly if tags are enabled and none is excluded. -/
theorem keepsTags_iff (access : TagAccess) :
    (∀ tag : BitVec 4,
        (if access.enabled then chooseNonExcludedTag access.exclude tag 0 else 0) = tag) ↔
      access.enabled = true ∧ access.exclude = 0 := by
  constructor
  · intro hkeeps
    have henabled : access.enabled = true := by
      by_contra hdisabled
      have hone := hkeeps 1
      rw [if_neg hdisabled] at hone
      exact absurd hone (by decide)
    refine ⟨henabled, ?_⟩
    by_contra hsome
    simp only [henabled, if_true, chooseNonExcludedTag] at hkeeps
    by_cases hall : access.exclude = BitVec.allOnes 16
    · have hone := hkeeps 1
      rw [if_pos hall] at hone
      exact absurd hone (by decide)
    · obtain ⟨tag, hexcluded, hfree⟩ := exists_excluded_before hsome hall
      have htag := hkeeps tag
      rw [if_neg hall, skipExcluded, if_pos hexcluded, skipExcluded, hfree] at htag
      simp at htag
  · rintro ⟨henabled, hnone⟩ tag
    simp only [henabled, hnone, if_true, chooseNonExcludedTag]
    rw [if_neg (by decide), skipExcluded]
    simp

end Machine.A64

namespace Ballistic

open Machine Machine.X86

/-! ### Blocks of one instruction -/

section Single

variable {input : TranslateInput} {c : Compiler} {start : Address} {t : Translation} {entry : Nat}

theorem Reaches.limit_le {p : LoopPoint} {s : LoopState} (h : Reaches input c start p s) :
    ∀ {i limit}, p = .forTest i limit → limit ≤ input.maxInstructions := by
  induction h with
  | start =>
      intro i limit hp
      cases hp
  | step hreach hnext ih =>
      intro i limit hp
      obtain ⟨_, -, -, -, hfirst, -⟩ | ⟨_, _, -, -, hback, -⟩ | ⟨j, _, rfl, -, -, hnext'⟩ :=
        loopStep_next hnext
      · cases hfirst.symm.trans hp
        exact Nat.min_le_right _ _
      · cases hback.symm.trans hp
      · rw [hnext'] at hp
        split at hp
        · cases hp
        · cases hp
          exact ih rfl

/-- With the limit at one instruction the loops never go on. -/
theorem Succeeds.single_start (h : Succeeds input c start t entry) (hmax : input.maxInstructions = 1)
    {p : LoopPoint} {s : LoopState} (hreach : Reaches input c start p s)
    (hrunning : Running input start p s) : s = startState c start := by
  refine h.induction (P := fun s => s = startState c start) rfl ?_ hreach hrunning
  intro i limit s s' metadata plan hreach _ _ hin _ hmore _ _ _
  have hlimit := hreach.limit_le rfl
  obtain ⟨-, -, hnotLast⟩ := endingOf_none hmore
  omega

/-- The loops come to the one instruction with the variables they start with. -/
theorem Succeeds.single_reaches (h : Succeeds input c start t entry)
    (hmax : input.maxInstructions = 1) :
    ∃ limit, Reaches input c start (.forTest 0 limit) (startState c start) ∧ 0 < limit := by
  obtain ⟨s, s0, metadata, ending, -, hended⟩ := h.ended
  obtain ⟨i, limit, hreach, hrunning, hin, -⟩ := hended.before
  obtain rfl := h.single_start hmax hreach hrunning
  have hlimit := hreach.limit_le rfl
  obtain rfl : i = 0 := by omega
  exact ⟨limit, hreach, hin⟩

/-- **A block of one instruction** carries out the plan of its ending on the registers as they are in
the CPU record. -/
theorem Succeeds.single (h : Succeeds input c start t entry) (hreachable : c.Reachable)
    (hmax : input.maxInstructions = 1) {metadata : Metadata}
    (hdecode : balDecodeArm64 input.table (input.memory.word start) = some metadata)
    {ending : Ending} (hending : endingOf input 0 metadata = some ending)
    (hne : ending ≠ .opcode .branches) :
    ∃ p, RegisterAllocator.reset.endPlan metadata (input.memory.word start) ending = some p ∧
      ∀ {s : State} {cpu : Address}, Call s cpu entry →
        ∃ fuel u, runToRet t.compiler.assembler.buffer fuel s = some u ∧
          ∀ {g : A64.State}, Holds cpu p.allocator
              (execAll (execAll s prologueCode) (instrsOf p.macros)) g ∅ →
            (cpuState u.memory cpu).SameRegisters g := by
  obtain ⟨sf, s0, metadata', ending', hfinal, hended⟩ := h.ended
  obtain ⟨i, limit, hreach, hrunning, hin, hending'⟩ := hended.before
  obtain rfl := h.single_start hmax hreach hrunning
  have hlimit := hreach.limit_le rfl
  obtain rfl : i = 0 := by omega
  obtain rfl : metadata = metadata' := Option.some.inj (hdecode.symm.trans hended.decodes)
  obtain rfl : ending = ending' := Option.some.inj (hending.symm.trans hending')
  have hcode : CodeUpTo c start (startState c start) [] :=
    ⟨RegisterAllocator.reset_wf, .refl _, by simp⟩
  obtain ⟨p, is, hplan, hstraight, hexec⟩ := h.straight hreachable.window hfinal hended hne hcode
  refine ⟨p, hplan, fun hcall => ?_⟩
  obtain ⟨fuel, u, hrun, -, hmemory⟩ := (hstraight _ fun _ _ => rfl).run hcall
  refine ⟨fuel, u, hrun, fun {g} hholds => ?_⟩
  have hwf := (RegisterAllocator.endPlan_safe RegisterAllocator.reset_wf hplan).wf
  rw [hmemory, hexec, List.nil_append, execAll_append, hholds.tail hwf]
  exact ⟨rfl, rfl, rfl, rfl, rfl⟩

/-- The block does `effect` to the registers of the guest, whatever the CPU record holds. -/
def BlockDoes (t : Translation) (entry : Nat) (start : Address) (effect : A64.State → A64.State) :
    Prop :=
  ∀ s cpu, Call s cpu entry → ∃ fuel u, runToRet t.compiler.assembler.buffer fuel s = some u ∧
    (cpuState u.memory cpu).SameRegisters (effect { cpuState s.memory cpu with pc := start })

/-- The block does to the registers of the guest what the instruction at `start` does. -/
def SoundBlock (t : Translation) (entry : Nat) (start : Address) (access : A64.TagAccess)
    (i : A64.Instr) : Prop :=
  ∀ s cpu, Call s cpu entry →
    ∃ fuel u g, runToRet t.compiler.assembler.buffer fuel s = some u ∧
      i.exec access { cpuState s.memory cpu with pc := start } = some g ∧
      (cpuState u.memory cpu).SameRegisters g

theorem Succeeds.does (h : Succeeds input c start t entry) (hreachable : c.Reachable)
    (hmax : input.maxInstructions = 1) {metadata : Metadata}
    (hdecode : balDecodeArm64 input.table (input.memory.word start) = some metadata)
    {ending : Ending} (hending : endingOf input 0 metadata = some ending)
    (hne : ending ≠ .opcode .branches) {effect : A64.State → A64.State}
    (hplan : ∀ {p}, RegisterAllocator.reset.endPlan metadata (input.memory.word start) ending = some p →
      ∀ {base : Address} {s : State} {g : A64.State}, Holds base .reset s g ∅ →
        Holds base p.allocator (execAll s (instrsOf p.macros)) (effect g) ∅) :
    BlockDoes t entry start effect := by
  intro s cpu hcall
  obtain ⟨p, hp, hrun⟩ := h.single hreachable hmax hdecode hending hne
  obtain ⟨fuel, u, hrun, hsame⟩ := hrun hcall
  exact ⟨fuel, u, hrun, hsame (hplan hp (hcall.holds.withPc start))⟩

/-- A block is unsound if for some registers its effect is not the one of the instruction. -/
theorem BlockDoes.not_sound {effect : A64.State → A64.State} (h : BlockDoes t entry start effect)
    {access : A64.TagAccess} {i : A64.Instr} (x : A64.Register → BitVec 64)
    (hwrong : ∀ {g g'}, g.x = x → i.exec access g = some g' → (effect g).x ≠ g'.x) :
    ¬SoundBlock t entry start access i := by
  intro hsound
  have hcall : Call { someCall entry with memory := recordMemory x } 0 entry :=
    ⟨rfl, rfl, (someCall_call entry).disjoint⟩
  obtain ⟨fuel, u, hrun, hsame⟩ := h _ _ hcall
  obtain ⟨fuel', u', g, hrun', hexec, hsame'⟩ := hsound _ _ hcall
  obtain rfl := runToRet_unique hrun hrun'
  exact hwrong (g := { cpuState (recordMemory x) 0 with pc := start }) (recordMemory_x x) hexec
    (hsame.x.symm.trans hsame'.x)

theorem BlockDoes.sound {effect : A64.State → A64.State} (h : BlockDoes t entry start effect)
    {access : A64.TagAccess} {i : A64.Instr}
    (hright : ∀ g, ∃ g', i.exec access g = some g' ∧ (effect g).SameRegisters g') :
    SoundBlock t entry start access i := by
  intro s cpu hcall
  obtain ⟨fuel, u, hrun, hsame⟩ := h s cpu hcall
  obtain ⟨g', hexec, hsame'⟩ := hright { cpuState s.memory cpu with pc := start }
  exact ⟨fuel, u, g', hrun, hexec, hsame.trans hsame'⟩

end Single

/-! ### The classes -/

section Classes

variable {input : TranslateInput} {c : Compiler} {start : Address} {t : Translation} {entry : Nat}

/-- The 64-bit classes whose opcode is shared, on general registers. -/
def isShared : A64.Instr → Bool
  | .addSubExtended sf _ _ rm _ _ rn rd => sf && rm != 31 && rn != 31 && rd != 31
  | .logicalImm sf opc _ _ _ rn rd => sf && (opc == 0 || opc == 1) && rn != 31 && rd != 31
  | .logicalShifted sf opc _ n rm _ rn rd =>
      sf && opc == 1 && !n && rm != 31 && rn != 31 && rd != 31
  | .addSubTags _ _ _ rn rd => rn != 31 && rd != 31
  | _ => false

/-- The cases in which the slots that a translator reads are the fields it takes them for, or the
difference does not show. A conjunction whose rotation is read as a register that there is not, or
whose size is read as a shift, is refused. -/
def SlotsAgree (access : A64.TagAccess) : A64.Instr → Prop
  | .logicalShifted _ _ _ _ rm imm6 rn _ => rm = rn ∧ imm6 = 0
  | .logicalImm _ opc _ immr imms _ _ => opc = 0 ∧ (imms ≠ 0 ∨ 32 ≤ immr.toNat)
  | .addSubTags _ uimm6 uimm4 _ _ =>
      uimm6 = 0 ∧ uimm4 = 0 ∧ access.enabled = true ∧ access.exclude = 0
  | _ => False

/-- The immediate that the translator of immediates finds in two slots. -/
def slotImmediate (low high : Nat) : BitVec 64 :=
  BitVec.ofNat 64 low <<< (if high = 1 then 12 else 0)

theorem slotImmediate_toNat {low : Nat} (hlow : low < 16) (high : Nat) :
    (slotImmediate low high).toNat = if high = 1 then low * 4096 else low := by
  unfold slotImmediate
  rw [BitVec.toNat_shiftLeft, BitVec.toNat_ofNat, Nat.shiftLeft_eq]
  split <;> omega

theorem slotImmediate_lt {low : Nat} (hlow : low < 16) (high : Nat) :
    (slotImmediate low high).toNat < 2 ^ 31 := by
  rw [slotImmediate_toNat hlow]
  split <;> omega

/-- The instruction limit ends a block of one instruction that the switch translates. -/
theorem endingOf_limit (hmax : input.maxInstructions = 1) {metadata : Metadata}
    (huntrapped : isTrapped input.engineFlags metadata = false)
    (houtcome : metadata.outcome = .continues) : endingOf input 0 metadata = some .limit := by
  rw [endingOf, if_neg (by simp [huntrapped]), if_neg (by simp [houtcome]), if_pos (by omega)]

theorem limit_ne_branches : Ending.limit ≠ .opcode .branches := by decide

theorem Succeeds.does_addSubExtended (h : Succeeds input c start t entry) (hreachable : c.Reachable)
    (hgenerated : input.table.Generated) (hmax : input.maxInstructions = 1) {op setsFlags : Bool}
    {rm rn rd : A64.Register} {option imm3 : BitVec 3}
    (hdecode : A64.decode (input.memory.word start) =
      some (.addSubExtended true op setsFlags rm option imm3 rn rd)) :
    BlockDoes t entry start fun g =>
      g.writeSum setsFlags rd (A64.addSub op (g.x rn) (slotImmediate imm3.toNat option.toNat)) := by
  obtain ⟨hmetadata, hrd, hrn, himm, hoption⟩ := decode_addSubExtended hgenerated hdecode
  have hsets : Compiler.isSettingFlags (addSubExtendedMetadata op setsFlags) = setsFlags := by
    cases op <;> cases setsFlags <;> rfl
  have huntrapped : isTrapped input.engineFlags (addSubExtendedMetadata op setsFlags) = false := by
    cases op <;> cases setsFlags <;>
      simp [isTrapped, addSubExtendedMetadata, addSubName, Metadata.nameStarts]
  have houtcome : (addSubExtendedMetadata op setsFlags).outcome = .continues := by
    cases op <;> rfl
  refine h.does hreachable hmax hmetadata (endingOf_limit hmax huntrapped houtcome)
    limit_ne_branches ?_
  intro p hplan base s g hholds
  have hplanned : RegisterAllocator.reset.planAddSubImm setsFlags op rd rn
      (slotImmediate imm3.toNat option.toNat) = some p := by
    rw [← hplan]
    simp only [RegisterAllocator.endPlan, RegisterAllocator.plan, hrd, hrn, himm, hoption, hsets]
    cases op <;> rfl
  have hlt := imm3.isLt
  exact (hholds.planAddSubImm RegisterAllocator.reset_wf (slotImmediate_lt (by omega) _) hplanned).2

theorem Succeeds.does_addSubTags (h : Succeeds input c start t entry) (hreachable : c.Reachable)
    (hgenerated : input.table.Generated) (hmax : input.maxInstructions = 1) {op : Bool}
    {rn rd : A64.Register} {uimm6 : BitVec 6} {uimm4 : BitVec 4}
    (hdecode : A64.decode (input.memory.word start) = some (.addSubTags op uimm6 uimm4 rn rd)) :
    BlockDoes t entry start fun g =>
      g.setX rd (A64.addSub op (g.x rn) (slotImmediate uimm4.toNat uimm6.toNat)).1 := by
  obtain ⟨limit, hreach, hin⟩ := h.single_reaches hmax
  obtain ⟨metadata, hmetadata⟩ := h.decodes hreach hin
  obtain ⟨rfl, hrd, hrn, himm4, himm6⟩ := decode_addSubTags hgenerated hdecode hmetadata
  have hsets : Compiler.isSettingFlags (addSubTagsMetadata op) = false := by
    cases op <;> rfl
  have huntrapped : isTrapped input.engineFlags (addSubTagsMetadata op) = false := by
    cases op <;> simp [isTrapped, addSubTagsMetadata, Metadata.nameStarts]
  have houtcome : (addSubTagsMetadata op).outcome = .continues := by
    cases op <;> rfl
  refine h.does hreachable hmax hmetadata (endingOf_limit hmax huntrapped houtcome)
    limit_ne_branches ?_
  intro p hplan base s g hholds
  have hplanned : RegisterAllocator.reset.planAddSubImm false op rd rn
      (slotImmediate uimm4.toNat uimm6.toNat) = some p := by
    rw [← hplan]
    simp only [RegisterAllocator.endPlan, RegisterAllocator.plan, hrd, hrn, himm4, himm6, hsets]
    cases op <;> rfl
  have hlt := uimm4.isLt
  exact (hholds.planAddSubImm RegisterAllocator.reset_wf (slotImmediate_lt (by omega) _) hplanned).2

/-- A conjunction with an immediate is translated only if its size field is zero and its rotation is
the number of a register, which then takes the place of the immediate. -/
theorem Succeeds.does_andImm (h : Succeeds input c start t entry) (hreachable : c.Reachable)
    (hgenerated : input.table.Generated) (hmax : input.maxInstructions = 1) {n : Bool}
    {immr imms : BitVec 6} {rn rd : A64.Register} (hrd31 : rd ≠ 31)
    (hdecode : A64.decode (input.memory.word start) = some (.logicalImm true 0 n immr imms rn rd)) :
    imms = 0 ∧ ∃ rm : A64.Register, (rm : Nat) = immr.toNat ∧
      BlockDoes t entry start fun g => g.setX rd (g.x rn &&& g.x rm) := by
  obtain ⟨hmetadata, hrd, hrn, himms, hrm⟩ := decode_andImm hgenerated hdecode
  obtain ⟨limit, hreach, hin⟩ := h.single_reaches hmax
  have huntrapped : isTrapped input.engineFlags andImmMetadata = false := by
    simp [isTrapped, andImmMetadata, Metadata.nameStarts]
  have hok : ((startState c start).compiler.translateAnd andImmMetadata
      (input.memory.word start)).Ok := h.translated hreach hin hmetadata huntrapped
  obtain ⟨-, hshift, p, hplan, -⟩ := Compiler.translateAnd_plan hok
  rw [hrd, hrn, hrm] at hplan
  have hlt : immr.toNat < 32 := by
    simp only [RegisterAllocator.planAnd, Option.bind_eq_bind, Option.bind_eq_some_iff] at hplan
    obtain ⟨n, -, m, hm, -⟩ := hplan
    exact (RegisterAllocator.allocate_cases hm).1
  refine ⟨?_, ⟨immr.toNat, hlt⟩, rfl, ?_⟩
  · apply BitVec.eq_of_toNat_eq
    rw [← himms, hshift]
    rfl
  · refine h.does hreachable hmax hmetadata (endingOf_limit hmax huntrapped rfl)
      limit_ne_branches ?_
    intro p hplan base s g hholds
    have hplanned : RegisterAllocator.reset.planAnd rd rn immr.toNat = some p := by
      rw [← hplan, ← hrd, ← hrn, ← hrm]
      rfl
    have hempty : RegisterAllocator.reset.mapped = ∅ := by
      rw [Finset.eq_empty_iff_forall_notMem]
      intro a ha
      obtain ⟨x, hx⟩ := RegisterAllocator.mem_mapped.mp ha
      cases hx
    have hpair : ({rn, ⟨immr.toNat, hlt⟩} : Finset A64.Register).card ≤ 9 :=
      Finset.card_le_two.trans (by decide)
    exact (hholds.planAnd RegisterAllocator.reset_wf hpair (by simp [hempty]) (by simp) (by simp)
      hrd31 hplanned).2

/-- Every `ORR` moves its first operand. -/
theorem Succeeds.does_orr (h : Succeeds input c start t entry) (hreachable : c.Reachable)
    (hmax : input.maxInstructions = 1) {metadata : Metadata} {rn rd : A64.Register}
    (hmetadata : balDecodeArm64 input.table (input.memory.word start) = some metadata)
    (huntrapped : isTrapped input.engineFlags metadata = false)
    (houtcome : metadata.outcome = .movesRegister)
    (hrd : Compiler.registerOperand metadata (input.memory.word start) 0 = rd)
    (hrn : Compiler.registerOperand metadata (input.memory.word start) 1 = rn) :
    BlockDoes t entry start fun g => g.setX rd (g.x rn) := by
  have hending : endingOf input 0 metadata = some (.opcode .movesRegister) := by
    rw [endingOf, if_neg (by simp [huntrapped]), if_pos (by simp [houtcome]), houtcome]
  refine h.does hreachable hmax hmetadata hending (by simp) ?_
  intro p hplan base s g hholds
  simp only [RegisterAllocator.endPlan, hrd, hrn] at hplan
  exact (hholds.planMovRegister RegisterAllocator.reset_wf hplan).2

/-! ### Where the slots agree -/

theorem extendReg_zero (option : BitVec 3) (shift : Nat) : A64.extendReg option shift 0 = 0 := by
  have hzero : ∀ width, BitVec.signExtend 64 (BitVec.ofNat width 0) = 0 := by
    intro width
    ext i hi
    simp [BitVec.getElem_signExtend]
  unfold A64.extendReg
  split
  · simp [hzero]
  · simp

theorem extendReg_one : ∀ option : BitVec 3, A64.extendReg option 0 1 = 1 := by decide

theorem BlockDoes.not_sound_addSubExtended {op setsFlags : Bool} {rm rn rd : A64.Register}
    {option imm3 : BitVec 3} (hrm : rm ≠ 31) (hrd : rd ≠ 31)
    (h : BlockDoes t entry start fun g =>
      g.writeSum setsFlags rd (A64.addSub op (g.x rn) (slotImmediate imm3.toNat option.toNat)))
    (access : A64.TagAccess) :
    ¬SoundBlock t entry start access (.addSubExtended true op setsFlags rm option imm3 rn rd) := by
  have hlt := imm3.isLt
  -- The registers are all one or all zero, so that the extended register is not the misread field.
  refine h.not_sound (fun _ => if imm3 = 0 then 1 else 0) ?_
  intro g g' hx hexec hsame
  simp only [A64.Instr.exec, A64.State.general, hrm, if_false, hx] at hexec
  split at hexec
  · cases hexec
  · cases hexec
    have hvalue := congrFun hsame rd
    change (g.writeSum setsFlags rd _).x rd = (g.writeSum setsFlags rd _).x rd at hvalue
    rw [A64.State.writeSum_x _ _ hrd, A64.State.writeSum_x _ _ hrd, hx] at hvalue
    change _ = (A64.addSub op _ _).1 at hvalue
    rw [addSub_eq_host, addSub_eq_host] at hvalue
    have hoperand := congrArg BitVec.toNat (hostResult_inj.mp hvalue)
    rw [slotImmediate_toNat (by omega)] at hoperand
    by_cases himm : imm3 = 0
    · subst himm
      rw [if_pos rfl] at hoperand
      change _ = (A64.extendReg option 0 1).toNat at hoperand
      rw [extendReg_one] at hoperand
      simp at hoperand
    · have hne : imm3.toNat ≠ 0 := fun hzero => himm (BitVec.eq_of_toNat_eq (by simpa using hzero))
      rw [if_neg himm, extendReg_zero] at hoperand
      change _ = 0 at hoperand
      split at hoperand <;> omega

theorem BlockDoes.not_sound_andImm {n : Bool} {immr : BitVec 6} {rm rn rd : A64.Register}
    (hrn : rn ≠ 31) (h : BlockDoes t entry start fun g => g.setX rd (g.x rn &&& g.x rm))
    (access : A64.TagAccess) :
    ¬SoundBlock t entry start access (.logicalImm true 0 n immr 0 rn rd) := by
  refine h.not_sound (fun _ => BitVec.allOnes 64) ?_
  intro g g' hx hexec hsame
  simp only [A64.Instr.exec, Bool.not_true, Bool.false_and, Bool.false_eq_true, if_false,
    Option.map_eq_some_iff] at hexec
  obtain ⟨mask, hmask, rfl⟩ := hexec
  have hvalue := congrFun hsame rd
  change (g.setX rd _).x rd = (g.setX rd (g.general rn &&& mask)).x rd at hvalue
  rw [A64.State.setX_self, A64.State.setX_self, A64.State.general, if_neg hrn, hx, BitVec.and_self,
    BitVec.allOnes_and] at hvalue
  rw [← hvalue] at hmask
  exact A64.decodeBitMasks_ne_allOnes n immr hmask

theorem BlockDoes.not_sound_orrImm {n : Bool} {immr imms : BitVec 6} {rn rd : A64.Register}
    (hrn : rn ≠ 31) (h : BlockDoes t entry start fun g => g.setX rd (g.x rn))
    (access : A64.TagAccess) :
    ¬SoundBlock t entry start access (.logicalImm true 1 n immr imms rn rd) := by
  refine h.not_sound (fun _ => 0) ?_
  intro g g' hx hexec hsame
  simp only [A64.Instr.exec, Bool.not_true, Bool.false_and, Bool.false_eq_true, if_false,
    Option.map_eq_some_iff] at hexec
  obtain ⟨mask, hmask, rfl⟩ := hexec
  have hvalue := congrFun hsame rd
  change (g.setX rd _).x rd = (g.setX rd (g.general rn ||| mask)).x rd at hvalue
  rw [A64.State.setX_self, A64.State.setX_self, A64.State.general, if_neg hrn, hx] at hvalue
  change 0#64 = 0#64 ||| mask at hvalue
  rw [BitVec.zero_or] at hvalue
  exact A64.decodeBitMasks_ne_zero hmask hvalue.symm

theorem shiftReg_allOnes_ne : ∀ (shift : BitVec 2) (imm6 : BitVec 6),
    A64.shiftReg shift imm6.toNat (BitVec.allOnes 64) ≠ 0 := by decide +kernel

/-- A shift by some places moves the bit at one end of the register, or rotates it. -/
theorem shiftReg_end_ne : ∀ (shift : BitVec 2) (imm6 : BitVec 6), imm6 ≠ 0 →
    let value : BitVec 64 := if shift = 0 ∨ shift = 3 then 1 else BitVec.intMin 64
    value ||| A64.shiftReg shift imm6.toNat value ≠ value := by decide +kernel

theorem shiftReg_zero (shift : BitVec 2) (x : BitVec 64) : A64.shiftReg shift 0 x = x := by
  unfold A64.shiftReg
  split
  · simp
  · split
    · simp
    · split
      · simp
      · simp [BitVec.rotateRight, BitVec.rotateRightAux]

theorem exec_orrShifted {g : A64.State} (access : A64.TagAccess) {shift : BitVec 2}
    {imm6 : BitVec 6} {rm rn rd : A64.Register} (hrm : rm ≠ 31) (hrn : rn ≠ 31) (hrd : rd ≠ 31) :
    A64.Instr.exec access g (.logicalShifted true 1 shift false rm imm6 rn rd) =
      some (g.setX rd (g.x rn ||| A64.shiftReg shift imm6.toNat (g.x rm))).advance := by
  simp [A64.Instr.exec, A64.State.general, A64.State.setGeneral, A64.logical, A64.sized,
    A64.shiftRegSized, hrm, hrn, hrd]

theorem BlockDoes.sound_orrShifted_iff {shift : BitVec 2} {imm6 : BitVec 6}
    {rm rn rd : A64.Register} (hrm : rm ≠ 31) (hrn : rn ≠ 31) (hrd : rd ≠ 31)
    (h : BlockDoes t entry start fun g => g.setX rd (g.x rn)) (access : A64.TagAccess) :
    SoundBlock t entry start access (.logicalShifted true 1 shift false rm imm6 rn rd) ↔
      rm = rn ∧ imm6 = 0 := by
  constructor
  · intro hsound
    have hmoves : ∀ x : A64.Register → BitVec 64,
        x rn = x rn ||| A64.shiftReg shift imm6.toNat (x rm) := by
      intro x
      by_contra hne
      refine h.not_sound x ?_ hsound
      intro g g' hx hexec hsame
      rw [exec_orrShifted access hrm hrn hrd] at hexec
      cases hexec
      have hvalue := congrFun hsame rd
      change (g.setX rd _).x rd = (g.setX rd _).x rd at hvalue
      rw [A64.State.setX_self, A64.State.setX_self, hx] at hvalue
      exact hne hvalue
    have hsameRegister : rm = rn := by
      by_contra hne
      have hmove := hmoves fun a => if a = rn then 0 else BitVec.allOnes 64
      rw [if_pos rfl, if_neg hne] at hmove
      change 0#64 = 0#64 ||| _ at hmove
      rw [BitVec.zero_or] at hmove
      exact shiftReg_allOnes_ne shift imm6 hmove.symm
    refine ⟨hsameRegister, ?_⟩
    by_contra himm
    exact shiftReg_end_ne shift imm6 himm (hmoves fun _ => _).symm
  · rintro ⟨rfl, rfl⟩
    refine h.sound fun g => ⟨_, exec_orrShifted access hrm hrn hrd, ?_⟩
    rw [A64.State.sameRegisters_advance, A64.State.sameRegisters_setX]
    change g.x rm = g.x rm ||| A64.shiftReg shift 0 (g.x rm)
    rw [shiftReg_zero, BitVec.or_self]

theorem hostResult_zero (op : Bool) (x : BitVec 64) : hostResult op x 0 = x := by
  cases op with
  | false => exact BitVec.add_zero x
  | true => exact BitVec.sub_zero x

/-- From zero, the misread slots and the offset agree below the tag only if both are zero. -/
theorem slotImmediate_eq_offset {op : Bool} {uimm6 : BitVec 6} {uimm4 : BitVec 4}
    (h : (hostResult op 0 (slotImmediate uimm4.toNat uimm6.toNat)).extractLsb' 0 56 =
      (hostResult op 0 (uimm6.setWidth 64 <<< 4)).extractLsb' 0 56) :
    uimm6 = 0 ∧ uimm4 = 0 := by
  have h6 := uimm6.isLt
  have h4 := uimm4.isLt
  have hslot := slotImmediate_toNat h4 uimm6.toNat
  have hoffset : (uimm6.setWidth 64 <<< 4).toNat = uimm6.toNat * 16 := by
    rw [BitVec.toNat_shiftLeft, BitVec.toNat_setWidth, Nat.shiftLeft_eq]
    omega
  have hlow := congrArg BitVec.toNat h
  rw [BitVec.extractLsb'_toNat, BitVec.extractLsb'_toNat, Nat.shiftRight_zero, Nat.shiftRight_zero]
    at hlow
  have hzero : uimm6.toNat = 0 ∧ uimm4.toNat = 0 := by
    cases op with
    | false =>
        simp only [hostResult, Bool.false_eq_true, if_false, BitVec.toNat_add, hslot, hoffset] at hlow
        change (0 + _) % 2 ^ 64 % 2 ^ 56 = (0 + _) % 2 ^ 64 % 2 ^ 56 at hlow
        split at hlow <;> omega
    | true =>
        simp only [hostResult, if_true, BitVec.toNat_sub, hslot, hoffset] at hlow
        change (_ + 0) % 2 ^ 64 % 2 ^ 56 = (_ + 0) % 2 ^ 64 % 2 ^ 56 at hlow
        split at hlow <;> omega
  exact ⟨BitVec.eq_of_toNat_eq hzero.1, BitVec.eq_of_toNat_eq hzero.2⟩

theorem BlockDoes.sound_addSubTags_iff {op : Bool} {uimm6 : BitVec 6} {uimm4 : BitVec 4}
    {rn rd : A64.Register}
    (h : BlockDoes t entry start fun g =>
      g.setX rd (A64.addSub op (g.x rn) (slotImmediate uimm4.toNat uimm6.toNat)).1)
    (access : A64.TagAccess) :
    SoundBlock t entry start access (.addSubTags op uimm6 uimm4 rn rd) ↔
      uimm6 = 0 ∧ uimm4 = 0 ∧ access.enabled = true ∧ access.exclude = 0 := by
  constructor
  · intro hsound
    have hvalues : ∀ x : BitVec 64,
        (A64.addSub op x (slotImmediate uimm4.toNat uimm6.toNat)).1 =
          A64.addSubTagged access op uimm6 uimm4 x := by
      intro x
      by_contra hne
      refine h.not_sound (fun _ => x) ?_ hsound
      intro g g' hx hexec hsame
      cases hexec
      have hvalue := congrFun hsame rd
      change (g.setX rd _).x rd = (g.setX rd _).x rd at hvalue
      rw [A64.State.setX_self, A64.State.setX_self, hx] at hvalue
      exact hne hvalue
    have hoffset := congrArg (BitVec.extractLsb' 0 56) (hvalues 0)
    simp only [A64.addSubTagged, A64.extractLsb'_withAllocationTag_low, addSub_eq_host] at hoffset
    obtain ⟨rfl, rfl⟩ := slotImmediate_eq_offset hoffset
    refine ⟨rfl, rfl, (A64.keepsTags_iff access).mp ?_⟩
    intro tag
    have htag := congrArg (BitVec.extractLsb' 56 4) (hvalues (A64.withAllocationTag 0 tag))
    simp only [A64.addSubTagged, A64.extractLsb'_withAllocationTag_tag, addSub_eq_host] at htag
    change BitVec.extractLsb' 56 4 (hostResult op (A64.withAllocationTag 0 tag) 0) = _ at htag
    rw [hostResult_zero, A64.extractLsb'_withAllocationTag_tag] at htag
    exact htag.symm
  · rintro ⟨rfl, rfl, henabled, hnone⟩
    refine h.sound fun g => ⟨_, rfl, ?_⟩
    rw [A64.State.sameRegisters_advance, A64.State.sameRegisters_setX, addSub_eq_host]
    simp only [A64.addSubTagged, addSub_eq_host,
      (A64.keepsTags_iff access).mpr ⟨henabled, hnone⟩]
    change hostResult op (g.x rn) 0 = A64.withAllocationTag (hostResult op (g.x rn) 0) _
    rw [hostResult_zero, A64.withAllocationTag_self]

/-- **Opcodes that share a translator.** A block of one such instruction that is translated does what
the instruction does exactly where the slots agree. -/
theorem Succeeds.slots_sound_iff (h : Succeeds input c start t entry) (hreachable : c.Reachable)
    (hgenerated : input.table.Generated) (hmax : input.maxInstructions = 1) {i : A64.Instr}
    (hdecode : A64.decode (input.memory.word start) = some i) (hshared : isShared i = true)
    (access : A64.TagAccess) :
    SoundBlock t entry start access i ↔ SlotsAgree access i := by
  cases i with
  | addSubExtended sf op setsFlags rm option imm3 rn rd =>
      simp only [isShared, Bool.and_eq_true, bne_iff_ne, ne_eq] at hshared
      obtain ⟨⟨⟨rfl, hrm⟩, -⟩, hrd⟩ := hshared
      exact iff_of_false
        ((h.does_addSubExtended hreachable hgenerated hmax hdecode).not_sound_addSubExtended hrm hrd
          access) id
  | logicalImm sf opc n immr imms rn rd =>
      simp only [isShared, Bool.and_eq_true, Bool.or_eq_true, beq_iff_eq, bne_iff_ne, ne_eq]
        at hshared
      obtain ⟨⟨⟨rfl, rfl | rfl⟩, hrn⟩, hrd⟩ := hshared
      · obtain ⟨rfl, rm, hrm, hdoes⟩ := h.does_andImm hreachable hgenerated hmax hrd hdecode
        refine iff_of_false (hdoes.not_sound_andImm hrn access) ?_
        rintro ⟨-, hsize | hrotation⟩
        · exact hsize rfl
        · have hlt := rm.isLt
          omega
      · obtain ⟨hmetadata, hrd', hrn'⟩ := decode_orrImm hgenerated hdecode
        have hdoes := h.does_orr hreachable hmax hmetadata
          (by simp [isTrapped, orrImmMetadata, Metadata.nameStarts]) rfl hrd' hrn'
        exact iff_of_false (hdoes.not_sound_orrImm hrn access) (by simp [SlotsAgree])
  | logicalShifted sf opc shift n rm imm6 rn rd =>
      simp only [isShared, Bool.and_eq_true, beq_iff_eq, bne_iff_ne, ne_eq, Bool.not_eq_true']
        at hshared
      obtain ⟨⟨⟨⟨⟨rfl, rfl⟩, rfl⟩, hrm⟩, hrn⟩, hrd⟩ := hshared
      obtain ⟨hmetadata, hrd', hrn'⟩ := decode_orrShifted hgenerated hdecode
      have hdoes := h.does_orr hreachable hmax hmetadata
        (by simp [isTrapped, orrShiftedMetadata, Metadata.nameStarts]) rfl hrd' hrn'
      exact hdoes.sound_orrShifted_iff hrm hrn hrd access
  | addSubTags op uimm6 uimm4 rn rd =>
      exact (h.does_addSubTags hreachable hgenerated hmax hdecode).sound_addSubTags_iff access
  | _ => cases hshared

end Classes

/-- `ADD X0, X1, X0, UXTX`: the translator of immediates finds zero in its slots, and `X0` becomes
two. -/
theorem misread_addExtended : ∃ t u g,
    Succeeds (.ofWords 0x1000 [0x8B206020] 1) (.fresh 256) 0x1000 t 0 ∧
      A64.decode 0x8B206020 = some (.addSubExtended true false false 0 3 0 1 0) ∧
      isShared (.addSubExtended true false false 0 3 0 1 0) = true ∧
      Call smallRecord 0 0 ∧ runToRet t.compiler.assembler.buffer 40 smallRecord = some u ∧
      (A64.Instr.addSubExtended true false false 0 3 0 1 0).exec ⟨false, 0⟩
        { cpuState smallRecord.memory 0 with pc := 0x1000 } = some g ∧
      g.x 0 = 3 ∧ (cpuState u.memory 0).x 0 = 2 := by
  obtain ⟨t, htranslate, h⟩ := succeeds_of_eval (.ofWords 0x1000 [0x8B206020] 1) (.fresh 256)
    0x1000 6 (show _ = some 0 by decide)
  have hrun : ((balTier1CompilerTranslate (.ofWords 0x1000 [0x8B206020] 1) (.fresh 256) 0x1000
      6).bind fun t => (runToRet t.compiler.assembler.buffer 40 smallRecord).map
        fun u => (cpuState u.memory 0).x 0) = some 2 := by
    decide
  rw [htranslate, Option.bind_some, Option.map_eq_some_iff] at hrun
  obtain ⟨u, hrun, hx⟩ := hrun
  exact ⟨t, u, _, h, by decide, by decide, smallRecord_call, hrun, rfl, by decide, hx⟩

end Ballistic
