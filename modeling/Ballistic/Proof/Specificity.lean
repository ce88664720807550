import Ballistic.Proof.Tables
import Mathlib.Algebra.BigOperators.Intervals
import Mathlib.Algebra.BigOperators.Fin

/-!
# Priorities and the most specific encoding

The priority of a descriptor is counted by a loop that runs while the remaining mask is positive. A
mask that fixes bit 31 is negative from the start, so its priority is 0; for every other mask it is
the number of fixed bits. Between two matching descriptors with nested masks the larger mask comes
first exactly if it does not fix bit 31.
-/

namespace Ballistic

/-! ### The loop -/

def fixedBitCount (mask : BitVec 32) : Nat := ((Finset.range 32).filter fun i => mask.getLsbD i).card

theorem fixedBitCount_step (mask : BitVec 32) :
    fixedBitCount mask = (mask &&& 1#32).toNat + fixedBitCount (mask >>> 1) := by
  have hlow : (mask &&& 1#32).toNat = if mask.getLsbD 0 = true then 1 else 0 := by
    rw [BitVec.toNat_and, BitVec.toNat_ofNat, Nat.and_one_is_mod, BitVec.getLsbD,
      Nat.testBit_zero]
    rcases Nat.mod_two_eq_zero_or_one mask.toNat with h | h <;> simp [h]
  have hhigh : (mask >>> 1).getLsbD 31 = false := by
    rw [BitVec.getLsbD_ushiftRight]
    exact BitVec.getLsbD_of_ge _ _ (by decide)
  rw [fixedBitCount, fixedBitCount, Finset.card_filter, Finset.card_filter,
    Finset.sum_range_succ', Finset.sum_range_succ _ 31, hlow, hhigh]
  simp only [BitVec.getLsbD_ushiftRight, Nat.add_comm 1]
  simp [Nat.add_comm]

theorem fixedBitCount_zero : fixedBitCount 0 = 0 := by decide

theorem countPriority_of_clear (tmp : BitVec 32) (priority : Nat) (hclear : tmp.msb = false) :
    countPriority tmp priority = priority + fixedBitCount tmp := by
  induction tmp, priority using countPriority.induct with
  | case1 tmp priority hpos ih =>
      have hshift : (tmp >>> 1).msb = false := by simp
      rw [countPriority, if_pos hpos, ih hshift, fixedBitCount_step tmp]
      omega
  | case2 tmp priority hpos =>
      have hzero : tmp = 0 := by
        rw [BitVec.toInt_eq_toNat_of_msb hclear] at hpos
        exact BitVec.eq_of_toNat_eq (by simpa using hpos)
      rw [countPriority, if_neg hpos, hzero, fixedBitCount_zero, Nat.add_zero]

theorem countPriority_of_set (tmp : BitVec 32) (priority : Nat) (hset : tmp.msb = true) :
    countPriority tmp priority = priority := by
  have hneg := BitVec.toInt_neg_of_msb_true hset
  rw [countPriority, if_neg (by omega)]

theorem fixedBitCount_lt {a b : BitVec 32} (hsub : a &&& b = b) (hne : a ≠ b) :
    fixedBitCount b < fixedBitCount a := by
  have hbits : ∀ i, b.getLsbD i = true → a.getLsbD i = true := by
    intro i hi
    rw [← hsub, BitVec.getLsbD_and, Bool.and_eq_true] at hi
    exact hi.1
  refine Finset.card_lt_card (Finset.ssubset_iff_subset_ne.mpr ⟨fun i hi => ?_, fun heq => hne ?_⟩)
  · rw [Finset.mem_filter] at hi ⊢
    exact ⟨hi.1, hbits i hi.2⟩
  · apply BitVec.eq_of_getLsbD_eq
    intro i hi
    rw [Bool.eq_iff_iff]
    refine ⟨fun ha => ?_, hbits i⟩
    have hmem : i ∈ (Finset.range 32).filter fun i => a.getLsbD i = true :=
      Finset.mem_filter.mpr ⟨Finset.mem_range.mpr hi, ha⟩
    rw [← heq, Finset.mem_filter] at hmem
    exact hmem.2

theorem fixedBitCount_pos {mask : BitVec 32} (hset : mask.msb = true) : 0 < fixedBitCount mask := by
  refine Finset.card_pos.mpr ⟨31, Finset.mem_filter.mpr ⟨by decide, ?_⟩⟩
  simpa [BitVec.msb_eq_getLsbD_last] using hset

/-! ### The order of nested masks -/

/-- A descriptor that `parse_xml_file` can make. -/
def Extracted (d : Descriptor) : Prop :=
  ∃ classBoxes encodingBoxes,
    extractInstruction d.mnemonic d.operands classBoxes encodingBoxes = some d

theorem Extracted.priority_eq {d : Descriptor} (h : Extracted d) :
    d.priority = countPriority d.mask 0 := by
  obtain ⟨classBoxes, encodingBoxes, hextract⟩ := h
  obtain ⟨c, -, hencoding⟩ := Option.bind_eq_some_iff.mp hextract
  obtain ⟨e, -, hd⟩ := Option.map_eq_some_iff.mp hencoding
  rw [← hd]

/-- The mask of `a` is a strict superset of the mask of `b`. -/
def Refines (a b : Descriptor) : Prop := a.mask &&& b.mask = b.mask ∧ a.mask ≠ b.mask

theorem Refines.rank_lt {a b : Descriptor} (h : Refines a b) (ha : Extracted a) (hb : Extracted b)
    (hclear : a.mask.msb = false) : a.rank < b.rank := by
  have hclear' : b.mask.msb = false := by
    have hmsb := congrArg BitVec.msb h.1
    rw [BitVec.msb_and, hclear, Bool.false_and] at hmsb
    exact hmsb.symm
  have hlt := fixedBitCount_lt h.1 h.2
  rw [Descriptor.rank, Descriptor.rank, Prod.Lex.toLex_lt_toLex]
  left
  rw [OrderDual.toDual_lt_toDual, ha.priority_eq, hb.priority_eq,
    countPriority_of_clear _ _ hclear, countPriority_of_clear _ _ hclear']
  simpa using hlt

/-! ### The descriptor that is returned -/

section MostSpecific

variable (table : TableSort Descriptor.precedes) (instructions : List Descriptor) (w : BitVec 32)

/-- No descriptor is returned for `w` that a matching descriptor refines. -/
def MostSpecificWins : Prop :=
  ∀ a ∈ instructions, ∀ b ∈ instructions, a.matchesWord w = true → b.matchesWord w = true →
    Refines a b → balDecodeArm64 (generateFiles table instructions).decoderTable w ≠ some b.metadata

/-- Where a matching descriptor that fixes bit 31 refines another, a third one comes first. -/
def Overtaken : Prop :=
  ∀ a ∈ instructions, ∀ b ∈ instructions, a.matchesWord w = true → b.matchesWord w = true →
    Refines a b → a.mask.msb = true →
      ∃ c ∈ instructions, c.matchesWord w = true ∧ c.precedes b = true

/-- **Most specific encoding wins.** The priority is the number of fixed bits exactly if bit 31 is
not fixed, and for a word the most specific encoding wins exactly if every descriptor that one with
bit 31 fixed refines is overtaken by a third. -/
theorem mostSpecificWins_iff (hextracted : ∀ d ∈ instructions, Extracted d)
    (hfits : FitsArrays table instructions) :
    (∀ d ∈ instructions, d.priority = fixedBitCount d.mask ↔ d.mask.msb = false) ∧
    (MostSpecificWins table instructions w ↔ Overtaken instructions w) := by
  refine ⟨fun d hd => ?_, fun hwins a ha b hb hamatch hbmatch hrefines _ => ?_,
    fun hovertaken a ha b hb hamatch hbmatch hrefines hdecode => ?_⟩
  · rw [(hextracted d hd).priority_eq]
    cases hmsb : d.mask.msb with
    | true =>
        have hpos := fixedBitCount_pos hmsb
        rw [countPriority_of_set _ _ hmsb]
        simp only [Bool.true_eq_false, iff_false]
        omega
    | false => simp [countPriority_of_clear _ _ hmsb]
  · by_contra hnone
    obtain ⟨d, hd, hdecode, hdmatch, hleast⟩ := exists_decode hfits hb hbmatch
    have htie : d.rank = b.rank := by
      refine le_antisymm (hleast b hb hbmatch) (not_lt.mp fun hlt => hnone ?_)
      exact ⟨d, hd, hdmatch, Descriptor.precedes_iff.mpr hlt⟩
    have hmask := (Prod.mk.inj (Descriptor.fixedBits_eq_of_rank_eq htie)).1
    refine hwins a ha d hd hamatch hdmatch ?_ hdecode
    rwa [Refines, hmask]
  · obtain ⟨d, hd, hdecode', hdmatch, hleast⟩ := exists_decode hfits hb hbmatch
    have hmeta : d.metadata = b.metadata := Option.some.inj (hdecode'.symm.trans hdecode)
    have hmask : d.mask = b.mask := congrArg Metadata.mask hmeta
    have hvalue : d.value = b.value := congrArg Metadata.expected hmeta
    have htie : d.rank = b.rank := by
      rw [Descriptor.rank, Descriptor.rank, (hextracted d hd).priority_eq,
        (hextracted b hb).priority_eq, hmask, hvalue]
    cases hmsb : a.mask.msb with
    | true =>
        obtain ⟨c, hc, hcmatch, hbefore⟩ :=
          hovertaken a ha b hb hamatch hbmatch hrefines hmsb
        exact absurd (hleast c hc hcmatch) (not_le.mpr (htie ▸ Descriptor.precedes_iff.mp hbefore))
    | false =>
        have hlt := hrefines.rank_lt (hextracted a ha) (hextracted b hb) hmsb
        exact absurd (hleast a ha hamatch) (not_le.mpr (htie ▸ hlt))

end MostSpecific

/-- A box of literal cells. -/
def literalBox (hibit : Nat) (text : List Char) : Box :=
  ⟨some hibit, some text.length, text.map fun c => ⟨[c], 1⟩⟩

/-- The boxes that `HINT` and `NOP` have in common. -/
def hintSpace (crm op2 : Box) : List Box :=
  [literalBox 31 ['1', '1', '0', '1', '0', '1', '0', '1', '0', '0'], literalBox 21 ['0'],
    literalBox 20 ['0', '0'], literalBox 18 ['0', '1', '1'], literalBox 15 ['0', '0', '1', '0'],
    crm, op2, literalBox 4 ['1', '1', '1', '1', '1']]

def hintDescriptor : Descriptor := ⟨['H', 'I', 'N', 'T'], 0xFFFFF01F, 0xD503201F, 0, []⟩

def nopDescriptor : Descriptor := ⟨['N', 'O', 'P'], 0xFFFFFFFF, 0xD503201F, 0, []⟩

theorem extracted_of_processBoxes {mnemonic : List Char} {boxes : List Box} {mask value : BitVec 32}
    (h : processBoxes boxes 0 0 = some (mask, value)) (hset : mask.msb = true) :
    Extracted ⟨mnemonic, mask, value, 0, []⟩ := by
  refine ⟨boxes, [], ?_⟩
  simp only [extractInstruction, h, Option.bind_some, processBoxes, Option.map_some,
    countPriority_of_set mask 0 hset]

theorem extracted_hint : Extracted hintDescriptor :=
  extracted_of_processBoxes
    (show processBoxes (hintSpace ⟨some 11, some 4, [⟨[], 4⟩]⟩ ⟨some 7, some 3, [⟨[], 3⟩]⟩) 0 0 =
      some (0xFFFFF01F, 0xD503201F) by decide) (by decide)

theorem extracted_nop : Extracted nopDescriptor :=
  extracted_of_processBoxes
    (show processBoxes (hintSpace (literalBox 11 ['0', '0', '0', '0'])
      (literalBox 7 ['0', '0', '0'])) 0 0 = some (0xFFFFFFFF, 0xD503201F) by decide) (by decide)

theorem extracted_hint_nop : ∀ d ∈ [nopDescriptor, hintDescriptor], Extracted d := by
  intro d hd
  rcases List.mem_pair.mp hd with rfl | rfl
  · exact extracted_nop
  · exact extracted_hint

theorem mostSpecificWins_iff_nop :
    (∀ d ∈ [nopDescriptor, hintDescriptor],
      d.priority = fixedBitCount d.mask ↔ d.mask.msb = false) ∧
    (MostSpecificWins mergeSortTable [nopDescriptor, hintDescriptor] 0xD503201F ↔
      Overtaken [nopDescriptor, hintDescriptor] 0xD503201F) :=
  mostSpecificWins_iff mergeSortTable _ _ extracted_hint_nop (fitsArrays_of_length_le (by decide))

/-- The word of `NOP` is decoded as `HINT`. -/
theorem hint_shadows_nop :
    (∀ d ∈ [nopDescriptor, hintDescriptor], Extracted d) ∧
    balDecodeArm64 (generateFiles mergeSortTable [nopDescriptor, hintDescriptor]).decoderTable
      0xD503201F = some hintDescriptor.metadata ∧
    ¬MostSpecificWins mergeSortTable [nopDescriptor, hintDescriptor] 0xD503201F := by
  have hfits : FitsArrays mergeSortTable [nopDescriptor, hintDescriptor] :=
    fitsArrays_of_length_le (by decide)
  have hdecode : balDecodeArm64
      (generateFiles mergeSortTable [nopDescriptor, hintDescriptor]).decoderTable 0xD503201F =
        some hintDescriptor.metadata := by
    obtain ⟨d, hd, hdecode, -, hleast⟩ := exists_decode hfits (a := hintDescriptor)
      (w := 0xD503201F) (by simp) (by decide)
    rcases List.mem_pair.mp hd with rfl | rfl
    · have hbefore : hintDescriptor.precedes nopDescriptor = true := by decide
      exact absurd (hleast hintDescriptor (by simp) (by decide))
        (not_le.mpr (Descriptor.precedes_iff.mp hbefore))
    · exact hdecode
  refine ⟨extracted_hint_nop, hdecode, fun hwins => ?_⟩
  exact hwins nopDescriptor (by simp) hintDescriptor (by simp) (by decide) (by decide)
    ⟨by decide, by decide⟩ hdecode

end Ballistic
