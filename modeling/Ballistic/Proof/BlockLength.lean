import Ballistic.Proof.Straight

/-!
# How long a block gets

The limit on the number of instructions is compared with the place in the readable range, and the place
starts again at zero with every range. So it only binds a block that stays in its first range.
-/

namespace Ballistic

open Machine Machine.X86

section Length

variable {input : TranslateInput} {c : Compiler} {start : Address} {t : Translation} {entry : Nat}
  {s : LoopState}

/-- The address of the `n`th word from `start` on. -/
def wordAddress (start : Address) (n : Nat) : Address := start + BitVec.ofNat 64 (4 * n)

theorem wordAddress_zero (start : Address) : wordAddress start 0 = start := BitVec.add_zero start

theorem wordAddress_succ (start : Address) (n : Nat) :
    wordAddress start n + 4 = wordAddress start (n + 1) := by
  rw [wordAddress, wordAddress, Nat.mul_succ, BitVec.ofNat_add, BitVec.add_assoc]
  rfl

/-- The word at `a` is trapped. -/
def TrapsAt (input : TranslateInput) (a : Address) : Prop :=
  ∃ metadata, balDecodeArm64 input.table (input.memory.word a) = some metadata ∧
    isTrapped input.engineFlags metadata = true

/-- The word at `a` ends a block, wherever it is in its range. -/
def EndsBlocks (input : TranslateInput) (a : Address) : Prop :=
  ∃ metadata, balDecodeArm64 input.table (input.memory.word a) = some metadata ∧
    (isTrapped input.engineFlags metadata = true ∨ metadata.outcome ≠ .continues)

/-- What keeps the block at `start` within the limit: a first range that is long enough, or an end of
its own among the words before the limit; a trapped word is not counted and may lie at the limit. -/
def KeepsLimit (input : TranslateInput) (start : Address) : Prop :=
  (∃ bytes, input.memory.translate start = some bytes ∧ input.maxInstructions ≤ bytes / 4) ∨
    (∃ n < input.maxInstructions, EndsBlocks input (wordAddress start n)) ∨
      TrapsAt input (wordAddress start input.maxInstructions)

/-- The instructions that are counted at a point of the loops: the words from the start on, none of
which ends the block, and the range that the loops are in. -/
structure Counted (input : TranslateInput) (start : Address) (p : LoopPoint) (s : LoopState) :
    Prop where
  address : s.guestAddress = wordAddress start s.armInstructionCount
  before : ∀ n < s.armInstructionCount, ¬EndsBlocks input (wordAddress start n)
  range : ∀ {i limit}, p = .forTest i limit → ∃ first bytes, s.armInstructionCount = first + i ∧
    input.memory.translate (wordAddress start first) = some bytes ∧
    limit = min (bytes / 4) input.maxInstructions

theorem not_endsBlocks {metadata : Metadata} {a : Address}
    (hdecode : balDecodeArm64 input.table (input.memory.word a) = some metadata)
    (huntrapped : isTrapped input.engineFlags metadata = false)
    (houtcome : metadata.outcome = .continues) : ¬EndsBlocks input a := by
  rintro ⟨metadata', hdecode', hends⟩
  rw [hdecode] at hdecode'
  cases hdecode'
  rcases hends with htrapped | hends
  · rw [huntrapped] at htrapped
    cases htrapped
  · exact hends houtcome

theorem Succeeds.counted (h : Succeeds input c start t entry) {p : LoopPoint}
    (hreach : Reaches input c start p s) (hrunning : Running input start p s) :
    Counted input start p s := by
  refine h.pointInduction ?_ ?_ ?_ ?_ hreach hrunning
  · exact ⟨(wordAddress_zero start).symm, fun n hn => absurd hn (Nat.not_lt_zero n), nofun⟩
  · intro s bytes hs hreadable
    refine ⟨hs.address, hs.before, fun hpoint => ?_⟩
    obtain ⟨rfl, rfl⟩ := LoopPoint.forTest.inj hpoint
    exact ⟨s.armInstructionCount, bytes, rfl, hs.address ▸ hreadable.1, rfl⟩
  · intro i limit s hs hout
    exact ⟨hs.address, hs.before, nofun⟩
  · intro i limit s s' metadata plan _ _ hs hin hdecode hmore _ _ hcounts
    obtain ⟨huntrapped, houtcome, -⟩ := endingOf_none hmore
    have hcount : s'.armInstructionCount = s.armInstructionCount + 1 := hcounts.count_eq
    refine ⟨?_, fun n hn => ?_, fun hpoint => ?_⟩
    · simp only [hcount, hs.address, wordAddress_succ]
    · simp only [hcount] at hn
      rcases Nat.lt_succ_iff_lt_or_eq.mp hn with hn | rfl
      · exact hs.before n hn
      · rw [← hs.address]
        exact not_endsBlocks hdecode huntrapped houtcome
    · obtain ⟨rfl, rfl⟩ := LoopPoint.forTest.inj hpoint
      obtain ⟨first, bytes, hfirst, htranslate, hlimit⟩ := hs.range rfl
      exact ⟨first, bytes, by simp only [hcount]; omega, htranslate, hlimit⟩

/-- The loops are in the first range, at as many instructions as they have counted. -/
def InFirstRange (input : TranslateInput) (start : Address) : LoopPoint → LoopState → Prop
  | .whileTest, s => s.armInstructionCount = 0 ∧ s.guestAddress = start
  | .forTest i limit, s => s.armInstructionCount = i ∧ i < limit ∧ limit = input.maxInstructions

/-- The loops stay in a first range that is long enough. -/
theorem Succeeds.inFirstRange (h : Succeeds input c start t entry) {bytes : Nat}
    (htranslate : input.memory.translate start = some bytes)
    (hlong : input.maxInstructions ≤ bytes / 4) {p : LoopPoint} (hreach : Reaches input c start p s)
    (hrunning : Running input start p s) : InFirstRange input start p s := by
  have hmax := h.max_ne_zero
  refine h.pointInduction ⟨rfl, rfl⟩ ?_ ?_ ?_ hreach hrunning
  · rintro s bytes' ⟨hcount, haddress⟩ hreadable
    have hbytes := hreadable.1
    rw [haddress, htranslate] at hbytes
    cases hbytes
    exact ⟨hcount, by omega, by omega⟩
  · rintro i limit s ⟨-, hin, -⟩ hout
    exact absurd hin hout
  · rintro i limit s s' metadata plan - - ⟨hcount, hin, hlimit⟩ - hdecode hmore - - hcounts
    have hplace := (endingOf_none hmore).2.2
    have hcount' : s'.armInstructionCount = s.armInstructionCount + 1 := hcounts.count_eq
    refine ⟨?_, by omega, hlimit⟩
    simp only
    omega

theorem LeavesAt.count_eq {s0 : LoopState} {metadata : Metadata} {ending : Ending}
    (h : LeavesAt input s0 metadata ending s) :
    s.armInstructionCount =
      if ending = .trapped then s0.armInstructionCount else s0.armInstructionCount + 1 := by
  unfold LeavesAt at h
  split at h
  · rw [h, if_pos rfl]
    rfl
  · next hother =>
      obtain ⟨-, s', hcounts, rfl⟩ := h
      rw [if_neg (fun heq => hother heq)]
      change s'.armInstructionCount = _
      rw [hcounts.count_eq, LoopState.translateOpcode_count]

/-- **The length of a block.** It is within the limit exactly if the first range holds as many words
as the limit allows, or the block ends by itself before. -/
theorem Succeeds.count_le_iff (h : Succeeds input c start t entry) (hfinal : Final input c start t s) :
    s.armInstructionCount ≤ input.maxInstructions ↔ KeepsLimit input start := by
  obtain ⟨s0, metadata, ending, hended⟩ := h.endedAt hfinal
  have hcount := hended.leaves.count_eq
  obtain ⟨i, limit, hreach, hrunning, hin, hending⟩ := hended.before
  have hcounted := h.counted hreach hrunning
  have hdecode := hended.decodes
  rw [hcounted.address] at hdecode
  have hbefore : ∀ {n}, EndsBlocks input (wordAddress start n) → s0.armInstructionCount ≤ n :=
    fun {n} hends => Nat.le_of_not_lt fun hn => hcounted.before n hn hends
  constructor
  · intro hle
    obtain ⟨htrapped, rfl⟩ | ⟨-, houtcome, rfl⟩ | ⟨-, -, hplace, rfl⟩ := endingOf_some hending
    · rw [if_pos rfl] at hcount
      rcases Nat.lt_or_ge s0.armInstructionCount input.maxInstructions with hlt | hge
      · exact .inr (.inl ⟨_, hlt, metadata, hdecode, .inl htrapped⟩)
      · refine .inr (.inr ⟨metadata, ?_, htrapped⟩)
        rwa [show input.maxInstructions = s0.armInstructionCount by omega]
    · rw [if_neg nofun] at hcount
      exact .inr (.inl ⟨s0.armInstructionCount, by omega, metadata, hdecode, .inr houtcome⟩)
    · -- The limit is the place in a range, so this range is the first one.
      rw [if_neg nofun] at hcount
      obtain ⟨first, bytes, hfirst, htranslate, hlimit⟩ := hcounted.range rfl
      obtain rfl : first = 0 := by omega
      rw [wordAddress_zero] at htranslate
      exact .inl ⟨bytes, htranslate, by omega⟩
  · have hsucc : s.armInstructionCount ≤ s0.armInstructionCount + 1 := by
      rw [hcount]
      split <;> omega
    rintro (⟨bytes, htranslate, hlong⟩ | ⟨n, hn, hends⟩ | ⟨metadata', hdecode', htrapped⟩)
    · obtain ⟨hplace, hlt, hlimit⟩ := h.inFirstRange htranslate hlong hreach hrunning
      omega
    · have hle := hbefore hends
      omega
    · have hle := hbefore ⟨metadata', hdecode', .inl htrapped⟩
      rcases Nat.lt_or_ge s0.armInstructionCount input.maxInstructions with hlt | hge
      · omega
      · have hsame : s0.armInstructionCount = input.maxInstructions := by omega
        rw [hsame, hdecode'] at hdecode
        cases hdecode
        have htrap : ending = .trapped := by
          rw [endingOf, if_pos htrapped] at hending
          exact (Option.some.inj hending).symm
        rw [if_pos htrap] at hcount
        omega

end Length

/-- `MOVZ X0, #5`, then `RET`, with a limit of two instructions. -/
theorem count_le_iff_movz : ∃ t, ∃ s : LoopState,
    Succeeds (.ofWords 0x1000 [0xD28000A0, 0xD65F03C0] 2) (.fresh 256) 0x1000 t 0 ∧
    Final (.ofWords 0x1000 [0xD28000A0, 0xD65F03C0] 2) (.fresh 256) 0x1000 t s ∧
      s.armInstructionCount ≤ 2 := by
  obtain ⟨t, -, h⟩ := succeeds_of_eval (.ofWords 0x1000 [0xD28000A0, 0xD65F03C0] 2) (.fresh 256)
    0x1000 6 (show _ = some 0 by decide)
  obtain ⟨-, ⟨s, hfinal⟩, -⟩ := h.final
  exact ⟨t, s, h, hfinal, (h.count_le_iff hfinal).mpr (.inl ⟨8, by decide, by decide⟩)⟩

/-- The same interface, which only gives out one word at a time. -/
def TranslateInput.wordByWord (input : TranslateInput) : TranslateInput :=
  { input with memory := { input.memory with
      translate := fun a => (input.memory.translate a).map fun bytes => min bytes 4 } }

/-- Two moves and a `RET`, read word by word: three instructions in spite of a limit of two. -/
theorem exceeds_limit : ∃ t, ∃ s : LoopState,
    Succeeds (TranslateInput.wordByWord (.ofWords 0x1000 [0xD28000A0, 0xD28000A0, 0xD65F03C0] 2))
      (.fresh 256) 0x1000 t 0 ∧
    Final (TranslateInput.wordByWord (.ofWords 0x1000 [0xD28000A0, 0xD28000A0, 0xD65F03C0] 2))
      (.fresh 256) 0x1000 t s ∧ ¬s.armInstructionCount ≤ 2 := by
  obtain ⟨t, -, h⟩ := succeeds_of_eval
    (TranslateInput.wordByWord (.ofWords 0x1000 [0xD28000A0, 0xD28000A0, 0xD65F03C0] 2)) (.fresh 256)
    0x1000 12 (show _ = some 0 by decide)
  obtain ⟨-, ⟨s, hfinal⟩, -⟩ := h.final
  have hcount : (runLoops (TranslateInput.wordByWord
      (.ofWords 0x1000 [0xD28000A0, 0xD28000A0, 0xD65F03C0] 2)) 0x1000 0 12 .whileTest
      (startState (.fresh 256) 0x1000)).map (·.armInstructionCount) = some 3 := by decide
  obtain ⟨s', hrun, hcount⟩ := Option.map_eq_some_iff.mp hcount
  refine ⟨t, s, h, hfinal, ?_⟩
  rw [← hfinal.runLoops_eq hrun, hcount]
  decide

end Ballistic
