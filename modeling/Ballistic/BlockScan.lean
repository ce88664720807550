import Mathlib.Logic.Relation
import Ballistic.Tier1Compiler

/-!
# Which instructions a block visits

The guest side of a translation: which words the two loops of `bal_tier1_compiler_translate` visit,
and at which one the block ends, as a matter of the guest memory, the decoder table and the engine
flags alone. No compiler state is involved, so a condition stated here is a condition on the inputs.
-/

namespace Ballistic

open Machine

/-- What the opcode switch makes of an instruction that it does not refuse. -/
inductive Outcome where
  /-- Translated, and the block goes on. -/
  | continues
  /-- Not translated: an unsupported variant ends the block. -/
  | stops
  /-- A register move: translated, and then the block ends as for an unsupported variant. -/
  | movesRegister
  /-- An unconditional branch: the block ends at its target. -/
  | jumps
  /-- A return: the block ends with a program counter read from a register. -/
  | returns
  /-- A conditional branch, with the ends of the block inside its translation. -/
  | branches
  /-- Refused: the compilation fails. -/
  | fails
  deriving DecidableEq, Repr

/-- The opcode switch of `bal_tier1_compiler_translate`, without the translators. -/
def Metadata.outcome (metadata : Metadata) : Outcome :=
  match metadata.irOpcode with
  | .mov =>
      let variant := metadata.nameAt 3
      if variant = 'N' ∨ variant = 'K' ∨ variant = 'Z' then .continues
      else if isRegister (metadata.operand 1) then .movesRegister
      else .stops
  | .add | .sub | .cmp =>
      if isRegister (metadata.operand 3) then .continues
      else if (metadata.operand 2).type = .immediate then .continues
      else .stops
  | .jump => .jumps
  | .branchZero | .branchNotZero | .branchConditional => .branches
  | .return => .returns
  | .and => .continues
  | .trap | .load | .store | .xor | .mul | .div | .callHost => .fails

/-- Why a block ends at an instruction. -/
inductive Ending where
  | trapped
  | opcode (outcome : Outcome)
  | limit
  deriving DecidableEq, Repr

/-- Steps that are determined lead to one place where they stop. -/
theorem eq_of_stuck {α : Type} {step : α → α → Prop} (hunique : Relator.RightUnique step) {x y z : α}
    (hy : Relation.ReflTransGen step x y) (hz : Relation.ReflTransGen step x z)
    (hstuck : ∀ w, ¬step y w) (hstuck' : ∀ w, ¬step z w) : y = z := by
  rcases Relation.ReflTransGen.total_of_right_unique hunique hy hz with hon | hon
  · rcases Relation.ReflTransGen.cases_head hon with heq | ⟨w, hstep, -⟩
    · exact heq
    · exact absurd hstep (hstuck w)
  · rcases Relation.ReflTransGen.cases_head hon with heq | ⟨w, hstep, -⟩
    · exact heq.symm
    · exact absurd hstep (hstuck' w)

section Scan

variable (input : TranslateInput) (start : Address)

/-- Why the block ends at an instruction, `i` being its place in the range of words it is read from;
none if the block goes on. -/
def endingOf (i : Nat) (metadata : Metadata) : Option Ending :=
  if isTrapped input.engineFlags metadata then some .trapped
  else if metadata.outcome ≠ .continues then some (.opcode metadata.outcome)
  else if i + 1 = input.maxInstructions then some .limit
  else none

variable {input} in
theorem endingOf_none {i : Nat} {metadata : Metadata} (h : endingOf input i metadata = none) :
    isTrapped input.engineFlags metadata = false ∧ metadata.outcome = .continues ∧
      i + 1 ≠ input.maxInstructions := by
  unfold endingOf at h
  split at h
  · cases h
  · next htrapped =>
      split at h
      · cases h
      · next houtcome =>
          split at h
          · cases h
          · next hlimit => exact ⟨Bool.eq_false_iff.mpr htrapped, not_not.mp houtcome, hlimit⟩

variable {input} in
/-- The three ways in which an instruction ends a block. -/
theorem endingOf_some {i : Nat} {metadata : Metadata} {ending : Ending}
    (h : endingOf input i metadata = some ending) :
    (isTrapped input.engineFlags metadata = true ∧ ending = .trapped) ∨
      (isTrapped input.engineFlags metadata = false ∧ metadata.outcome ≠ .continues ∧
        ending = .opcode metadata.outcome) ∨
      (isTrapped input.engineFlags metadata = false ∧ metadata.outcome = .continues ∧
        i + 1 = input.maxInstructions ∧ ending = .limit) := by
  unfold endingOf at h
  split at h
  · next htrapped => exact .inl ⟨htrapped, (Option.some.inj h).symm⟩
  · next htrapped =>
      have htrapped := Bool.eq_false_iff.mpr htrapped
      split at h
      · next houtcome => exact .inr (.inl ⟨htrapped, houtcome, (Option.some.inj h).symm⟩)
      · next houtcome =>
          split at h
          · next hlimit =>
              exact .inr (.inr ⟨htrapped, not_not.mp houtcome, hlimit, (Option.some.inj h).symm⟩)
          · cases h

/-- The checks on the answer of the memory interface, before the words are read. -/
def Readable (a : Address) (bytes : Nat) : Prop :=
  input.memory.translate a = some bytes ∧ bytes / 4 ≠ 0 ∧
    ¬(input.engineFlags.has EngineFlags.strictAlignment ∧ a.toNat % 4 ≠ 0)

/-- One move of the loops between two guest addresses, as long as the block goes on. -/
inductive ScanMove : LoopPoint × Address → LoopPoint × Address → Prop
  | readable {a : Address} {bytes : Nat} (hreadable : Readable input a bytes) :
      ScanMove (.whileTest, a) (.forTest 0 (min (bytes / 4) input.maxInstructions), a)
  | next {i limit : Nat} {a : Address} {metadata : Metadata} (hin : i < limit)
      (hdecode : balDecodeArm64 input.table (input.memory.word a) = some metadata)
      (hmore : endingOf input i metadata = none) :
      ScanMove (.forTest i limit, a) (.forTest (i + 1) limit, a + 4)
  | exhausted {i limit : Nat} {a : Address} (hout : ¬i < limit) :
      ScanMove (.forTest i limit, a) (.whileTest, a)

/-- The loops of a translation from `start` come to stand at a point with the given guest address,
the block going on at every instruction before it. -/
def Scans (p : LoopPoint) (a : Address) : Prop :=
  Relation.ReflTransGen (ScanMove input) (.whileTest, start) (p, a)

/-- The block ends at the instruction at `a`, with the entry `metadata`, for the reason `ending`. -/
def EndsAt (a : Address) (metadata : Metadata) (ending : Ending) : Prop :=
  ∃ i limit, Scans input start (.forTest i limit) a ∧ i < limit ∧
    balDecodeArm64 input.table (input.memory.word a) = some metadata ∧
    endingOf input i metadata = some ending

variable {input start}

theorem scanMove_rightUnique : Relator.RightUnique (ScanMove input) := by
  intro x y z hy hz
  cases hy with
  | readable hreadable =>
      cases hz with
      | readable hreadable' =>
          cases hreadable.1.symm.trans hreadable'.1
          rfl
  | next hin hdecode hmore =>
      cases hz with
      | next => rfl
      | exhausted hout => exact absurd hin hout
  | exhausted hout =>
      cases hz with
      | next hin => exact absurd hin hout
      | exhausted => rfl

/-- No move leads on from an instruction at which the block ends. -/
theorem scanMove_stuck {i limit : Nat} {a : Address} {metadata : Metadata} {ending : Ending}
    (hin : i < limit) (hdecode : balDecodeArm64 input.table (input.memory.word a) = some metadata)
    (hending : endingOf input i metadata = some ending) (x : LoopPoint × Address) :
    ¬ScanMove input (.forTest i limit, a) x := by
  intro hmove
  cases hmove with
  | next _ hdecode' hmore =>
      rw [hdecode] at hdecode'
      cases hdecode'
      rw [hending] at hmore
      cases hmore
  | exhausted hout => exact absurd hin hout

theorem EndsAt.unique {a b : Address} {metadata metadata' : Metadata} {ending ending' : Ending}
    (h : EndsAt input start a metadata ending) (h' : EndsAt input start b metadata' ending') :
    a = b ∧ metadata = metadata' ∧ ending = ending' := by
  obtain ⟨i, limit, hscan, hin, hdecode, hending⟩ := h
  obtain ⟨i', limit', hscan', hin', hdecode', hending'⟩ := h'
  cases eq_of_stuck scanMove_rightUnique hscan hscan' (scanMove_stuck hin hdecode hending)
    (scanMove_stuck hin' hdecode' hending')
  cases hdecode.symm.trans hdecode'
  exact ⟨rfl, rfl, Option.some.inj (hending.symm.trans hending')⟩

end Scan

/-! ### Small guests -/

/-- Guest memory that holds `words` from `start` on, with nothing else readable. -/
def MemoryInterface.ofWords (start : Address) (words : List (BitVec 32)) : MemoryInterface where
  translate := fun a =>
    let position := (a - start).toNat
    if position < 4 * words.length then some (4 * words.length - position) else none
  word := fun a => words.getD ((a - start).toNat / 4) 0

/-- A translation of `words` from `start` on, without engine flags. -/
def TranslateInput.ofWords (start : Address) (words : List (BitVec 32)) (maxInstructions : Nat) :
    TranslateInput where
  table := generatedTable
  memory := .ofWords start words
  maxInstructions := maxInstructions
  engineFlags := 0

/-- A compiler as `bal_tier1_compiler_init` leaves it, on a zeroed buffer. -/
def Compiler.fresh (bufferSize : Nat) : Compiler where
  assembler := { buffer := fun _ => 0, capacity := bufferSize, offset := 0, status := .success }
  window := .empty
  allocator := .reset
  hasDebugEntries := false
  status := .success

theorem Compiler.init_fresh {bufferSize : Nat} (h : bufferSize ≠ 0) :
    Compiler.init (fun _ => 0) bufferSize false = some (.fresh bufferSize) := by
  simp [Compiler.init, Assembler.init, h, Compiler.fresh]

theorem Compiler.fresh_reachable {bufferSize : Nat} (h : bufferSize ≠ 0) :
    (Compiler.fresh bufferSize).Reachable :=
  .init (Compiler.init_fresh h)

end Ballistic
