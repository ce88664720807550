import Ballistic.FuzzerProtocol

/-!
# Snapshots

`bal_fuzzer_state.c`: what the workers put into a snapshot, and the comparison of two snapshots field by
field, with the list of the fields in which they differ.
-/

namespace Ballistic.Fuzzer

open Machine

/-- `BAL_FUZZER_MAX_DIVERGENCES`. -/
def maxDivergences : Nat := 40

/-- `bal_fuzzer_field_t`. -/
inductive StateField where
  | register
  | pc
  | flagC
  | flagZ
  | flagN
  | flagV
  deriving DecidableEq, Repr

/-- `bal_fuzzer_divergence_t`. -/
structure Divergence where
  expectedValue : BitVec 64
  actualValue : BitVec 64
  registerIndex : Nat
  field : StateField
  deriving DecidableEq, Repr

/-- `bal_fuzzer_comparison_result_t`. The list has the entries of the array that were filled in. -/
structure ComparisonResult where
  divergences : List Divergence
  divergenceCount : Nat
  isMatch : Bool
  deriving DecidableEq, Repr

/-- The step of the register loop: a difference is counted also when there is no room for it. -/
def compareRegister (expected actual : CpuSnapshot) (result : ComparisonResult)
    (i : A64.Register) : ComparisonResult :=
  if expected.x i ≠ actual.x i then
    { result with
      divergences :=
        if result.divergenceCount < maxDivergences then
          result.divergences ++ [⟨expected.x i, actual.x i, i, .register⟩]
        else result.divergences
      divergenceCount := result.divergenceCount + 1 }
  else result

/-- The comparisons after the loop: a difference is counted only when there is room for it. -/
def compareField (field : StateField) (expected actual : BitVec 64) (result : ComparisonResult) :
    ComparisonResult :=
  if expected ≠ actual then
    if result.divergenceCount < maxDivergences then
      { result with
        divergences := result.divergences ++ [⟨expected, actual, 0, field⟩]
        divergenceCount := result.divergenceCount + 1 }
    else result
  else result

def flagValue (flag : Byte) : BitVec 64 := flag.setWidth 64

/-- `bal_fuzzer_state_compare`, of two snapshots at different places. -/
def balFuzzerStateCompare (expected actual : CpuSnapshot) : ComparisonResult :=
  let result := (List.finRange 32).foldl (compareRegister expected actual) ⟨[], 0, false⟩
  let result := compareField .pc expected.pc actual.pc result
  let result := compareField .flagC (flagValue expected.flagC) (flagValue actual.flagC) result
  let result := compareField .flagZ (flagValue expected.flagZ) (flagValue actual.flagZ) result
  let result := compareField .flagN (flagValue expected.flagN) (flagValue actual.flagN) result
  let result := compareField .flagV (flagValue expected.flagV) (flagValue actual.flagV) result
  { result with isMatch := decide (result.divergenceCount = 0) }

/-- `bal_fuzzer_state_capture_bal_cpu` into a snapshot of zeros. -/
def captureBalCpu (cpu : A64.State) (instructionCount : BitVec 64) : CpuSnapshot where
  x := cpu.x
  pc := cpu.pc
  flagC := cpu.flagC
  flagZ := cpu.flagZ
  flagN := cpu.flagN
  flagV := cpu.flagV
  pad0 := 0
  instructionCount := instructionCount
  pad1 := fun _ => 0

/-! ### What a comparison finds -/

/-- The snapshots agree on what the guest can see. -/
structure Agrees (expected actual : CpuSnapshot) : Prop where
  x : expected.x = actual.x
  pc : expected.pc = actual.pc
  flagC : expected.flagC = actual.flagC
  flagZ : expected.flagZ = actual.flagZ
  flagN : expected.flagN = actual.flagN
  flagV : expected.flagV = actual.flagV

def divergent (field : StateField) (registerIndex : Nat) (expected actual : BitVec 64) :
    List Divergence :=
  if expected ≠ actual then [⟨expected, actual, registerIndex, field⟩] else []

/-- The differences among the registers. -/
def registerDifferences (expected actual : CpuSnapshot) : List Divergence :=
  (List.finRange 32).flatMap fun i : A64.Register =>
    divergent .register i (expected.x i) (actual.x i)

/-- The differences, field by field. -/
def differences (expected actual : CpuSnapshot) : List Divergence :=
  registerDifferences expected actual ++
    (divergent .pc 0 expected.pc actual.pc ++
      (divergent .flagC 0 (flagValue expected.flagC) (flagValue actual.flagC) ++
        (divergent .flagZ 0 (flagValue expected.flagZ) (flagValue actual.flagZ) ++
          (divergent .flagN 0 (flagValue expected.flagN) (flagValue actual.flagN) ++
            divergent .flagV 0 (flagValue expected.flagV) (flagValue actual.flagV)))))

section Comparison

variable {expected actual : CpuSnapshot} {result : ComparisonResult}

/-- As long as there is room, the list is what was found. -/
def Found (result : ComparisonResult) (found : List Divergence) : Prop :=
  result.divergences = found ∧ result.divergenceCount = found.length

theorem length_divergent_le (field : StateField) (registerIndex : Nat) (e a : BitVec 64) :
    (divergent field registerIndex e a).length ≤ 1 := by
  unfold divergent
  split
  · exact le_rfl
  · exact Nat.zero_le _

theorem Found.register {found : List Divergence} (h : Found result found) (i : A64.Register)
    (hroom : found.length < maxDivergences) :
    Found (compareRegister expected actual result i)
      (found ++ divergent .register i (expected.x i) (actual.x i)) := by
  unfold compareRegister divergent
  split
  · rw [h.2, if_pos hroom, h.1]
    exact ⟨rfl, by rw [List.length_append, List.length_singleton]⟩
  · rw [List.append_nil]
    exact h

theorem Found.field {found : List Divergence} (h : Found result found) (field : StateField)
    (e a : BitVec 64) (hroom : found.length < maxDivergences) :
    Found (compareField field e a result) (found ++ divergent field 0 e a) := by
  unfold compareField divergent
  split
  · rw [h.2, if_pos hroom, h.1]
    exact ⟨rfl, by rw [List.length_append, List.length_singleton]⟩
  · rw [List.append_nil]
    exact h

theorem Found.registers (registers : List A64.Register) (found : List Divergence)
    (h : Found result found) (hroom : found.length + registers.length ≤ maxDivergences) :
    Found (registers.foldl (compareRegister expected actual) result)
      (found ++ registers.flatMap fun i : A64.Register => divergent .register i (expected.x i) (actual.x i)) := by
  induction registers generalizing result found with
  | nil =>
      rw [List.flatMap_nil, List.append_nil]
      exact h
  | cons i registers ih =>
      rw [List.length_cons] at hroom
      have hle := length_divergent_le .register i (expected.x i) (actual.x i)
      rw [List.foldl_cons, List.flatMap_cons, ← List.append_assoc]
      refine ih _ (h.register i (by omega)) ?_
      rw [List.length_append]
      omega

theorem length_flatMap_le {α β : Type} (f : α → List β) (l : List α)
    (h : ∀ a, (f a).length ≤ 1) : (l.flatMap f).length ≤ l.length := by
  induction l with
  | nil => exact le_rfl
  | cons a l ih =>
      rw [List.flatMap_cons, List.length_append, List.length_cons]
      have hhead := h a
      omega

theorem length_registerDifferences_le (expected actual : CpuSnapshot) :
    (registerDifferences expected actual).length ≤ 32 := by
  refine (length_flatMap_le _ _ fun i => length_divergent_le _ _ _ _).trans ?_
  rw [List.length_finRange]

/-- Nothing is left out of the list: there are fewer fields than entries. -/
theorem balFuzzerStateCompare_found (expected actual : CpuSnapshot) :
    Found (balFuzzerStateCompare expected actual) (differences expected actual) := by
  have hregisters : Found ((List.finRange 32).foldl (compareRegister expected actual) ⟨[], 0, false⟩)
      (registerDifferences expected actual) :=
    Found.registers (List.finRange 32) [] ⟨rfl, rfl⟩
      (by rw [List.length_finRange]; decide)
  have hlength := length_registerDifferences_le expected actual
  have hone := length_divergent_le
  have hpc := hregisters.field .pc expected.pc actual.pc (by unfold maxDivergences; omega)
  have hlengthPc := hone .pc 0 expected.pc actual.pc
  have hc := hpc.field .flagC (flagValue expected.flagC) (flagValue actual.flagC) (by
    rw [List.length_append]
    unfold maxDivergences
    omega)
  have hlengthC := hone .flagC 0 (flagValue expected.flagC) (flagValue actual.flagC)
  have hz := hc.field .flagZ (flagValue expected.flagZ) (flagValue actual.flagZ) (by
    simp only [List.length_append]
    unfold maxDivergences
    omega)
  have hlengthZ := hone .flagZ 0 (flagValue expected.flagZ) (flagValue actual.flagZ)
  have hn := hz.field .flagN (flagValue expected.flagN) (flagValue actual.flagN) (by
    simp only [List.length_append]
    unfold maxDivergences
    omega)
  have hlengthN := hone .flagN 0 (flagValue expected.flagN) (flagValue actual.flagN)
  have hv := hn.field .flagV (flagValue expected.flagV) (flagValue actual.flagV) (by
    simp only [List.length_append]
    unfold maxDivergences
    omega)
  simp only [List.append_assoc] at hv
  exact hv

theorem divergent_eq_nil {field : StateField} {registerIndex : Nat} {e a : BitVec 64} :
    divergent field registerIndex e a = [] ↔ e = a := by
  unfold divergent
  by_cases heq : e = a
  · rw [if_neg (not_not_intro heq)]
    exact ⟨fun _ => heq, fun _ => rfl⟩
  · rw [if_pos heq]
    constructor
    · intro hcons
      cases hcons
    · intro hsame
      exact absurd hsame heq

theorem flagValue_injective : Function.Injective flagValue := by
  intro left right h
  have hlow := congrArg (BitVec.setWidth 8) h
  simpa [flagValue] using hlow

theorem differences_eq_nil : differences expected actual = [] ↔ Agrees expected actual := by
  unfold differences registerDifferences
  simp only [List.append_eq_nil_iff, List.flatMap_eq_nil_iff, divergent_eq_nil,
    flagValue_injective.eq_iff]
  constructor
  · rintro ⟨hx, hpc, hc, hz, hn, hv⟩
    exact ⟨funext fun i => hx i (List.mem_finRange i), hpc, hc, hz, hn, hv⟩
  · rintro ⟨hx, hpc, hc, hz, hn, hv⟩
    exact ⟨fun i _ => congrFun hx i, hpc, hc, hz, hn, hv⟩

/-- The verdict of a comparison. -/
theorem balFuzzerStateCompare_isMatch :
    (balFuzzerStateCompare expected actual).isMatch = true ↔ Agrees expected actual := by
  have hfound := balFuzzerStateCompare_found expected actual
  change decide ((balFuzzerStateCompare expected actual).divergenceCount = 0) = true ↔ _
  rw [decide_eq_true_iff, hfound.2, List.length_eq_zero_iff, differences_eq_nil]

end Comparison

end Ballistic.Fuzzer
