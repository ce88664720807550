import Ballistic.FuzzerWorker
import Ballistic.Proof.FuzzerVerdicts

/-!
# What the Ballistic worker answers

To an input of a few integer instructions the worker gives the state in which A64 leaves the
processor, or it says that it could not set up its memory interface. So on such an input the fuzzer
compares the other worker with A64.
-/

namespace Ballistic.Fuzzer

open Machine

/-! ### The page -/

theorem wordAt_workerByte (input : FuzzerInput) (k : Nat) :
    wordAt (workerByte input) (4 * k) = workerWord input k := wordAt_words (fun _ => rfl) k

section Straight

variable {table : DecoderTable} {input : FuzzerInput} {body : List A64.Instr}

/-- Integer instructions on at most eight registers, to be executed from the first on. -/
structure StraightInput (input : FuzzerInput) (body : List A64.Instr) : Prop where
  pc : input.initialState.pc = 0
  count : input.instructionCount.toNat = body.length
  length_le : body.length ≤ fuzzerMaxInstructions
  words : ∀ (k : Nat) (hk : k < body.length),
    A64.decode (input.instructions ⟨k, hk.trans_le length_le⟩) = some body[k]
  few : ∃ touched : Finset A64.Register, touched.card ≤ 8 ∧
    ∀ i ∈ body, isInteger i = true ∧ namedRegisters i ⊆ touched

theorem toNat_instruction {k : Nat} (hk : k < 2 ^ 32) :
    (0 + BitVec.ofNat 64 (4 * k) : Address).toNat = 4 * k := by
  bv_omega

theorem worker_word (table : DecoderTable) (input : FuzzerInput) {k : Nat} (hk : k < 2 ^ 32) :
    (workerGuest table input).memory.word (0 + BitVec.ofNat 64 (4 * k)) = workerWord input k := by
  change wordAt (workerByte input) (0 + BitVec.ofNat 64 (4 * k) : Address).toNat = _
  rw [toNat_instruction hk, wordAt_workerByte]

theorem worker_readable (table : DecoderTable) (input : FuzzerInput) {k : Nat} (hk : k < 1024) :
    ∃ bytes, Readable ((workerGuest table input).input 0) (0 + BitVec.ofNat 64 (4 * k)) bytes := by
  have hbelow : ¬BitVec.ofNat 64 workerGuestMemory ≤ (0 + BitVec.ofNat 64 (4 * k) : Address) := by
    unfold workerGuestMemory
    bv_omega
  have hleft : (BitVec.ofNat 64 workerGuestMemory - (0 + BitVec.ofNat 64 (4 * k)) : Address).toNat =
      4096 - 4 * k := by
    unfold workerGuestMemory
    bv_omega
  refine ⟨4096 - 4 * k, ?_, by omega, ?_⟩
  · change (balFlatTranslationInterfaceTranslate _ _).map Prod.snd = _
    rw [balFlatTranslationInterfaceTranslate, if_neg hbelow, Option.map_some, hleft]
  · rintro ⟨hstrict, -⟩
    exact absurd hstrict (by change ¬EngineFlags.has 0 EngineFlags.strictAlignment = true; decide)

theorem StraightInput.word (h : StraightInput input body) {k : Nat} {i : A64.Instr}
    (hi : (body ++ [.ret 30])[k]? = some i) : A64.decode (workerWord input k) = some i := by
  have hlength := h.length_le
  by_cases hk : k < body.length
  · rw [List.getElem?_append_left hk, List.getElem?_eq_getElem hk] at hi
    obtain rfl := Option.some.inj hi
    have hne : k ≠ input.instructionCount.toNat := by
      rw [h.count]
      exact hk.ne
    rw [workerWord, if_neg hne, dif_pos (hk.trans_le hlength), if_pos (h.count.symm ▸ hk)]
    exact h.words k hk
  · rw [List.getElem?_append_right (Nat.le_of_not_lt hk)] at hi
    have hlast : k = body.length := by
      by_contra hne
      rw [List.getElem?_eq_none (by rw [List.length_singleton]; omega)] at hi
      cases hi
    rw [hlast, Nat.sub_self] at hi
    cases hi
    rw [hlast, workerWord, if_pos h.count.symm]
    decide

theorem StraightInput.smallBlock (table : DecoderTable) (h : StraightInput input body) :
    SmallBlock ((workerGuest table input).input 0) (workerCpu input).pc body (.ret 30) where
  words := by
    intro k i hi
    have hk : k < body.length + 1 := by
      have hlt := (List.getElem?_eq_some_iff.mp hi).1
      rw [List.length_append] at hlt
      exact hlt
    have hlength : body.length ≤ 60 := h.length_le
    have hpc : (workerCpu input).pc = 0 := h.pc
    rw [hpc]
    change A64.decode ((workerGuest table input).memory.word _) = _
    rw [worker_word table input (by omega)]
    exact h.word hi
  length_le := by
    have hlength : body.length ≤ 60 := h.length_le
    change body.length + 1 ≤ if EngineFlags.has 0 EngineFlags.singleStep = true then 1 else 65535
    rw [if_neg (by decide)]
    omega
  few := h.few
  last_end := rfl
  readable := by
    intro k hk
    have hlength : body.length ≤ 60 := h.length_le
    have hpc : (workerCpu input).pc = 0 := h.pc
    rw [hpc]
    exact worker_readable table input (by omega)

theorem StraightInput.ne_sentinel (h : StraightInput input body) {k : Nat} (hk : k ≤ body.length) :
    (workerCpu input).pc + BitVec.ofNat 64 (4 * k) ≠ engineSentinel := by
  have hlength : body.length ≤ 60 := h.length_le
  have hpc : (workerCpu input).pc = 0 := h.pc
  intro hsentinel
  have hoffset := congrArg BitVec.toNat hsentinel
  rw [hpc, toNat_instruction (by omega)] at hoffset
  change 4 * k = 0xFFFFFFFFFFFFFFFF at hoffset
  omega

theorem StraightInput.few_instructions (h : StraightInput input body) :
    tooManyInstructions input = false := by
  have hlength := h.length_le
  rw [tooManyInstructions, h.count, decide_eq_false_iff_not]
  exact Nat.not_lt_of_le hlength

section Answers

variable {access : A64.TagAccess} {g : A64.State}

/-- The worker's engine runs the instructions and the `RET`, whatever its allocations gave it. -/
theorem StraightInput.completes (hgenerated : table.Generated) (h : StraightInput input body)
    (hexec : A64.execAll access (workerCpu input) (body ++ [.ret 30]) = some g)
    (hhalts : g.pc = engineSentinel) {buffer : Nat → Byte} {hasDebugEntries : Bool} {c : Compiler}
    (hinit : Compiler.init buffer tier1BufferSizeBytes hasDebugEntries = some c) :
    (∃ codes e, Finishes (workerGuest table input) .compareExchange (.init (workerCpu input) c) codes
        e) ∧
      ∀ {status e}, CallReturns (workerGuest table input) .compareExchange
        (.init (workerCpu input) c) status e → e.cpu = g ∧ e.status = .success ∧ status = .success := by
  have hsmall := (h.smallBlock table).small (fun k hk => h.ne_sentinel hk) hexec hhalts
  have hblock := (h.smallBlock table).block (by decide) fun k hk => h.ne_sentinel hk
  have hsteps := hblock.stepN.trans hexec
  have hlength : body.length ≤ 60 := h.length_le
  have hc : c = ⟨⟨buffer, tier1BufferSizeBytes, 0, .success⟩, .empty, .reset, hasDebugEntries,
      .success⟩ := by
    rw [Compiler.init, Assembler.init, if_neg (by decide), Option.map_some] at hinit
    exact (Option.some.inj hinit).symm
  have hquiet : (Engine.init (workerCpu input) c : Engine Nat).Quiet := by
    refine ⟨rfl, rfl, rfl, ?_, ?_⟩
    · change EngineFlags.has 0 EngineFlags.interruptPending = false
      decide
    · rw [hc]
      exact ⟨rfl, rfl⟩
  have hsession : EngineSession (workerGuest table input) (workerCpu input) .outside
      (.init (workerCpu input) c) := .init _ (.init hinit)
  refine (hquiet.ready hsession (n := body.length + 1) ?_ ?_).completes hgenerated hsmall hhalts hsteps
  · rw [hc]
    change 0 + instructionRoom * (body.length + 1) ≤ 16777216
    unfold instructionRoom blockRoom
    omega
  · rw [hc]
    change tier1BufferSizeBytes ≤ sizeMax
    decide

/-- For integer instructions that leave the link register alone the worker
can answer with the state in which A64 leaves the processor, and has only one other answer. -/
theorem ballisticWorker_answers (hgenerated : table.Generated) (h : StraightInput input body)
    (hexec : A64.execAll access (workerCpu input) (body ++ [.ret 30]) = some g)
    (hhalts : g.pc = engineSentinel) :
    BallisticHandles table input (workerResponse input .ok (captureBalCpu g 0)) true ∧
      ∀ {response final}, BallisticHandles table input response final →
        response = workerResponse input .ok (captureBalCpu g 0) ∨
          response = workerResponse input .compileFailed .zero := by
  constructor
  · have hinit : Compiler.init (fun _ => 0) tier1BufferSizeBytes false =
        some (.fresh tier1BufferSizeBytes) := Compiler.init_fresh (by decide)
    obtain ⟨⟨codes, e, hfinishes⟩, hunique⟩ := h.completes hgenerated hexec hhalts hinit
    obtain ⟨status, hreturns⟩ := hfinishes.returns
    obtain ⟨rfl, -, rfl⟩ := hunique hreturns
    exact .ran h.few_instructions hinit hreturns
  · intro response final hhandles
    cases hhandles with
    | tooMany | noInterface => exact .inr rfl
    | ran _ hinit hreturns =>
        obtain ⟨-, hunique⟩ := h.completes hgenerated hexec hhalts hinit
        obtain ⟨rfl, -, rfl⟩ := hunique hreturns
        exact .inl rfl

/-- On such an input the worker does not hang. -/
theorem ballisticWorker_responds {W : Type} {start memory : W} (hgenerated : table.Generated)
    (h : StraightInput input body)
    (hexec : A64.execAll access (workerCpu input) (body ++ [.ret 30]) = some g)
    (hhalts : g.pc = engineSentinel) : (ballisticWorker table start).Responds memory input := by
  refine ⟨?_, memory, _, true, rfl, (ballisticWorker_answers hgenerated h hexec hhalts).1⟩
  rintro ⟨-, buffer, hasDebugEntries, c, hinit, hnever⟩
  obtain ⟨⟨codes, e, hfinishes⟩, -⟩ := h.completes hgenerated hexec hhalts hinit
  obtain ⟨status, hreturns⟩ := hfinishes.returns
  exact hnever ⟨status, e, hreturns⟩

/-- **The fuzzer tests against A64.** Whatever fails during a run on integer instructions that leave the
link register alone, a verdict on the states compares what the other worker gives with the state in
which A64 leaves the processor. -/
theorem fuzzer_verdict_straight {W : Type} {start : W} {unicorn : WorkerProgram W} {capacity : Nat}
    {ignoresSigpipe : Bool} {s : System Role W} {v : Verdict} (hgenerated : table.Generated)
    (h : StraightInput input body)
    (hexec : A64.execAll access (workerCpu input) (body ++ [.ret 30]) = some g)
    (hhalts : g.pc = engineSentinel)
    (hreached : Reached (fuzzer (workerPrograms table start unicorn) input capacity ignoresSigpipe) s)
    (hverdict : verdict s.history = some v) (hcompares : v = .matched ∨ ∃ result, v = .mismatch result) :
    ∃ u, unicorn.Answers input u ∧ v.Compares u.finalState (captureBalCpu g 0) := by
  obtain ⟨b, u, ⟨memory, final, -, hballistic⟩, hunicorn, hok, hsmall, rfl⟩ :=
    exists_answers hreached hverdict hcompares
  have hstate : b.finalState = captureBalCpu g 0 := by
    rcases (ballisticWorker_answers hgenerated h hexec hhalts).2 hballistic with rfl | rfl
    · rfl
    · cases hok
  refine ⟨u, hunicorn, ?_⟩
  rw [← hstate]
  exact judge_compares hok hsmall

end Answers

end Straight

theorem mainInput_straight : StraightInput mainInput coordinatorBody where
  pc := rfl
  count := rfl
  length_le := by decide
  words := by decide
  few := ⟨{0, 1, 2, 3, 4, 5, 6, 7}, by decide, by decide⟩

/-- Ballistic tested against itself on the input of `main`. -/
theorem fuzzer_verdict_straight_main : ∃ g u,
    A64.execAll ⟨false, 0⟩ (workerCpu mainInput) (coordinatorBody ++ [.ret 30]) = some g ∧
      (ballisticWorker generatedTable ()).Answers mainInput u ∧
        Verdict.matched.Compares u.finalState (captureBalCpu g 0) := by
  have hpc : (A64.execAll ⟨false, 0⟩ (workerCpu mainInput) (coordinatorBody ++ [.ret 30])).map (·.pc) =
      some engineSentinel := by decide
  obtain ⟨g, hexec, hhalts⟩ := Option.map_eq_some_iff.mp hpc
  let r := workerResponse mainInput .ok (captureBalCpu g 0)
  have hanswer : (ballisticWorker generatedTable ()).Answers mainInput r :=
    ⟨(), true, rfl, (ballisticWorker_answers generatedTable_generated mainInput_straight hexec hhalts).1⟩
  obtain ⟨s, hsteps, hhistory⟩ : ∃ s, Relation.ReflTransGen (Step (fuzzer (workerPrograms generatedTable ()
      (ballisticWorker generatedTable ())) mainInput 65536 false)) .init s ∧
      s.history = roundResults mainInput r r :=
    exists_round (by decide) rfl hanswer hanswer
  have hmatch : (balFuzzerStateCompare r.finalState r.finalState).isMatch = true :=
    balFuzzerStateCompare_isMatch.mpr ⟨rfl, rfl, rfl, rfl, rfl, rfl⟩
  have hsmall : ¬WorkerStatus.crashed.code < r.status := by
    change ¬WorkerStatus.crashed.code < WorkerStatus.ok.code
    decide
  have hverdict : verdict s.history = some .matched := by
    rw [hhistory]
    change some (judge (.received 0 r) (.received 1 r)) = _
    rw [judge_received rfl hsmall, if_pos hmatch]
  obtain ⟨u, hunicorn, hcompared⟩ := fuzzer_verdict_straight generatedTable_generated mainInput_straight
    hexec hhalts (calm_of_steps hsteps).1 hverdict (.inl rfl)
  exact ⟨g, u, hexec, hunicorn, hcompared⟩

end Ballistic.Fuzzer
