import Ballistic.Proof.Loops

/-!
# Termination

Every instruction after which the block goes on pushes a macro that will take room in the code
buffer, and the window holds four macros at most, so a block can only go on as long as there is room.
What remains is a word that is not in the decoder table: the loops come back to it again and again.
-/

namespace Ballistic

open Machine Machine.X86

/-! ### Room -/

/-- A macro that stands for code whatever macros come next to it in the window. -/
def Macro.isLasting (m : Macro) : Bool := m.opcode != .movRegisterRegister && !m.instrs.isEmpty

/-- The room taken, also by what is still in the window. -/
def Compiler.taken (c : Compiler) : Nat :=
  min c.assembler.offset (c.assembler.capacity + 1) + c.window.macros.countP Macro.isLasting

theorem flushMacros_taken {a : Assembler} {ms : List Macro}
    (h : (flushMacros a ms).status = .success) :
    min a.offset (a.capacity + 1) + ms.countP Macro.isLasting ≤
      min (flushMacros a ms).offset (a.capacity + 1) := by
  induction ms generalizing a with
  | nil => exact Nat.le_refl _
  | cons m ms ih =>
      have hhead : (flushSingleMacro a m).status = .success := by
        by_contra hfailed
        exact hfailed (by rwa [flushMacros, List.foldl_cons, ← flushMacros,
          flushMacros_failed ms hfailed] at h)
      have hemitted := flushSingleMacro_emitted hhead
      have htail := ih h
      have hlength := hemitted.code.length_le
      rw [hemitted.capacity_eq] at htail
      rw [List.countP_cons]
      change _ ≤ min (flushMacros (flushSingleMacro a m) ms).offset _
      split
      · next hlasting =>
          simp only [Macro.isLasting, Bool.and_eq_true, Bool.not_eq_true', List.isEmpty_eq_false_iff]
            at hlasting
          have hfits := hemitted.fits hlasting.2
          have hpos := List.length_pos_iff.mpr hlasting.2
          omega
      · omega

theorem countP_runPeepholeOptimizer (before : List Macro) (m : Macro) :
    (runPeepholeOptimizer before m).countP Macro.isLasting =
      before.countP Macro.isLasting + if m.isLasting then 1 else 0 := by
  have hnop : ∀ n : Macro, Macro.isLasting { n with opcode := .nop } = false := by
    intro n
    simp [Macro.isLasting, Macro.instrs]
  have hmove : ∀ n : Macro, n.opcode = .movRegisterRegister → n.isLasting = false := by
    intro n hn
    simp [Macro.isLasting, hn]
  unfold runPeepholeOptimizer
  split
  · next hidentity => simp [hnop, hmove m hidentity.1]
  · split
    · simp [List.countP_cons]
    · next macro2 hlast =>
        split
        · next hredundant =>
            obtain ⟨front, rfl⟩ := List.getLast?_eq_some_iff.mp hlast
            simp [hnop, hmove m hredundant.1, hmove macro2 hredundant.2.1]
        · simp [List.countP_cons]

namespace Compiler

variable {c : Compiler}

theorem push_taken {m : Macro} (h : (c.push m).Ok) :
    (c.push m).assembler.capacity = c.assembler.capacity ∧
      c.taken + (if m.isLasting then 1 else 0) ≤ (c.push m).taken := by
  have hstatus := h.assembler
  obtain ⟨is, hemitted, -⟩ := produces_push h
  refine ⟨hemitted.capacity_eq, ?_⟩
  unfold taken
  rw [hemitted.capacity_eq]
  simp only [push, slidingWindowPush] at hstatus ⊢
  split at hstatus
  · next hfull =>
      simp only [hfull, dite_true] at hstatus ⊢
      have hflush := flushMacros_taken hstatus
      simp only [hstatus, ne_eq, not_true_eq_false, if_false, countP_runPeepholeOptimizer,
        List.countP_nil]
      omega
  · next hroom =>
      simp only [hroom, dite_false] at hstatus ⊢
      simp only [hstatus, ne_eq, not_true_eq_false, if_false, countP_runPeepholeOptimizer]
      omega

theorem pushAll_taken {ms : List Macro} (h : (c.pushAll ms).Ok) :
    (c.pushAll ms).assembler.capacity = c.assembler.capacity ∧
      c.taken + ms.countP Macro.isLasting ≤ (c.pushAll ms).taken := by
  induction ms generalizing c with
  | nil => exact ⟨rfl, Nat.le_refl _⟩
  | cons m ms ih =>
      have hpushed : ((c.push m).pushAll ms).Ok := h
      obtain ⟨hcapacity, htaken⟩ := push_taken hpushed.of_pushAll
      obtain ⟨hcapacity', htaken'⟩ := ih hpushed
      refine ⟨hcapacity'.trans hcapacity, ?_⟩
      change _ ≤ ((c.push m).pushAll ms).taken
      rw [List.countP_cons]
      omega

theorem taken_le (c : Compiler) :
    c.taken ≤ c.assembler.capacity + 1 + slidingWindowCapacity := by
  have hwindow := c.window.count_le
  have hcount := List.countP_le_length (p := Macro.isLasting) (l := c.window.macros)
  unfold taken
  omega

end Compiler

/-- The plan of an instruction after which the block goes on ends with a lasting macro. -/
theorem RegisterAllocator.plan_concat {r : RegisterAllocator} {metadata : Metadata} {w : BitVec 32}
    {p : Plan} (hplan : r.plan metadata w = some p) :
    ∃ front m, p.macros = front ++ [m] ∧ m.isLasting = true := by
  -- An addition or subtraction ends with its arithmetic macro, or with the last flag.
  have hfinish : ∀ (before : List Macro) (d : Allocated) (setsFlags : Bool) (rd : Nat) (isSub : Bool)
      (arithmetic : Macro), arithmetic.isLasting = true → ∃ front m,
        before ++ (finishPlan d setsFlags rd isSub arithmetic).macros = front ++ [m] ∧
          m.isLasting = true := by
    intro before d setsFlags rd isSub arithmetic hlasting
    cases setsFlags with
    | false =>
        exact ⟨before ++ d.macros, arithmetic, by simp [finishPlan], hlasting⟩
    | true =>
        exact ⟨before ++ (d.macros ++ [arithmetic, setccMacro .s offsetFlagN,
          setccMacro .e offsetFlagZ, setccMacro .o offsetFlagV]),
          setccMacro (if isSub then .ae else .b) offsetFlagC,
          by simp [finishPlan, Compiler.setFlagsMacros], rfl⟩
  simp only [plan] at hplan
  split at hplan
  · obtain ⟨d, -, rfl⟩ := Option.map_eq_some_iff.mp hplan
    simp only [Compiler.movImmediateMacros]
    split
    · exact ⟨_, _, rfl, rfl⟩
    · split
      · exact ⟨_, _, rfl, rfl⟩
      · refine ⟨d.macros ++ [_], _, (List.append_assoc _ [_] [_]).symm, rfl⟩
  · simp only [planAnd, Option.bind_eq_bind, Option.bind_eq_some_iff, Option.some.injEq] at hplan
    obtain ⟨n, -, m, -, d, -, rfl⟩ := hplan
    exact ⟨_, _, (List.append_assoc ..).symm, rfl⟩
  · split at hplan
    · simp only [planAddSubReg, Option.bind_eq_bind, Option.bind_eq_some_iff,
        Option.some.injEq] at hplan
      obtain ⟨n, -, m, -, d, -, rfl⟩ := hplan
      refine hfinish (n.macros ++ m.macros) d _ _ _ _ ?_
      cases metadata.irOpcode == .sub || metadata.irOpcode == .cmp <;> rfl
    · simp only [planAddSubImm, Option.bind_eq_bind, Option.bind_eq_some_iff,
        Option.some.injEq] at hplan
      obtain ⟨n, -, d, -, rfl⟩ := hplan
      refine hfinish n.macros d _ _ _ _ ?_
      cases metadata.irOpcode == .sub || metadata.irOpcode == .cmp <;> rfl

theorem RegisterAllocator.plan_lasting {r : RegisterAllocator} {metadata : Metadata} {w : BitVec 32}
    {p : Plan} (hplan : r.plan metadata w = some p) : 0 < p.macros.countP Macro.isLasting := by
  obtain ⟨front, m, hmacros, hlasting⟩ := plan_concat hplan
  rw [hmacros, List.countP_pos_iff]
  exact ⟨m, List.mem_append_right _ (List.mem_singleton_self m), hlasting⟩

section Runs

variable {input : TranslateInput} {c : Compiler} {start : Address}

/-! ### One instruction -/

/-- An instruction that is in the decoder table ends the block, by success or by failure, or it takes
room and the block goes on. -/
theorem translateInstruction_progress (base : Address) (blockOffset i : Nat) {s : LoopState}
    {metadata : Metadata}
    (hdecode : balDecodeArm64 input.table (input.memory.word s.guestAddress) = some metadata)
    (hterminated : s.isBlockTerminated = false) :
    ((translateInstruction input base blockOffset i s).2 = true ∧
        (translateInstruction input base blockOffset i s).1.isBlockTerminated = true) ∨
      ∃ s', translateInstruction input base blockOffset i s = (s', false) ∧ s'.compiler.Ok ∧
        s.compiler.Ok ∧ s'.isBlockTerminated = false ∧
        s'.armInstructionCount = s.armInstructionCount + 1 ∧
        s'.compiler.assembler.capacity = s.compiler.assembler.capacity ∧
        s.compiler.taken + 1 ≤ s'.compiler.taken := by
  by_cases hok : (translateInstruction input base blockOffset i s).1.compiler.Ok
  · cases hending : endingOf input i metadata with
    | some ending =>
        obtain ⟨hbreak, hleaves⟩ := translateInstruction_ends hdecode hending hok
        exact .inl ⟨hbreak, hleaves.terminated⟩
    | none =>
        obtain ⟨p, s1, hplan, happly, ⟨mappings, rfl⟩, heq⟩ :=
          translateInstruction_continues hdecode hending hterminated hok
        obtain ⟨hcapacity, htaken⟩ := Compiler.pushAll_taken (Compiler.apply_ok.mp happly)
        have hlasting := RegisterAllocator.plan_lasting hplan
        refine .inr ⟨_, heq, happly, happly.of_apply, hterminated, rfl, hcapacity, ?_⟩
        change _ ≤ (s.compiler.pushAll p.macros).taken
        omega
  · left
    simp only [translateInstruction, hdecode] at hok ⊢
    by_cases htrap : isTrapped input.engineFlags metadata = true
    · simp only [htrap, if_true]
      exact ⟨trivial, rfl⟩
    · simp only [htrap, Bool.false_eq_true, if_false] at hok ⊢
      generalize s.translateOpcode metadata (input.memory.word s.guestAddress) = s' at hok ⊢
      by_cases hfailed : s'.failed = true
      · simp only [hfailed, if_true]
        exact ⟨trivial, rfl⟩
      · -- Nothing after the status check fails.
        refine absurd ?_ hok
        have hok' : s'.compiler.Ok := by
          simp only [LoopState.failed, Bool.or_eq_true, bne_iff_ne, ne_eq, not_or, not_not] at hfailed
          exact ⟨hfailed.1, hfailed.2⟩
        simp only [hfailed, Bool.false_eq_true, if_false]
        split <;> split <;> first | exact hok' | (split <;> exact hok')

/-! ### Whole runs -/

/-- The loops come to a word that is not in the decoder table. -/
def MeetsUndecodable (input : TranslateInput) (c : Compiler) (start : Address) : Prop :=
  ∃ p s, Reaches input c start p s ∧ Undecodable input p s

/-- The number of instructions after which there is no room left in the buffer of `c`. -/
def roomFor (c : Compiler) : Nat := c.assembler.capacity + 1 + slidingWindowCapacity

/-- As long as nothing has failed, every instruction has taken room. -/
def TakesRoom (capacity : Nat) (s : LoopState) : Prop :=
  s.compiler.Ok → s.compiler.assembler.capacity = capacity ∧
    s.armInstructionCount ≤ s.compiler.taken

theorem TakesRoom.count_le {s : LoopState} (h : TakesRoom c.assembler.capacity s)
    (hok : s.compiler.Ok) : s.armInstructionCount ≤ roomFor c := by
  obtain ⟨hcapacity, htaken⟩ := h hok
  have hle := s.compiler.taken_le
  unfold roomFor
  omega

/-- The loops end, from the given point on. -/
def Halts (input : TranslateInput) (base : Address) (blockOffset : Nat) (p : LoopPoint)
    (s : LoopState) : Prop :=
  ∃ fuel s', runLoops input base blockOffset fuel p s = some s'

namespace Halts

variable {base : Address} {blockOffset : Nat} {p : LoopPoint} {s : LoopState}

theorem of_exit {s' : LoopState} (hexit : loopStep input base blockOffset p s = .exit s') :
    Halts input base blockOffset p s := by
  refine ⟨1, s', ?_⟩
  rw [runLoops, hexit]

theorem of_next {p' : LoopPoint} {s' : LoopState}
    (hnext : loopStep input base blockOffset p s = .next p' s')
    (h : Halts input base blockOffset p' s') : Halts input base blockOffset p s := by
  obtain ⟨fuel, s'', hrun⟩ := h
  refine ⟨fuel + 1, s'', ?_⟩
  rw [runLoops, hnext]
  exact hrun

theorem of_terminated (h : s.isBlockTerminated = true) : Halts input base blockOffset .whileTest s :=
  of_exit (loopStep_terminated h)

end Halts

/-- **The loops end** if every word they come to is in the decoder table. The induction is on the
number of instructions that there may still be room for. -/
theorem Reaches.halts (hmax : input.maxInstructions ≠ 0)
    (hdecodable : ¬MeetsUndecodable input c start) (n : Nat) {p : LoopPoint} {s : LoopState}
    (hreach : Reaches input c start p s) (hterminated : s.isBlockTerminated = false)
    (htakes : TakesRoom c.assembler.capacity s) (hn : roomFor c < s.armInstructionCount + n) :
    Halts input start c.assembler.offset p s := by
  induction n using Nat.strong_induction_on generalizing p s with
  | _ n ih =>
      have hinstruction : ∀ {i limit : Nat} {s : LoopState},
          Reaches input c start (.forTest i limit) s → s.isBlockTerminated = false →
          TakesRoom c.assembler.capacity s → roomFor c < s.armInstructionCount + n → i < limit →
          Halts input start c.assembler.offset (.forTest i limit) s := by
        intro i limit s hreach hterminated htakes hn hin
        cases hdecode : balDecodeArm64 input.table (input.memory.word s.guestAddress) with
        | none => exact absurd ⟨_, s, hreach, i, limit, rfl, hin, hdecode⟩ hdecodable
        | some metadata =>
            obtain ⟨hbreak, hends⟩ | ⟨s', heq, hok', hok, hmore, hcount, hcapacity, htaken⟩ :=
              translateInstruction_progress start c.assembler.offset i hdecode hterminated
            · refine .of_next ?_ (.of_terminated hends)
              simp only [loopStep, hin, if_true, hbreak]
            · have hnext : loopStep input start c.assembler.offset (.forTest i limit) s =
                  .next (.forTest (i + 1) limit) s' := by
                simp only [loopStep, hin, if_true, heq, Bool.false_eq_true, if_false]
              have htakes' : TakesRoom c.assembler.capacity s' := by
                intro _
                obtain ⟨hcapacity0, hcount0⟩ := htakes hok
                exact ⟨hcapacity.trans hcapacity0, by omega⟩
              have hle := htakes'.count_le hok'
              exact .of_next hnext
                (ih (n - 1) (by omega) (.step hreach hnext) hmore htakes' (by omega))
      have hwhile : ∀ {s : LoopState}, Reaches input c start .whileTest s →
          s.isBlockTerminated = false → TakesRoom c.assembler.capacity s →
          roomFor c < s.armInstructionCount + n →
          Halts input start c.assembler.offset .whileTest s := by
        intro s hreach hterminated htakes hn
        cases hstep : loopStep input start c.assembler.offset .whileTest s with
        | exit s' => exact .of_exit hstep
        | next p' s' =>
            obtain ⟨bytes, -, -, hreadable, rfl, rfl⟩ | ⟨_, _, habsurd, _⟩ | ⟨_, _, habsurd, _⟩ :=
              loopStep_next hstep
            · have hbytes := hreadable.2.1
              exact .of_next hstep
                (hinstruction (.step hreach hstep) hterminated htakes hn (by omega))
            · cases habsurd
            · cases habsurd
      cases p with
      | whileTest => exact hwhile hreach hterminated htakes hn
      | forTest i limit =>
          by_cases hin : i < limit
          · exact hinstruction hreach hterminated htakes hn hin
          · have hnext : loopStep input start c.assembler.offset (.forTest i limit) s =
                .next .whileTest s := by
              simp only [loopStep, hin, if_false]
            exact .of_next hnext (hwhile (.step hreach hnext) hterminated htakes hn)

theorem translates_of_decodable (hmax : input.maxInstructions ≠ 0)
    (hdecodable : ¬MeetsUndecodable input c start) : ∃ t, Translates input c start t := by
  have htakes : TakesRoom c.assembler.capacity (startState c start) := by
    intro hok
    have hassembler := hok.assembler
    rw [startState_assembler] at hassembler
    obtain ⟨-, hemitted⟩ := Assembler.emitted_prologue hassembler
    exact ⟨hemitted.capacity_eq, Nat.zero_le _⟩
  obtain ⟨fuel, s', hrun⟩ := Reaches.halts hmax hdecodable (roomFor c + 1) .start rfl htakes
    (by omega)
  refine ⟨finishTranslation input start c.assembler.offset s', fuel, ?_⟩
  rw [balTier1CompilerTranslate, if_neg hmax, hrun, Option.map_some]

/-- A translation that starts at a readable word that is not in the decoder table never ends. -/
theorem hangs_at_undecodable (hmax : input.maxInstructions ≠ 0) {bytes : Nat}
    (hreadable : Readable input start bytes)
    (hdecode : balDecodeArm64 input.table (input.memory.word start) = none) (fuel : Nat) :
    balTier1CompilerTranslate input c start fuel = none := by
  have hloops : ∀ fuel (s : LoopState), s.guestAddress = start → s.isBlockTerminated = false →
      runLoops input start c.assembler.offset fuel .whileTest s = none := by
    intro fuel
    induction fuel using Nat.strong_induction_on with
    | _ fuel ih =>
        intro s haddress hterminated
        have hpositive : 0 < min (bytes / 4) input.maxInstructions := by
          have hbytes := hreadable.2.1
          omega
        have hread : loopStep input start c.assembler.offset .whileTest s =
            .next (.forTest 0 (min (bytes / 4) input.maxInstructions)) s :=
          loopStep_readable (haddress.symm ▸ hreadable) hterminated
        have hbreak : loopStep input start c.assembler.offset
            (.forTest 0 (min (bytes / 4) input.maxInstructions)) s =
            .next .whileTest { s with isBlockTerminated := false } := by
          simp only [loopStep, hpositive, if_true, translateInstruction, haddress, hdecode]
        cases fuel with
        | zero => rfl
        | succ fuel =>
            rw [runLoops, hread]
            simp only
            cases fuel with
            | zero => rfl
            | succ fuel =>
                rw [runLoops, hbreak]
                exact ih fuel (by omega) { s with isBlockTerminated := false } haddress rfl
  rw [balTier1CompilerTranslate, if_neg hmax, hloops fuel _ rfl rfl]
  rfl

theorem Translates.decodes {t : Translation} (h : Translates input c start t)
    (hmax : input.maxInstructions ≠ 0) {bytes : Nat} (hreadable : Readable input start bytes) :
    ∃ metadata, balDecodeArm64 input.table (input.memory.word start) = some metadata := by
  refine Option.ne_none_iff_exists'.mp fun hnone => ?_
  obtain ⟨fuel, hrun⟩ := h
  rw [hangs_at_undecodable hmax hreadable hnone] at hrun
  cases hrun

/-! ### Words that are not in the table -/

/-- A translation ends, and if it comes to a word that is not in the decoder table it returns `NULL`
with the status for an unknown instruction. -/
def TerminatesAndReports (input : TranslateInput) (c : Compiler) (start : Address) : Prop :=
  (∃ t, Translates input c start t) ∧
    ∀ t, Translates input c start t → MeetsUndecodable input c start →
      t.entry = none ∧ t.compiler.status = .unknownInstruction

/-- **Termination and bad words.** Translation ends, with the right report, exactly if it does not
come to a word that is not in the decoder table: the branch for such a word leaves the block open, so
the loops come to the same word again. -/
theorem terminatesAndReports_iff (hmax : input.maxInstructions ≠ 0) :
    TerminatesAndReports input c start ↔ ¬MeetsUndecodable input c start := by
  constructor
  · rintro ⟨⟨t, ht⟩, hreports⟩ hmeets
    obtain ⟨-, hstatus⟩ := hreports t ht hmeets
    obtain ⟨fuel, htranslate⟩ := ht
    rw [balTier1CompilerTranslate, if_neg hmax, Option.map_eq_some_iff] at htranslate
    obtain ⟨s', hrun, rfl⟩ := htranslate
    obtain ⟨p, s, hreach, hundecodable⟩ := hmeets
    obtain ⟨fuel', hrun'⟩ := hreach.runLoops hrun
    rw [finishTranslation_compiler, Compiler.terminateBlock_status] at hstatus
    rcases hundecodable.not_ok hmax hrun' with hfault | hfault <;>
      exact absurd (hfault.symm.trans hstatus) (by decide)
  · intro hdecodable
    refine ⟨translates_of_decodable hmax hdecodable, ?_⟩
    intro t ht hmeets
    exact absurd hmeets hdecodable

end Runs

theorem terminatesAndReports_iff_add :
    TerminatesAndReports (.ofWords 0x1000 [0x91000400, 0xD65F03C0] 8) (.fresh 256) 0x1000 ↔
      ¬MeetsUndecodable (.ofWords 0x1000 [0x91000400, 0xD65F03C0] 8) (.fresh 256) 0x1000 :=
  terminatesAndReports_iff (by decide)

/-- `MOVZ` of a 32-bit register with a shift of 32, which is no instruction: the translation hangs. -/
theorem hangs_movz :
    balDecodeArm64 generatedTable 0x52C00000 = none ∧
      (∀ fuel, balTier1CompilerTranslate (.ofWords 0x1000 [0x52C00000, 0xD65F03C0] 8) (.fresh 256)
        0x1000 fuel = none) ∧
      ¬TerminatesAndReports (.ofWords 0x1000 [0x52C00000, 0xD65F03C0] 8) (.fresh 256) 0x1000 := by
  have hreadable : Readable (.ofWords 0x1000 [0x52C00000, 0xD65F03C0] 8) 0x1000 8 :=
    ⟨by decide, by decide, by decide⟩
  have hdecode : balDecodeArm64 generatedTable 0x52C00000 = none := by decide
  have hhangs := hangs_at_undecodable (c := .fresh 256) (by decide) hreadable hdecode
  refine ⟨hdecode, hhangs, ?_⟩
  rintro ⟨⟨t, fuel, htranslate⟩, -⟩
  rw [hhangs fuel] at htranslate
  cases htranslate

end Ballistic
