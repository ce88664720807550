import Ballistic.Proof.Failures

/-!
# Fetching from flat memory

`bal_flat_translation_interface_translate` gives out one buffer at the guest address zero. The inner
loop of a translation reads its words through a cursor of its own, which it moves along with the guest
address and the place in the readable range: `CursorAt` follows it, and the words it stands at are
inside the buffer. Where less than a word is left, the translation fails.
-/

namespace Ballistic

open Machine Machine.X86

/-- `bal_flat_translation_interface_translate` over a buffer of `size` bytes: the position in the
buffer and the number of bytes from there on. -/
def balFlatTranslationInterfaceTranslate (size guestAddress : Address) : Option (Nat × Nat) :=
  if size ≤ guestAddress then none
  else some (guestAddress.toNat, (size - guestAddress).toNat)

/-- The word at a position of the buffer. -/
def wordAt (host : Nat → Byte) (position : Nat) : BitVec 32 :=
  word32 (host position) (host (position + 1)) (host (position + 2)) (host (position + 3))

/-- A buffer that holds words, in bytes. -/
theorem wordAt_words {host : Nat → Byte} {word : Nat → BitVec 32}
    (h : ∀ k, host k = (word (k / 4)).extractLsb' (8 * (k % 4)) 8) (k : Nat) :
    wordAt host (4 * k) = word k := by
  have hbyte : ∀ j < 4, host (4 * k + j) = (word k).extractLsb' (8 * j) 8 := by
    intro j hj
    rw [h, Nat.mul_add_div (by decide), Nat.mul_add_mod, Nat.div_eq_of_lt hj, Nat.mod_eq_of_lt hj,
      Nat.add_zero]
  have hfirst := hbyte 0 (by decide)
  rw [Nat.add_zero] at hfirst
  simp only [wordAt, hfirst, hbyte 1 (by decide), hbyte 2 (by decide), hbyte 3 (by decide)]
  exact Memory.append_bytes32 _

/-- The memory interface over a buffer of `size` bytes with the contents `host`. -/
def MemoryInterface.flat (size : Address) (host : Nat → Byte) : MemoryInterface where
  translate := fun a => (balFlatTranslationInterfaceTranslate size a).map Prod.snd
  word := fun a => wordAt host a.toNat

theorem flatTranslate_eq_some {size a : Address} {k bytes : Nat}
    (h : balFlatTranslationInterfaceTranslate size a = some (k, bytes)) :
    k = a.toNat ∧ a.toNat + bytes = size.toNat := by
  unfold balFlatTranslationInterfaceTranslate at h
  split at h
  · cases h
  · next hin =>
      obtain ⟨rfl, rfl⟩ := Prod.mk.inj (Option.some.inj h)
      refine ⟨rfl, ?_⟩
      bv_omega

section Fetches

variable {size : Address} {host : Nat → Byte} {input : TranslateInput} {c : Compiler}
  {start : Address} {i limit k : Nat} {s : LoopState}

/-- `host_address_cursor` as a position in the buffer, at the test of the `for` loop. -/
inductive CursorAt (size : Address) (input : TranslateInput) (c : Compiler) (start : Address) :
    Nat → Nat → LoopState → Nat → Prop
  | translate {s s' : LoopState} {limit k bytes : Nat} (hreach : Reaches input c start .whileTest s)
      (htranslate : balFlatTranslationInterfaceTranslate size s.guestAddress = some (k, bytes))
      (hnext : loopStep input start c.assembler.offset .whileTest s = .next (.forTest 0 limit) s') :
      CursorAt size input c start 0 limit s' k
  | advance {i limit k : Nat} {s s' : LoopState} (h : CursorAt size input c start i limit s k)
      (hnext : loopStep input start c.assembler.offset (.forTest i limit) s =
        .next (.forTest (i + 1) limit) s') :
      CursorAt size input c start (i + 1) limit s' (k + 4)

/-- Only a jump moves the guest address inside the switch, and it ends the block. -/
theorem LoopState.translateOpcode_guestAddress {metadata : Metadata} {w : BitVec 32}
    (h : (s.translateOpcode metadata w).isBlockTerminated = false) :
    (s.translateOpcode metadata w).guestAddress = s.guestAddress := by
  unfold translateOpcode at h ⊢
  cases hopcode : metadata.irOpcode with
  | jump => simp [hopcode] at h
  | branchZero | branchNotZero => simp [hopcode, terminate] at h
  | mov =>
      simp only [translateMov]
      split
      · rfl
      · split <;> rfl
  | add | sub | cmp =>
      simp only [translateAddSub]
      split
      · rfl
      · split <;> rfl
  | _ => rfl

/-- An instruction after which the `for` loop goes on is four bytes long. -/
theorem translateInstruction_guestAddress {base : Address} {blockOffset : Nat}
    (h : (translateInstruction input base blockOffset i s).2 = false) :
    (translateInstruction input base blockOffset i s).1.guestAddress = s.guestAddress + 4 := by
  cases hdecode : balDecodeArm64 input.table (input.memory.word s.guestAddress) with
  | none =>
      rw [translateInstruction_undecoded hdecode] at h
      cases h
  | some metadata =>
      by_cases htrap : isTrapped input.engineFlags metadata = true
      · rw [translateInstruction_trapped hdecode htrap] at h
        cases h
      · have htrapped : isTrapped input.engineFlags metadata = false := Bool.eq_false_iff.mpr htrap
        by_cases hfailed :
            (s.translateOpcode metadata (input.memory.word s.guestAddress)).failed = true
        · rw [translateInstruction_failed hdecode htrapped hfailed] at h
          cases h
        · obtain ⟨s', -, heq⟩ := translateInstruction_counted hdecode htrapped rfl
            (Bool.eq_false_iff.mpr hfailed)
          rw [heq] at h ⊢
          split at h
          · cases h
          · next hlimit =>
              split at h
              · cases h
              · next hopen =>
                  rw [if_neg hlimit, if_neg hopen]
                  simp only
                  rw [LoopState.translateOpcode_guestAddress (Bool.eq_false_iff.mpr hopen)]

theorem loopStep_advance {base : Address} {blockOffset : Nat} {s' : LoopState}
    (hnext : loopStep input base blockOffset (.forTest i limit) s = .next (.forTest (i + 1) limit) s') :
    i < limit ∧ s'.guestAddress = s.guestAddress + 4 := by
  obtain ⟨_, habsurd, _⟩ | ⟨_, _, -, -, habsurd, -⟩ | ⟨j, limit', hpoint, hin, rfl, hpoint'⟩ :=
    loopStep_next hnext
  · cases habsurd
  · cases habsurd
  · cases hpoint
    refine ⟨hin, translateInstruction_guestAddress ?_⟩
    split at hpoint'
    · cases hpoint'
    · next hmore => exact Bool.eq_false_iff.mpr hmore

/-- **The cursor keeps in step** with the guest address, and the rest of the readable range is inside
the buffer. -/
theorem CursorAt.bounds (hmemory : input.memory = .flat size host)
    (h : CursorAt size input c start i limit s k) :
    i ≤ limit ∧ k = s.guestAddress.toNat ∧ k + 4 * (limit - i) ≤ size.toNat := by
  induction h with
  | translate hreach htranslate hnext =>
      obtain ⟨hk, hsize⟩ := flatTranslate_eq_some htranslate
      obtain ⟨bytes', -, -, hreadable, hpoint, rfl⟩ | ⟨_, _, habsurd, _⟩ | ⟨_, _, habsurd, _⟩ :=
        loopStep_next hnext
      · obtain ⟨-, rfl⟩ := LoopPoint.forTest.inj hpoint
        have hbytes := hreadable.1
        rw [hmemory] at hbytes
        simp only [MemoryInterface.flat, htranslate, Option.map_some, Option.some.injEq] at hbytes
        subst hbytes
        exact ⟨Nat.zero_le _, hk, by omega⟩
      · cases habsurd
      · cases habsurd
  | advance h hnext ih =>
      obtain ⟨-, hk, hsize⟩ := ih
      obtain ⟨hin, haddress⟩ := loopStep_advance hnext
      have hlt := size.isLt
      refine ⟨hin, ?_, by omega⟩
      rw [haddress]
      bv_omega

theorem Reaches.cursor (hmemory : input.memory = .flat size host) {p : LoopPoint}
    (h : Reaches input c start p s) : ∀ {i limit}, p = .forTest i limit →
      ∃ k, CursorAt size input c start i limit s k := by
  induction h with
  | start => exact nofun
  | step hreach hnext ih =>
      intro i limit hpoint
      subst hpoint
      obtain ⟨bytes, rfl, -, hreadable, hpoint, rfl⟩ | ⟨_, _, -, -, habsurd, -⟩ |
        ⟨j, limit', rfl, -, -, hpoint⟩ := loopStep_next hnext
      · obtain ⟨rfl, rfl⟩ := LoopPoint.forTest.inj hpoint
        have hbytes := hreadable.1
        rw [hmemory] at hbytes
        obtain ⟨⟨k, bytes'⟩, htranslate, -⟩ := Option.map_eq_some_iff.mp hbytes
        exact ⟨k, .translate hreach htranslate hnext⟩
      · cases habsurd
      · split at hpoint
        · cases hpoint
        · obtain ⟨rfl, rfl⟩ := LoopPoint.forTest.inj hpoint
          obtain ⟨k, hcursor⟩ := ih rfl
          exact ⟨k + 4, .advance hcursor hnext⟩

/-! ### The end of the buffer -/

/-- A block that goes on where less than a word is left comes to the test of the `while` loop there. -/
theorem Reaches.whileTest_of_short (hmemory : input.memory = .flat size host) {p : LoopPoint}
    (h : Reaches input c start p s) (hshort : size.toNat < s.guestAddress.toNat + 4) :
    Reaches input c start .whileTest s := by
  cases p with
  | whileTest => exact h
  | forTest i limit =>
      obtain ⟨k, hcursor⟩ := h.cursor hmemory rfl
      obtain ⟨-, hk, hsize⟩ := hcursor.bounds hmemory
      refine .step h ?_
      simp only [loopStep]
      rw [if_neg (by omega)]

/-- The `while` loop leaves with a failure where less than a word is left. -/
theorem loopStep_short (hmemory : input.memory = .flat size host)
    (hterminated : s.isBlockTerminated = false) (hshort : size.toNat < s.guestAddress.toNat + 4)
    {base : Address} {blockOffset : Nat} :
    loopStep input base blockOffset .whileTest s =
      .exit (s.withCompiler { s.compiler with
        status := if s.guestAddress.toNat < size.toNat then .pcAlignment else .memoryFault }) := by
  simp only [loopStep, hterminated, hmemory, MemoryInterface.flat, balFlatTranslationInterfaceTranslate]
  by_cases hin : s.guestAddress.toNat < size.toNat
  · have hmapped : ¬size ≤ s.guestAddress := fun hle => absurd (BitVec.le_def.mp hle) (by omega)
    have hbytes : (size - s.guestAddress).toNat / 4 = 0 := by
      have hdifference : (size - s.guestAddress).toNat = size.toNat - s.guestAddress.toNat := by
        bv_omega
      omega
    simp only [if_neg hmapped, Option.map_some, hbytes, if_pos hin, Bool.false_eq_true, if_false,
      if_true]
  · have hunmapped : size ≤ s.guestAddress := BitVec.le_def.mpr (by omega)
    simp only [if_pos hunmapped, Option.map_none, if_neg hin, Bool.false_eq_true, if_false]

end Fetches

/-- A translation of flat memory. -/
def TranslateInput.onFlat (input : TranslateInput) (size : Address) (host : Nat → Byte) :
    TranslateInput := { input with memory := .flat size host }

/-- **Fetches stay inside flat memory.** Every word that the `for` loop reads is at its cursor and
inside the buffer, and a block that goes on where less than a word is left is not compiled. -/
theorem flat_fetches (input : TranslateInput) (size : Address) (host : Nat → Byte) (c : Compiler)
    (start : Address) :
    (∀ {i limit s}, Reaches (input.onFlat size host) c start (.forTest i limit) s → i < limit →
      (∃ k, CursorAt size (input.onFlat size host) c start i limit s k) ∧
      ∀ k, CursorAt size (input.onFlat size host) c start i limit s k →
        k + 4 ≤ size.toNat ∧ (input.onFlat size host).memory.word s.guestAddress = wordAt host k) ∧
    (input.maxInstructions ≠ 0 → ∀ {p s}, Reaches (input.onFlat size host) c start p s →
      s.isBlockTerminated = false → size.toNat < s.guestAddress.toNat + 4 →
      (∃ t, Translates (input.onFlat size host) c start t) ∧
      ∀ t, Translates (input.onFlat size host) c start t → t.entry = none ∧
        t.compiler.status =
          if s.guestAddress.toNat < size.toNat then .pcAlignment else .memoryFault) := by
  refine ⟨fun {i limit s} hreach hin => ⟨hreach.cursor rfl rfl, fun k hcursor => ?_⟩,
    fun hmax {p s} hreach hterminated hshort => ?_⟩
  · obtain ⟨-, rfl, hsize⟩ := hcursor.bounds rfl
    exact ⟨by omega, rfl⟩
  · have hmemory : (input.onFlat size host).memory = .flat size host := rfl
    have hmax' : (input.onFlat size host).maxInstructions ≠ 0 := hmax
    have hwhile := hreach.whileTest_of_short hmemory hshort
    have hexit : loopStep (input.onFlat size host) start c.assembler.offset .whileTest s = _ :=
      loopStep_short hmemory hterminated hshort
    obtain ⟨t, htranslates, hstatus⟩ := hwhile.translates_of_exit hmax' hexit
    have hfailed : t.compiler.status ≠ .success := by
      rw [hstatus]
      simp only [LoopState.withCompiler]
      split <;> decide
    refine ⟨⟨t, htranslates⟩, fun t' htranslates' => ?_⟩
    rw [htranslates'.unique htranslates]
    exact ⟨htranslates.entry_none hfailed, hstatus⟩

/-- Six bytes: `MOVZ X0, #5` and half a word. -/
def sixBytes : TranslateInput :=
  (TranslateInput.ofWords 0 [] 65535).onFlat 6 fun k => (0xD28000A0 : BitVec 32).extractLsb' (8 * (k % 4)) 8

/-- The block runs off their end. -/
theorem flat_fetches_sixBytes : ∃ s t, Reaches sixBytes (.fresh 256) 0 .whileTest s ∧ s.guestAddress = 4 ∧
    Translates sixBytes (.fresh 256) 0 t ∧ t.entry = none ∧ t.compiler.status = .pcAlignment := by
  have heval : (runLoops sixBytes 0 0 5 .whileTest (startState (.fresh 256) 0)).map
      (fun s => (s.guestAddress, s.isBlockTerminated)) = some (4, false) := by decide
  obtain ⟨s', hrun, hfacts⟩ := Option.map_eq_some_iff.mp heval
  obtain ⟨hguest, hrunning⟩ := Prod.mk.inj hfacts
  obtain ⟨p, s, hreach, hexit⟩ := runLoops_reaches (c := .fresh 256) .start hrun
  have hsame : s.guestAddress = 4 ∧ s.isBlockTerminated = false := by
    obtain ⟨-, ⟨-, rfl⟩ | ⟨-, -, rfl⟩ | ⟨_, -, -, -, rfl⟩⟩ := loopStep_exit_cases hexit
    all_goals exact ⟨hguest, hrunning⟩
  obtain ⟨rfl, -⟩ := loopStep_exit_cases hexit
  have hshort : (6 : Address).toNat < s.guestAddress.toNat + 4 := by
    rw [hsame.1]
    decide
  obtain ⟨⟨t, htranslates⟩, hfails⟩ :=
    (flat_fetches _ 6 _ (.fresh 256) 0).2 (by decide) hreach hsame.2 hshort
  refine ⟨s, t, hreach, hsame.1, htranslates, (hfails t htranslates).1, (hfails t htranslates).2.trans ?_⟩
  rw [if_pos (by rw [hsame.1]; decide)]

end Ballistic
