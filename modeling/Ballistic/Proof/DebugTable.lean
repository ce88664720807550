import Ballistic.JitDebug
import Ballistic.Proof.Compilations

/-!
# The debug table and resets

A reset of the compiler starts the code buffer anew and leaves the debug table as it is. The blocks
compiled since the last reset do not overlap, and their entries come after all the older ones. So the
handler, which takes the first entry that covers an address, finds the entry of a live block unless
an older entry covers the address as well.
-/

namespace Ballistic

open Machine

/-- The entries that a translation adds to the table. -/
def JitDebugContext.recorded (context : JitDebugContext) (rxBuffer : Nat) (t : Translation) :
    List JitBlockEntry :=
  (context.record rxBuffer t).entries.drop context.entries.length

/-- Compilations and resets on one compiler, with a buffer mapped at `rxBuffer`: the compiler and the
table after them, the entries recorded before the last reset and those recorded since. -/
inductive DebugSession (rxBuffer : Nat) :
    Compiler → JitDebugContext → List JitBlockEntry → List JitBlockEntry → Prop
  | init {buffer : Nat → Byte} {size : Nat} {debug : Bool} {c : Compiler}
      (hc : Compiler.init buffer size debug = some c) :
      DebugSession rxBuffer c (.init rxBuffer size) [] []
  | compile {c : Compiler} {context : JitDebugContext} {stale live : List JitBlockEntry}
      {input : TranslateInput} {pc : Address} {t : Translation}
      (h : DebugSession rxBuffer c context stale live) (ht : Translates input c pc t) :
      DebugSession rxBuffer t.compiler (context.record rxBuffer t) stale
        (live ++ context.recorded rxBuffer t)
  | reset {c : Compiler} {context : JitDebugContext} {stale live : List JitBlockEntry}
      (h : DebugSession rxBuffer c context stale live) :
      DebugSession rxBuffer c.reset context (stale ++ live) []

/-- For every address inside a block that is live and recorded, the handler's search ends at the
entry of that block: the entries before the live ones are `stale`. -/
def AttributesLive (context : JitDebugContext) (stale live : List JitBlockEntry) : Prop :=
  ∀ (i : Nat) (entry : JitBlockEntry), live[i]? = some entry → ∀ rip, entry.covers rip = true →
    context.entries.findIdx? (fun entry => entry.covers rip) = some (stale.length + i)

/-- No entry from before the last reset shares an address with a live one. -/
def NoOverlap (stale live : List JitBlockEntry) : Prop :=
  ∀ old ∈ stale, ∀ entry ∈ live, ∀ rip, ¬(old.covers rip = true ∧ entry.covers rip = true)

/-- The address behind the block of an entry. -/
def JitBlockEntry.finish (entry : JitBlockEntry) : Nat := entry.rxStart + entry.rxSize.toNat

theorem JitBlockEntry.covers_iff (entry : JitBlockEntry) (rip : Nat) :
    entry.covers rip = true ↔ entry.rxStart ≤ rip ∧ rip < entry.finish := by
  simp only [JitBlockEntry.covers, JitBlockEntry.finish, Bool.and_eq_true, decide_eq_true_eq]

/-! ### Recording -/

theorem JitDebugContext.addBlock_entries (context : JitDebugContext) (entry : JitBlockEntry) :
    (context.addBlock entry).entries = context.entries ∨
      (context.addBlock entry).entries = context.entries ++ [entry] := by
  unfold addBlock
  split
  · exact .inl rfl
  · split
    · exact .inl rfl
    · split
      · exact .inl rfl
      · simp only
        split
        · exact .inl rfl
        · exact .inr rfl

/-- A translation records nothing, or its own block. -/
theorem JitDebugContext.record_cases (context : JitDebugContext) (rxBuffer : Nat) (t : Translation) :
    ((context.record rxBuffer t).entries = context.entries ∧ context.recorded rxBuffer t = []) ∨
      ∃ block, t.debugBlock = some block ∧
        (context.record rxBuffer t).entries = context.entries ++ [block.entry rxBuffer] ∧
        context.recorded rxBuffer t = [block.entry rxBuffer] := by
  unfold recorded record
  cases hblock : t.debugBlock with
  | none => exact .inl ⟨rfl, by simp⟩
  | some block =>
      rcases context.addBlock_entries (block.entry rxBuffer) with hsame | hadded
      · exact .inl ⟨hsame, by simp [hsame]⟩
      · exact .inr ⟨block, rfl, hadded, by simp [hadded]⟩

/-- The block for the debugger begins where the translation began, and is not longer than its
code. -/
theorem Translates.debugBlock {input : TranslateInput} {c : Compiler} {pc : Address}
    {t : Translation} (h : Translates input c pc t) {block : DebugBlock}
    (hblock : t.debugBlock = some block) :
    block.rxStart = c.assembler.offset ∧
      block.rxStart + block.rxSize.toNat ≤ t.compiler.assembler.offset := by
  have hle := h.extends.offset_le
  obtain ⟨fuel, htranslate⟩ := h
  unfold balTier1CompilerTranslate at htranslate
  split at htranslate
  · cases htranslate
    cases hblock
  · obtain ⟨s, -, rfl⟩ := Option.map_eq_some_iff.mp htranslate
    simp only [finishTranslation] at hblock hle ⊢
    split at hblock
    · cases hblock
    · next hok =>
        rw [if_neg hok] at hle ⊢
        split at hblock
        · cases hblock
          refine ⟨rfl, ?_⟩
          simp only [BitVec.toNat_ofNat] at hle ⊢
          have hmod := Nat.mod_le ((s.compiler.terminateBlock s.guestAddress s.isPcDynamic
            s.armInstructionCount input.engineFlags).assembler.offset - c.assembler.offset) (2 ^ 32)
          omega
        · cases hblock

/-! ### Sessions -/

/-- The table is the older entries and the live ones, and the live ones lie one behind the other, up
to the end of the code. -/
structure DebugInvariant (rxBuffer : Nat) (c : Compiler) (context : JitDebugContext)
    (stale live : List JitBlockEntry) : Prop where
  entries_eq : context.entries = stale ++ live
  ordered : live.Pairwise fun x y => x.finish ≤ y.rxStart
  finish_le : ∀ entry ∈ live, entry.finish ≤ rxBuffer + c.assembler.offset

variable {rxBuffer : Nat} {c : Compiler} {context : JitDebugContext}
  {stale live : List JitBlockEntry}

theorem DebugInvariant.compile (h : DebugInvariant rxBuffer c context stale live)
    {input : TranslateInput} {pc : Address} {t : Translation} (ht : Translates input c pc t) :
    DebugInvariant rxBuffer t.compiler (context.record rxBuffer t) stale
      (live ++ context.recorded rxBuffer t) := by
  have hle := ht.extends.offset_le
  obtain ⟨hentries, hrecorded⟩ | ⟨block, hblock, hentries, hrecorded⟩ :=
    context.record_cases rxBuffer t
  · rw [hrecorded, List.append_nil]
    refine ⟨hentries.trans h.entries_eq, h.ordered, fun entry hentry => ?_⟩
    have hfinish := h.finish_le entry hentry
    omega
  · obtain ⟨hstart, hend⟩ := ht.debugBlock hblock
    rw [hrecorded]
    refine ⟨?_, ?_, ?_⟩
    · rw [hentries, h.entries_eq, List.append_assoc]
    · refine List.pairwise_append.mpr ⟨h.ordered, List.pairwise_singleton _ _, ?_⟩
      intro x hx y hy
      rw [List.mem_singleton.mp hy]
      have hfinish := h.finish_le x hx
      simp only [DebugBlock.entry]
      omega
    · intro entry hentry
      rcases List.mem_append.mp hentry with hbefore | hlast
      · have hfinish := h.finish_le entry hbefore
        omega
      · rw [List.mem_singleton.mp hlast]
        simp only [JitBlockEntry.finish, DebugBlock.entry]
        omega

theorem DebugSession.invariant (h : DebugSession rxBuffer c context stale live) :
    DebugInvariant rxBuffer c context stale live := by
  induction h with
  | init hc => exact ⟨rfl, .nil, nofun⟩
  | compile _ ht ih => exact ih.compile ht
  | reset _ ih => exact ⟨by rw [ih.entries_eq, List.append_nil], .nil, nofun⟩

/-- **Faults are attributed to the live block** exactly as long as no entry from before the last reset
shares an address with a live one. -/
theorem DebugSession.attributesLive_iff (h : DebugSession rxBuffer c context stale live) :
    AttributesLive context stale live ↔ NoOverlap stale live := by
  have hinvariant := h.invariant
  unfold AttributesLive
  rw [hinvariant.entries_eq]
  constructor
  · intro hattributes old hold entry hentry rip hboth
    obtain ⟨i, hi⟩ := List.mem_iff_getElem?.mp hentry
    have hfound := hattributes i entry hi rip hboth.2
    obtain ⟨_, _, hfirst⟩ := List.findIdx?_eq_some_iff_getElem.mp hfound
    obtain ⟨j, hj, rfl⟩ := List.mem_iff_getElem.mp hold
    have hnot := hfirst j (by omega)
    rw [List.getElem_append_left hj] at hnot
    exact hnot hboth.1
  · intro hnone i entry hi rip hcovers
    obtain ⟨hlt, rfl⟩ := List.getElem?_eq_some_iff.mp hi
    refine List.findIdx?_eq_some_iff_getElem.mpr ⟨by rw [List.length_append]; omega, ?_, ?_⟩
    · rw [List.getElem_append_right (by omega)]
      simp only [Nat.add_sub_cancel_left]
      exact hcovers
    · intro j hj hother
      by_cases hstale : j < stale.length
      · rw [List.getElem_append_left hstale] at hother
        exact hnone _ (List.getElem_mem hstale) _ (List.getElem_mem hlt) rip ⟨hother, hcovers⟩
      · rw [List.getElem_append_right (by omega)] at hother
        have hordered := List.pairwise_iff_getElem.mp hinvariant.ordered (j - stale.length) i
          (by omega) hlt (by omega)
        rw [JitBlockEntry.covers_iff] at hother hcovers
        omega

/-- A guest of two jumps to themselves, compiled for the debugger. -/
def jumpsInput : TranslateInput where
  table := generatedTable
  memory := .ofWords 0 [0x14000000, 0x14000000]
  maxInstructions := maxBlockInstructions
  engineFlags := EngineFlags.jitDebug

/-- A compiler on a zeroed buffer, with a debug context. -/
def debugCompiler : Compiler := { Compiler.fresh (2 ^ 24) with hasDebugEntries := true }

theorem debugCompiler_session : DebugSession 0 debugCompiler (.init 0 (2 ^ 24)) [] [] := by
  have hinit : Compiler.init (fun _ => 0) (2 ^ 24) true = some debugCompiler := rfl
  exact .init hinit

/-- The entry of one of the two blocks, compiled at the start of the buffer. -/
def jumpEntry (pc : Address) : JitBlockEntry := ⟨0, 34, pc, [(12, 0)]⟩

/-- One block, and no reset: its entry is found. -/
theorem attributesLive_iff_jump : ∃ (c : Compiler) (context : JitDebugContext),
    DebugSession 0 c context [] [jumpEntry 0] ∧ (jumpEntry 0).covers 33 = true ∧
      AttributesLive context [] [jumpEntry 0] := by
  have hrun : ((balTier1CompilerTranslate jumpsInput debugCompiler 0 5).map fun t =>
      (JitDebugContext.init 0 (2 ^ 24)).recorded 0 t) = some [jumpEntry 0] := by decide
  obtain ⟨t, ht, hrecorded⟩ := Option.map_eq_some_iff.mp hrun
  have hsession := debugCompiler_session.compile ⟨5, ht⟩
  rw [hrecorded] at hsession
  exact ⟨_, _, hsession, by decide, hsession.attributesLive_iff.mpr nofun⟩

/-- The block at zero is compiled, the compiler is reset, and the block at four is compiled in its
place: a fault in it is reported for the block at zero. -/
theorem staleEntry_found : ∃ (c : Compiler) (context : JitDebugContext),
    DebugSession 0 c context [jumpEntry 0] [jumpEntry 4] ∧ (jumpEntry 4).covers 0 = true ∧
      context.handleJitFault 0 = .crash (jumpEntry 0) 0 ∧
      ¬AttributesLive context [jumpEntry 0] [jumpEntry 4] := by
  let context := JitDebugContext.init 0 (2 ^ 24)
  have hrun : ((balTier1CompilerTranslate jumpsInput debugCompiler 0 5).bind fun t =>
      (balTier1CompilerTranslate jumpsInput t.compiler.reset 4 5).map fun t' =>
        (context.recorded 0 t, (context.record 0 t).recorded 0 t',
          ((context.record 0 t).record 0 t').handleJitFault 0)) =
      some ([jumpEntry 0], [jumpEntry 4], .crash (jumpEntry 0) 0) := by decide
  obtain ⟨t, ht, hrest⟩ := Option.bind_eq_some_iff.mp hrun
  obtain ⟨t', ht', hresults⟩ := Option.map_eq_some_iff.mp hrest
  simp only [Prod.mk.injEq] at hresults
  obtain ⟨hfirst, hsecond, hfault⟩ := hresults
  have hsession := ((debugCompiler_session.compile
    ⟨5, ht⟩).reset).compile ⟨5, ht'⟩
  rw [hfirst, hsecond] at hsession
  refine ⟨_, _, hsession, by decide, hfault, fun hattributes => ?_⟩
  have hfound := hattributes 0 _ rfl 0 (by decide)
  rw [hsession.invariant.entries_eq] at hfound
  exact absurd hfound (by decide)

end Ballistic
