import Ballistic.Proof.Continuation
import Ballistic.Proof.Recovery

/-!
# The cache after a retry

When a translation is tried again, the buffer starts anew and the block cache stays as it is. To see
what the cache then holds, host code is stamped with the number of resets before it was compiled. As
long as translations are only tried again while the cache is empty, every entry has been compiled
since the last reset, and its code is still there.
-/

namespace Ballistic

open Machine Machine.X86

/-- Host code with the number of resets of the assembler before it was compiled. -/
structure StampedCode where
  position : Nat
  generation : Nat
  deriving DecidableEq, Repr

def stampedKind (generation : Nat) : CodeKind StampedCode where
  position := StampedCode.position
  ofPosition := fun position => ⟨position, generation⟩

/-- The engine from `bal_engine_init` on, through any calls of `bal_engine_run_thread` and whatever
requests come in between, with the number of resets of the assembler. A translation is tried again in
engines with the property `Retried` only. -/
inductive EngineRun (guest : Guest) (Retried : Engine StampedCode → Prop) :
    RunPoint → Engine StampedCode → Nat → Prop
  | init (cpu : A64.State) {buffer : Nat → Byte} {size : Nat} {debug : Bool} {c : Compiler}
      (hc : Compiler.init buffer size debug = some c) :
      EngineRun guest Retried .outside (.init cpu c) 0
  | host {e : Engine StampedCode} {n : Nat} (flags : EngineFlags) (cpu : A64.State)
      (h : EngineRun guest Retried .outside e n) :
      EngineRun guest Retried .outside { e with flags := flags, cpu := cpu } n
  | stop {p : RunPoint} {e : Engine StampedCode} {n : Nat} (h : EngineRun guest Retried p e n) :
      EngineRun guest Retried p e.stopThread n
  | clear {p : RunPoint} {e : Engine StampedCode} {n : Nat} (h : EngineRun guest Retried p e n) :
      EngineRun guest Retried p e.clearCache n
  | call {e : Engine StampedCode} {n : Nat} (h : EngineRun guest Retried .outside e n) :
      EngineRun guest Retried .compareExchange e n
  | returned {status : BalError} {e : Engine StampedCode} {n : Nat}
      (h : EngineRun guest Retried (.returned status) e n) : EngineRun guest Retried .outside e n
  | step {p p' : RunPoint} {e e' : Engine StampedCode} {n : Nat} {executed : Option StampedCode}
      (h : EngineRun guest Retried p e n)
      (hstep : RunStep guest (stampedKind n) p e p' e' executed) (hreset : p ≠ .clearReset)
      (hsteady : p = .dispatch → ¬e.Retries guest) : EngineRun guest Retried p' e' n
  | reset {p' : RunPoint} {e e' : Engine StampedCode} {n : Nat} {executed : Option StampedCode}
      (h : EngineRun guest Retried .clearReset e n)
      (hstep : RunStep guest (stampedKind n) .clearReset e p' e' executed) :
      EngineRun guest Retried p' e' (n + 1)
  | retry {e e' : Engine StampedCode} {n : Nat} {executed : Option StampedCode} {again : Bool}
      (h : EngineRun guest Retried .dispatch e n) (hretries : e.Retries guest)
      (hretried : Retried e) (hstep : Dispatch guest (stampedKind (n + 1)) e e' executed again) :
      EngineRun guest Retried (if again then .stopCheck else .release) e' (n + 1)

/-- Every entry of the cache is the entry of a block that was compiled for its address since the last
reset, and the code of that block is still there. -/
def Engine.CacheCoherent (guest : Guest) (e : Engine StampedCode) (generation : Nat) : Prop :=
  ∀ pc code, e.blockCache.Contains pc code →
    code.generation = generation ∧ HoldsBlock guest e.compiler.assembler pc code.position

variable {guest : Guest}

/-! ### Runs -/

theorem lasts_stamped (guest : Guest) (flags : EngineFlags) (n : Nat) :
    Lasts guest (stampedKind n) flags fun a pc code =>
      code.generation = n ∧ HoldsBlock guest a pc code.position where
  mono h hextends := ⟨h.1, h.2.mono hextends⟩
  compiled hreachable hsucceeds := ⟨rfl, flags, _, _, hreachable, hsucceeds, .refl _⟩

/-- **The cache is coherent** in every state of a run that only tries a translation again while the
cache is empty. -/
theorem EngineRun.cacheCoherent {p : RunPoint} {e : Engine StampedCode} {n : Nat}
    (h : EngineRun guest Engine.CacheEmpty p e n) : e.CacheCoherent guest n := by
  suffices hcaches : e.Caches fun a pc code =>
      code.generation = n ∧ HoldsBlock guest a pc code.position from hcaches.entries
  induction h with
  | init cpu hc => exact .init cpu (.init hc)
  | host _ _ _ ih | stop _ ih | clear _ ih | call _ ih | returned _ ih =>
      exact ⟨ih.reachable, ih.entries⟩
  | step _ hstep _ hsteady ih =>
      exact hstep.caches (lasts_stamped ..) (fun hpoint hretries => absurd hretries (hsteady hpoint)) ih
  | reset _ hstep ih =>
      cases hstep with
      | reset =>
          exact ⟨ih.reachable.reset, fun pc code hcode =>
            (BlockCache.not_contains_empty pc code hcode).elim⟩
  | retry _ _ hempty hstep ih =>
      -- The entries of the last generation would be stale, but there are none.
      exact hstep.caches (lasts_stamped ..) (fun _ => hempty)
        ⟨ih.reachable, fun pc code hcode => (hempty pc code hcode).elim⟩

/-! ### A retry with blocks in the cache -/

theorem BlockCache.contains_put_of_ne {Code : Type} {cache : BlockCache Code} {set way set' way' : Nat}
    {entry : BlockCacheEntry Code} {pc : Address} {code : Code}
    (h : cache set way = ⟨pc, some code⟩) (hne : ¬(set = set' ∧ way = way')) :
    (cache.put set' way' entry).Contains pc code :=
  ⟨set, way, by rw [put, if_neg hne, h]⟩

/-- An insertion after a miss leaves some entry of a cache that is not empty. -/
theorem BlockCache.contains_of_miss {Code : Type} {cache : BlockCache Code} {pc pc' : Address}
    {code code' : Code} (hmiss : cache.lookup pc' = none) (hcode : cache.Contains pc code) :
    ∃ pc code, cache.Contains pc code ∧ (cache.insert pc' code').Contains pc code := by
  obtain ⟨set, way, hentry⟩ := hcode
  by_cases hover : set = setIndex pc' ∧ way = cache.insertWay pc'
  swap
  · exact ⟨pc, code, ⟨set, way, hentry⟩, contains_put_of_ne hentry hover⟩
  obtain ⟨rfl, rfl⟩ := hover
  rw [lookup, List.findSome?_eq_none_iff] at hmiss
  -- The way that is written holds a block of another address, so all the ways hold one.
  have hfull : ∀ i ∈ List.range blockCacheWays, (cache (setIndex pc') i).hostCode.isNone = false := by
    simp only [insertWay] at hentry
    split at hentry
    · next i hfind =>
        have hsame := List.find?_some hfind
        have habsurd := hmiss i (List.mem_of_find?_eq_some hfind)
        simp only [hentry, decide_eq_true_eq] at hsame habsurd
        rw [if_pos hsame] at habsurd
        cases habsurd
    · split at hentry
      · next i hfind =>
          have hnone := List.find?_some hfind
          rw [hentry] at hnone
          cases hnone
      · next hfind =>
          intro i hi
          exact Bool.eq_false_iff.mpr (List.find?_eq_none.mp hfind i hi)
  obtain ⟨j, hj, hne⟩ : ∃ j ∈ List.range blockCacheWays, j ≠ cache.insertWay pc' := by
    by_cases hzero : cache.insertWay pc' = 0
    · exact ⟨1, by decide, by omega⟩
    · exact ⟨0, by decide, by omega⟩
  have hother := hfull j hj
  cases hway : cache (setIndex pc') j with
  | mk address hostCode =>
      rw [hway] at hother
      cases hostCode with
      | none => cases hother
      | some other =>
          exact ⟨address, other, ⟨_, j, hway⟩, contains_put_of_ne hway fun hsame => hne hsame.2⟩

/-- A retry with a block in the cache leaves a block from before the reset there. -/
theorem Dispatch.incoherent_of_retry {e e' : Engine StampedCode} {n : Nat}
    {executed : Option StampedCode} {again : Bool}
    (h : Dispatch guest (stampedKind (n + 1)) e e' executed again) (hretries : e.Retries guest)
    (hcoherent : e.CacheCoherent guest n) (hfilled : ¬e.CacheEmpty) :
    ¬e'.CacheCoherent guest (n + 1) := by
  obtain ⟨pc, code, hcode⟩ : ∃ pc code, e.blockCache.Contains pc code := by
    simpa only [Engine.CacheEmpty, not_forall, not_not] using hfilled
  have hstale : ∀ pc code, e.blockCache.Contains pc code → e'.blockCache.Contains pc code →
      ¬e'.CacheCoherent guest (n + 1) := by
    intro pc code hbefore hafter hcoherent'
    have hold := (hcoherent pc code hbefore).1
    have hnew := (hcoherent' pc code hafter).1
    omega
  cases h with
  | interrupt | sentinel | failure => exact hstale pc code hcode hcode
  | block _ hobtains _ =>
      cases hdisabled : e.cacheDisabled with
      | true =>
          refine hstale pc code hcode ?_
          simp only [Engine.afterBlock, hdisabled, if_true]
          exact hcode
      | false =>
          have hmiss := hretries.2.1.resolve_left (by rw [hdisabled]; decide)
          obtain ⟨pc', code', hbefore, hafter⟩ := BlockCache.contains_of_miss hmiss hcode
          refine hstale pc' code' hbefore ?_
          simp only [Engine.afterBlock, hdisabled, Bool.false_eq_true, if_false]
          exact hafter

/-! ### A loop that fills the buffer -/

/-- An engine in the middle of a run, with the CPU record at address zero. -/
def memoryEngine (flags : EngineFlags) (m : Memory) (c : Compiler) (cache : BlockCache StampedCode) :
    Engine StampedCode where
  cpu := cpuState m 0
  flags := flags
  status := .success
  compiler := c
  blockCache := cache
  isExecuting := false
  stopRequested := false
  clearCacheRequested := false

section Loop

variable {Retried : Engine StampedCode → Prop} {flags : EngineFlags} {m : Memory} {c : Compiler}
  {cache : BlockCache StampedCode} {n : Nat} {t : Translation} {entry : Nat} {pc : Address}

theorem EngineRun.enters (h : EngineRun guest Retried .outside (memoryEngine flags m c cache) n) :
    EngineRun guest Retried .stopCheck (memoryEngine flags m c cache) n :=
  h.call.step (.entered rfl) nofun nofun

theorem EngineRun.dispatches
    (h : EngineRun guest Retried .stopCheck (memoryEngine flags m c cache) n) :
    EngineRun guest Retried .dispatch (memoryEngine flags m c cache) n :=
  (h.step (.unstopped rfl) nofun nofun).step (.uncleared rfl) nofun nofun

/-- An iteration that compiles a block and executes it. -/
theorem EngineRun.compiles (h : EngineRun guest Retried .dispatch (memoryEngine flags m c cache) n)
    (hproceeds : (memoryEngine flags m c cache).Proceeds) (hmiss : (memoryEngine flags m c cache).Misses)
    (ht : Succeeds (guest.input flags) c (cpuState m 0).pc t entry)
    (hstores : StoresPc t.compiler.assembler.buffer entry pc) :
    ∃ m', (cpuState m' 0).pc = pc ∧
      EngineRun guest Retried (if !flags.has EngineFlags.singleStep then .stopCheck else .release)
        (memoryEngine flags m' t.compiler
          (if flags.has EngineFlags.disableBlockCache then cache
            else cache.insert (cpuState m 0).pc ⟨entry, n⟩)) n := by
  have hdone : t.entry ≠ none := by
    rw [ht.entry_eq]
    exact Option.some_ne_none _
  have hsteady : ¬(memoryEngine flags m c cache).Retries guest := by
    rintro ⟨-, -, t', hretries⟩
    have hsame : t' = t := hretries.1.unique ht.translates
    exact hdone (hsame ▸ hretries.2.1)
  obtain ⟨m', hpc, hruns⟩ := hstores.runsBlock m
  refine ⟨m', hpc, ?_⟩
  have hobtains : Obtains guest (stampedKind n) (memoryEngine flags m c cache) t.compiler
      ⟨entry, n⟩ := .compiled hmiss (.once ht.translates (.inl hdone)) ht.entry_eq
  exact h.step (.dispatched (.block hproceeds hobtains hruns)) nofun fun _ => hsteady

end Loop

/-- Two jumps to themselves, at zero and at four, and `ADDS X0, X0, #1`, `ADD X0, X0, #512` and a jump
to zero from eight on. -/
def loopGuest : Guest where
  table := generatedTable
  memory := .ofWords 0 [0x14000000, 0x14000000, 0xB1000400, 0x91080000, 0x17FFFFFC]

/-- The CPU record at address zero with a program counter. -/
def pcMemory (pc : Address) : Memory := Memory.write64 (fun _ => 0) (above 0 offsetPc) pc

theorem cpuState_pcMemory (pc : Address) : (cpuState (pcMemory pc) 0).pc = pc :=
  Memory.read64_write64_self ..

/-- The cache with the block at four, compiled first. -/
def loopCache : BlockCache StampedCode := BlockCache.empty.insert 4 ⟨0, 0⟩

theorem loopCache_contains : loopCache.Contains 4 ⟨0, 0⟩ := ⟨1, 0, rfl⟩

/-- A block of the guest ends at a jump. -/
theorem loopGuest_storesPc {flags : EngineFlags} {c : Compiler} {start a pc : Address}
    {t : Translation} {entry : Nat} (h : Succeeds (loopGuest.input flags) c start t entry)
    (hreachable : c.Reachable)
    (hends : EndsAt (loopGuest.input flags) start a branchMetadata (.opcode .jumps))
    (htarget : Compiler.translateJump branchMetadata (loopGuest.memory.word a) a = pc) :
    StoresPc t.compiler.assembler.buffer entry pc := by
  rw [← htarget]
  exact h.storesEndAddress hreachable.window hends nofun nofun fun _ _ => rfl

theorem loopGuest_endsAt_self (flags : EngineFlags) (start : Address) {bytes : Nat}
    (hreadable : Readable (loopGuest.input flags) start bytes)
    (hdecode : balDecodeArm64 generatedTable (loopGuest.memory.word start) = some branchMetadata)
    (hends : endingOf (loopGuest.input flags) 0 branchMetadata = some (.opcode .jumps))
    (hin : 0 < min (bytes / 4) (loopGuest.input flags).maxInstructions) :
    EndsAt (loopGuest.input flags) start start branchMetadata (.opcode .jumps) :=
  ⟨0, _, .tail .refl (.readable hreadable), hin, hdecode, hends⟩

theorem BlockCache.lookup_empty {Code : Type} (pc : Address) :
    (BlockCache.empty : BlockCache Code).lookup pc = none := by
  rw [lookup, List.findSome?_eq_none_iff]
  intro i _
  exact ite_self none

theorem memoryEngine_proceeds {flags : EngineFlags} {m : Memory} {c : Compiler}
    {cache : BlockCache StampedCode} (hflags : flags.has EngineFlags.interruptPending = false)
    {pc : Address} (hpc : (cpuState m 0).pc = pc) (hne : pc ≠ engineSentinel) :
    (memoryEngine flags m c cache).Proceeds :=
  ⟨hflags, hpc ▸ hne⟩

/-- The jump at four is compiled and executed by a single step. -/
theorem loop_first (Retried : Engine StampedCode → Prop) : ∃ m c,
    EngineRun loopGuest Retried .release (memoryEngine EngineFlags.singleStep m c loopCache) 0 ∧
      c.Reachable ∧ c.Ok ∧ c.assembler.capacity = 2 ^ 24 ∧ c.assembler.offset = 34 := by
  obtain ⟨t, ht, h⟩ := succeeds_of_eval (loopGuest.input EngineFlags.singleStep) (.fresh (2 ^ 24)) 4 4
    (show _ = some 0 by decide)
  have hoffset : ((balTier1CompilerTranslate (loopGuest.input EngineFlags.singleStep)
      (.fresh (2 ^ 24)) 4 4).map (·.compiler.assembler.offset)) = some 34 := by decide
  rw [ht, Option.map_some, Option.some.injEq] at hoffset
  have hfresh : (Compiler.fresh (2 ^ 24)).Reachable := Compiler.fresh_reachable (by decide)
  have hends := loopGuest_endsAt_self EngineFlags.singleStep 4
    ⟨(by decide : _ = some 16), by decide, by decide⟩ (by decide) (by decide) (by decide)
  have hcompiled : Succeeds (loopGuest.input EngineFlags.singleStep) (.fresh (2 ^ 24))
      (cpuState (pcMemory 4) 0).pc t 0 := by
    rw [cpuState_pcMemory]
    exact h
  have hstart : EngineRun loopGuest Retried .outside
      (memoryEngine EngineFlags.singleStep (pcMemory 4) (.fresh (2 ^ 24)) .empty) 0 :=
    .host EngineFlags.singleStep (cpuState (pcMemory 4) 0)
      (.init (cpuState (fun _ => 0) 0) (Compiler.init_fresh (by decide)))
  obtain ⟨m, -, hrun⟩ := hstart.enters.dispatches.compiles
    (memoryEngine_proceeds (by decide) (cpuState_pcMemory 4) (by decide))
    (.inr (BlockCache.lookup_empty _)) hcompiled (loopGuest_storesPc h hfresh hends rfl)
  obtain ⟨-, ⟨s, hfinal⟩, -⟩ := h.final
  refine ⟨m, t.compiler, ?_, hfresh.translate h.translates, hfinal.ok, h.translates.capacity, hoffset⟩
  rw [cpuState_pcMemory] at hrun
  exact hrun

/-- The flags under which the loop fills the buffer: every iteration compiles its block. -/
def loopFlags : EngineFlags := EngineFlags.disableBlockCache

theorem loopFlags_misses (m : Memory) (c : Compiler) (cache : BlockCache StampedCode) :
    (memoryEngine loopFlags m c cache).Misses := .inl (by decide : loopFlags.has _ = true)

/-- The jump at zero, compiled wherever there is room for it. -/
theorem loop_block {c : Compiler} (hreachable : c.Reachable) (hok : c.Ok)
    (hcapacity : c.assembler.capacity = 2 ^ 24) (hroom : c.assembler.offset + 34 ≤ 2 ^ 24) :
    ∃ t, Succeeds (loopGuest.input loopFlags) c 0 t c.assembler.offset ∧
      t.compiler.assembler.offset = c.assembler.offset + 34 ∧
      StoresPc t.compiler.assembler.buffer c.assembler.offset 0 := by
  obtain ⟨t₀, ht₀, h₀⟩ := succeeds_of_eval (loopGuest.input loopFlags) (.fresh (2 ^ 24)) 0 5
    (show _ = some 0 by decide)
  have hlength : ((balTier1CompilerTranslate (loopGuest.input loopFlags)
      (.fresh (2 ^ 24)) 0 5).map (·.compiler.assembler.offset)) = some 34 := by decide
  rw [ht₀, Option.map_some, Option.some.injEq] at hlength
  have hfresh : (Compiler.fresh (2 ^ 24)).assembler.offset = 0 := rfl
  obtain ⟨t, ht, hoffset⟩ := h₀.moves ⟨rfl, rfl⟩ hok hreachable.window_eq
    (hcapacity ▸ by decide) (by rw [hlength, hcapacity, hfresh]; omega)
  have hends := loopGuest_endsAt_self loopFlags 0
    ⟨(by decide : _ = some 20), by decide, by decide⟩ (by decide) (by decide) (by decide)
  exact ⟨t, ht, by omega, loopGuest_storesPc ht hreachable hends (by decide)⟩

/-- The loop at zero has filled the buffer up to some place, with the block at four in the cache. -/
def LoopAt (offset : Nat) : Prop :=
  ∃ m c, EngineRun loopGuest (fun _ => True) .stopCheck (memoryEngine loopFlags m c loopCache) 0 ∧
    (cpuState m 0).pc = 0 ∧ c.Reachable ∧ c.Ok ∧ c.assembler.capacity = 2 ^ 24 ∧
    c.assembler.offset = offset

/-- One iteration of the loop. -/
theorem LoopAt.next {offset : Nat} (h : LoopAt offset) (hroom : offset + 34 ≤ 2 ^ 24) :
    LoopAt (offset + 34) := by
  obtain ⟨m, c, hrun, hpc, hreachable, hok, hcapacity, rfl⟩ := h
  obtain ⟨t, ht, hoffset, hstores⟩ := loop_block hreachable hok hcapacity hroom
  obtain ⟨m', hpc', hrun'⟩ := hrun.dispatches.compiles
    (memoryEngine_proceeds (by decide) hpc (by decide)) (loopFlags_misses _ _ _) (hpc.symm ▸ ht) hstores
  obtain ⟨-, ⟨s, hfinal⟩, -⟩ := ht.final
  exact ⟨m', t.compiler, hrun', hpc', hreachable.translate ht.translates, hfinal.ok,
    ht.translates.capacity.trans hcapacity, hoffset⟩

theorem LoopAt.fills {offset : Nat} (h : LoopAt offset) (k : Nat) (hroom : offset + 34 * k ≤ 2 ^ 24) :
    LoopAt (offset + 34 * k) := by
  induction k with
  | zero => exact h
  | succ k ih =>
      have hnext := (ih (by omega)).next (by omega)
      rwa [Nat.add_assoc, ← Nat.mul_succ] at hnext

/-- The block at eight is compiled behind the first one and leads to the loop at zero. -/
theorem loopAt_start : LoopAt 121 := by
  obtain ⟨m, c, hrun, hreachable, hok, hcapacity, hoffset⟩ := loop_first fun _ => True
  have hstart : EngineRun loopGuest (fun _ => True) .outside
      (memoryEngine loopFlags (pcMemory 8) c loopCache) 0 :=
    .host loopFlags (cpuState (pcMemory 8) 0) (hrun.step .released nofun nofun).returned
  obtain ⟨t₀, ht₀, h₀⟩ := succeeds_of_eval (loopGuest.input loopFlags) (.fresh (2 ^ 24)) 8 7
    (show _ = some 0 by decide)
  have hlength : ((balTier1CompilerTranslate (loopGuest.input loopFlags)
      (.fresh (2 ^ 24)) 8 7).map (·.compiler.assembler.offset)) = some 87 := by decide
  rw [ht₀, Option.map_some, Option.some.injEq] at hlength
  have hfresh : (Compiler.fresh (2 ^ 24)).assembler.offset = 0 := rfl
  obtain ⟨t, ht, hend⟩ := h₀.moves ⟨rfl, rfl⟩ hok hreachable.window_eq
    (hcapacity ▸ by decide) (by rw [hlength, hcapacity, hfresh, hoffset]; decide)
  have hends : EndsAt (loopGuest.input loopFlags) 8 16 branchMetadata (.opcode .jumps) := by
    have hreadable : Readable (loopGuest.input loopFlags) 8 12 := ⟨by decide, by decide, by decide⟩
    have hfirst : balDecodeArm64 generatedTable (loopGuest.memory.word 8) =
        some (addSubImmMetadata true false true) := by decide
    have hsecond : balDecodeArm64 generatedTable (loopGuest.memory.word 12) =
        some (addSubImmMetadata true false false) := by decide
    exact ⟨2, 3, .tail (.tail (.tail .refl (.readable hreadable)) (.next (by decide) hfirst (by decide)))
      (.next (by decide) hsecond (by decide)), by decide, by decide, by decide⟩
  have hcompiled : Succeeds (loopGuest.input loopFlags) c (cpuState (pcMemory 8) 0).pc t
      c.assembler.offset := by
    rw [cpuState_pcMemory]
    exact ht
  have hstores : StoresPc t.compiler.assembler.buffer c.assembler.offset 0 :=
    loopGuest_storesPc ht hreachable hends (by decide)
  obtain ⟨m', hpc', hrun'⟩ := hstart.enters.dispatches.compiles
    (memoryEngine_proceeds (by decide) (cpuState_pcMemory 8) (by decide)) (loopFlags_misses _ _ _)
    hcompiled hstores
  obtain ⟨-, ⟨s, hfinal⟩, -⟩ := ht.final
  exact ⟨m', t.compiler, hrun', hpc', hreachable.translate ht.translates, hfinal.ok,
    ht.translates.capacity.trans hcapacity, by omega⟩

/-- The first block is in the cache, and it is coherent. -/
theorem cacheCoherent_first : ∃ e, EngineRun loopGuest Engine.CacheEmpty .release e 0 ∧
    e.blockCache.Contains 4 ⟨0, 0⟩ ∧ e.CacheCoherent loopGuest 0 := by
  obtain ⟨m, c, hrun, -⟩ := loop_first Engine.CacheEmpty
  exact ⟨_, hrun, loopCache_contains, hrun.cacheCoherent⟩

/-- After 493443 iterations of the loop the next block is one byte too long. It is compiled at the
start of the buffer, in the place of the block at four, which is still in the cache. -/
theorem staleBlock_afterRetry : ∃ p e, EngineRun loopGuest (fun _ => True) p e 1 ∧
    e.blockCache.lookup 4 = some ⟨0, 0⟩ ∧ HoldsBlock loopGuest e.compiler.assembler 0 0 ∧
      ¬e.CacheCoherent loopGuest 1 := by
  obtain ⟨m, c, hrun, hpc, hreachable, hok, hcapacity, hoffset⟩ :=
    loopAt_start.fills 493443 (by decide)
  have hsize : c.assembler.capacity ≤ sizeMax := hcapacity ▸ by decide
  have hreset : c.reset.assembler.offset = 0 := rfl
  obtain ⟨t₀, ht₀, hlength, -⟩ := loop_block hreachable.reset c.reset_ok hcapacity
    (by rw [hreset]; decide)
  obtain ⟨t, ht, hfull, hoverflow⟩ := ht₀.overflows hok hreachable.window_eq hsize
    (by omega)
  have hreachable' := (hreachable.translate ht).reset
  obtain ⟨t', ht', -, hstores⟩ := loop_block hreachable' t.compiler.reset_ok
    (ht.capacity.trans hcapacity) (by change 0 + 34 ≤ _; decide)
  obtain ⟨m', -, hruns⟩ := hstores.runsBlock m
  have hretries : Retries loopGuest loopFlags c (cpuState m 0).pc t := by
    rw [hpc]
    exact ⟨ht, hfull, hoverflow⟩
  have hproceeds : (memoryEngine loopFlags m c loopCache).Proceeds :=
    memoryEngine_proceeds (by decide) hpc (by decide)
  have hmiss := loopFlags_misses m c loopCache
  have hobtains : Obtains loopGuest (stampedKind 1) (memoryEngine loopFlags m c loopCache)
      t'.compiler ⟨0, 1⟩ := by
    refine .compiled hmiss (.again hretries ?_) ht'.entry_eq
    exact hpc.symm ▸ ht'.translates
  have hnext := hrun.dispatches.retry ⟨hproceeds, hmiss, t, hretries⟩ trivial
    (.block hproceeds hobtains hruns)
  have hdisabled : (memoryEngine loopFlags m c loopCache).cacheDisabled = true :=
    (by decide : loopFlags.has EngineFlags.disableBlockCache = true)
  have hafter : (memoryEngine loopFlags m c loopCache).afterBlock t'.compiler ⟨0, 1⟩ (cpuState m' 0) =
      memoryEngine loopFlags m' t'.compiler loopCache := by
    simp only [Engine.afterBlock, hdisabled, if_true]
    rfl
  have hlookup : loopCache.lookup 4 = some ⟨0, 0⟩ := by decide
  rw [hafter] at hnext
  refine ⟨_, _, hnext, hlookup, ⟨loopFlags, _, t', hreachable', ht', .refl _⟩, fun hcoherent => ?_⟩
  exact absurd (hcoherent 4 ⟨0, 0⟩ loopCache_contains).1 (by decide)

end Ballistic
