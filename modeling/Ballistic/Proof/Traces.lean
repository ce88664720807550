import Ballistic.Proof.Counting
import Ballistic.Proof.FlaggedRuns

/-!
# What successive blocks perform

The guest instructions that the blocks of a run perform, in order. Blocks without a control transfer
are to perform the words from the first program counter up to the last one, each once. They do exactly
if each of them ends at a trapped instruction or at an unsupported variant, and not at its first word: a
block that ends by the limit or at a register move performs its last instruction and leaves the program
counter there, and a block that ends at its first word leaves it there without performing anything.
-/

namespace Ballistic

open Machine Machine.X86

/-! ### Addresses -/

theorem wordAddress_add (start : Address) (m n : Nat) :
    wordAddress (wordAddress start m) n = wordAddress start (m + n) := by
  rw [wordAddress, wordAddress, wordAddress, BitVec.add_assoc, Nat.mul_add, BitVec.ofNat_add]

theorem wordAddress_succ_ne (start : Address) (n : Nat) :
    wordAddress start (n + 1) ≠ wordAddress start n := by
  rw [← wordAddress_succ]
  bv_omega

/-- The addresses of `n` words from `start` on. -/
def wordsFrom (start : Address) (n : Nat) : List Address := (List.range n).map (wordAddress start)

theorem length_wordsFrom (start : Address) (n : Nat) : (wordsFrom start n).length = n := by
  rw [wordsFrom, List.length_map, List.length_range]

theorem wordsFrom_add (start : Address) (m n : Nat) :
    wordsFrom start (m + n) = wordsFrom start m ++ wordsFrom (wordAddress start m) n := by
  rw [wordsFrom, wordsFrom, List.range_add, List.map_append, List.map_map]
  exact congrArg _ (List.map_congr_left fun k _ => (wordAddress_add start m k).symm)

/-- The address of the instruction at which a block ends is the one behind the instructions before it. -/
theorem EndsAfter.address {input : TranslateInput} {start a : Address} {n : Nat} {metadata : Metadata}
    {ending : Ending} (h : EndsAfter input start n a metadata ending) : a = wordAddress start n := by
  obtain ⟨i, limit, hscan, -, -, -⟩ := h
  have hall : ∀ {x y : Nat × LoopPoint × Address}, Relation.ReflTransGen (CountedMove input) x y →
      x.2.2 = wordAddress start x.1 → y.2.2 = wordAddress start y.1 := by
    intro x y hmoves hx
    induction hmoves with
    | refl => exact hx
    | @tail y z _ hmove ih =>
        obtain ⟨n, p, a⟩ := y
        obtain ⟨n', p', a'⟩ := z
        obtain ⟨hmove, hcount⟩ := hmove
        simp only at hmove hcount ih ⊢
        cases hmove with
        | readable =>
            rw [hcount]
            exact ih
        | next hin =>
            rw [hcount, LoopPoint.instructions, if_pos hin, ih, wordAddress_succ]
        | exhausted hout =>
            rw [hcount, LoopPoint.instructions, if_neg hout]
            exact ih
  exact hall hscan (wordAddress_zero start).symm

theorem EndsAfter.endsAt {input : TranslateInput} {start a : Address} {n : Nat} {metadata : Metadata}
    {ending : Ending} (h : EndsAfter input start n a metadata ending) :
    EndsAt input start a metadata ending := by
  obtain ⟨i, limit, hscan, hrest⟩ := h
  exact ⟨i, limit, hscan.lift Prod.snd fun _ _ hmove => hmove.move, hrest⟩

/-! ### Blocks -/

section Blocks

variable (guest : Guest) (b : ExecutedBlock)

/-- The block ends after `n` instructions, for the reason `ending`. -/
def ExecutedBlock.Ends (n : Nat) (ending : Ending) : Prop :=
  ∃ a metadata, EndsAfter (guest.input b.code.flags) b.pc n a metadata ending

/-- The block performs the instructions at these addresses, in this order. -/
def ExecutedBlock.Performs (performed : List Address) : Prop :=
  ∃ n ending, b.Ends guest n ending ∧ performed = wordsFrom b.pc (executedInstructions n ending)

/-- The block ends in a control transfer. -/
def ExecutedBlock.Transfers : Prop := ∃ n ending, b.Ends guest n ending ∧ ending.transfers = true

/-- The block ends at a trapped instruction or at an unsupported variant, and not at its first
instruction. -/
def ExecutedBlock.EndsBefore : Prop :=
  ∃ n ending, b.Ends guest n ending ∧ 0 < n ∧ (ending = .trapped ∨ ending = .opcode .stops)

variable {guest b}

theorem ExecutedBlock.Ends.unique {n n' : Nat} {ending ending' : Ending} (h : b.Ends guest n ending)
    (h' : b.Ends guest n' ending') : n = n' ∧ ending = ending' := by
  obtain ⟨a, metadata, h⟩ := h
  obtain ⟨a', metadata', h'⟩ := h'
  exact h.unique h'

/-- What a block that is executed leaves: where it ends, and the program counter. -/
theorem ExecutedBlock.HeldBy.leaves {a : Assembler} (h : b.HeldBy guest a) {before after : A64.State}
    (hruns : RunsBlock a.buffer b.code.position before after) :
    ∃ n ending, b.Ends guest n ending ∧
      (ending.transfers = false →
        after.pc = wordAddress b.pc n ∧
          (ending.performed = true ∨ ending = .trapped ∨ ending = .opcode .stops)) := by
  obtain ⟨c, t, hreachable, hsucceeds, hextends⟩ := h
  obtain ⟨s, s0, metadata, ending, -, hended⟩ := hsucceeds.ended
  have hends := hsucceeds.endsAfter hended
  refine ⟨s0.armInstructionCount, ending, ⟨_, _, hends⟩, fun htransfers => ?_⟩
  obtain ⟨m, u, cpu, fuel, hcall, -, hrun, rfl⟩ := hruns
  obtain ⟨fuel', u', hrun', hpc⟩ := hsucceeds.storesPc hreachable.window hends.endsAt htransfers
    hextends.below _ _ hcall
  obtain rfl := runToRet_unique hrun hrun'
  refine ⟨hpc.trans hends.address, ?_⟩
  obtain ⟨r, w, p, hplan⟩ := hsucceeds.endPlan hends.endsAt htransfers
  rcases RegisterAllocator.endPlan_ending hplan with h | h | h | h
  · exact .inr (.inl h)
  · exact .inr (.inr h)
  · exact .inl h
  · rw [htransfers] at h
    cases h

end Blocks

/-! ### Runs -/

section Runs

variable (guest : Guest)

/-- The blocks perform the instructions from `start` up to `pc`, each of them once and in order, and none
of them performs nothing. -/
def ExecutesOnce (start : Address) (blocks : List ExecutedBlock) (pc : Address) : Prop :=
  ∃ performed n, List.Forall₂ (ExecutedBlock.Performs guest) blocks performed ∧ [] ∉ performed ∧
    performed.flatten = wordsFrom start n ∧ pc = wordAddress start n

/-- The blocks follow each other from `start` to `pc`: each one without a control transfer leaves the
program counter at the instruction at which it ends. -/
inductive Follows (start : Address) : List ExecutedBlock → Address → Prop
  | nil : Follows start [] start
  | snoc {blocks : List ExecutedBlock} {b : ExecutedBlock} {n : Nat} {ending : Ending} {pc : Address}
      (h : Follows start blocks b.pc) (hends : b.Ends guest n ending)
      (hleaves : ending.transfers = false → pc = wordAddress b.pc n ∧
        (ending.performed = true ∨ ending = .trapped ∨ ending = .opcode .stops)) :
      Follows start (blocks ++ [b]) pc

variable {guest} {start pc : Address} {blocks : List ExecutedBlock}

/-- **The blocks of a run follow each other.** -/
theorem FlaggedRun.follows {p : RunPoint} {e : Engine FlaggedCode}
    (h : FlaggedRun guest p e start blocks) : Follows guest start blocks e.cpu.pc := by
  induction h with
  | init | host | later => exact .nil
  | flags _ _ ih | stop _ ih | clear _ ih | call _ ih | returned _ ih => exact ih
  | @step p p' e e' start blocks executed h hstep hretry ih =>
      cases executed with
      | none =>
          rw [hstep.cpu_eq, Option.toList_none, List.map_nil, List.append_nil]
          exact ih
      | some code =>
          obtain ⟨hheld, hruns⟩ := hstep.runsBlock h.coherentFlags
          obtain ⟨n, ending, hends, hleaves⟩ := hheld.leaves hruns
          exact .snoc ih hends hleaves

/-- What the blocks perform, with the last one apart. -/
theorem performs_snoc {b : ExecutedBlock} {performed : List (List Address)}
    (h : List.Forall₂ (ExecutedBlock.Performs guest) (blocks ++ [b]) performed) :
    ∃ before last, List.Forall₂ (ExecutedBlock.Performs guest) blocks before ∧
      ExecutedBlock.Performs guest b last ∧ performed = before ++ [last] := by
  have hbefore := List.forall₂_take_append _ _ _ h.flip
  have hrest := List.forall₂_drop_append _ _ _ h.flip
  obtain ⟨last, tail, hb, htail, hdrop⟩ := List.forall₂_cons_right_iff.mp hrest
  rw [List.forall₂_nil_right_iff] at htail
  subst htail
  exact ⟨_, last, hbefore.flip, hb, by rw [← hdrop, List.take_append_drop]⟩

/-- Without the last block, whose words are the end of all. -/
theorem ExecutesOnce.of_snoc {b : ExecutedBlock} {n : Nat} {ending : Ending}
    (h : ExecutesOnce guest start (blocks ++ [b]) pc) (hends : b.Ends guest n ending) :
    ∃ first, ExecutesOnce guest start blocks b.pc ∧ b.pc = wordAddress start first ∧
      executedInstructions n ending ≠ 0 ∧
      pc = wordAddress start (first + executedInstructions n ending) := by
  obtain ⟨performed, total, hperformed, hnonempty, hflatten, hend⟩ := h
  obtain ⟨before, last, hbefore, ⟨n', ending', hends', rfl⟩, rfl⟩ := performs_snoc hperformed
  obtain ⟨rfl, rfl⟩ := hends'.unique hends
  have hcount : executedInstructions n' ending' ≠ 0 := by
    intro hzero
    rw [hzero] at hnonempty
    exact hnonempty (List.mem_append_right _ (List.mem_singleton_self _))
  rw [List.flatten_append, List.flatten_singleton] at hflatten
  obtain ⟨first, rfl⟩ : ∃ first, total = first + executedInstructions n' ending' := by
    refine Nat.exists_eq_add_of_le' ?_
    have hlength := congrArg List.length hflatten
    rw [List.length_append, length_wordsFrom, length_wordsFrom] at hlength
    omega
  rw [wordsFrom_add] at hflatten
  obtain ⟨hflatten, hwords⟩ := List.append_inj' hflatten (by rw [length_wordsFrom, length_wordsFrom])
  have hstart : b.pc = wordAddress start first := by
    obtain ⟨k, hk⟩ := Nat.exists_eq_succ_of_ne_zero hcount
    have hhead := congrArg List.head? hwords
    simpa [wordsFrom, hk, List.range_succ_eq_map, wordAddress_zero] using hhead
  exact ⟨first, ⟨before, first, hbefore, fun h => hnonempty (List.mem_append_left _ h), hflatten, hstart⟩,
    hstart, hcount, hend⟩

/-- With one more block, which ends before an instruction that it has not performed. -/
theorem ExecutesOnce.snoc {b : ExecutedBlock} {n : Nat} {ending : Ending}
    (h : ExecutesOnce guest start blocks b.pc) (hends : b.Ends guest n ending)
    (hpc : pc = wordAddress b.pc n) (hcount : executedInstructions n ending = n) (hpos : 0 < n) :
    ExecutesOnce guest start (blocks ++ [b]) pc := by
  obtain ⟨performed, first, hperformed, hnonempty, hflatten, hstart⟩ := h
  refine ⟨performed ++ [wordsFrom b.pc n], first + n, ?_, ?_, ?_, ?_⟩
  · exact List.rel_append hperformed (.cons ⟨n, ending, hends, by rw [hcount]⟩ .nil)
  · simp only [List.mem_append, List.mem_singleton, not_or]
    refine ⟨hnonempty, fun hnil => ?_⟩
    have hlength := congrArg List.length hnil
    rw [length_wordsFrom, List.length_nil] at hlength
    omega
  · rw [List.flatten_append, List.flatten_singleton, hflatten, hstart, ← wordsFrom_add]
  · rw [hpc, hstart, wordAddress_add]

/-- One more block. -/
theorem executesOnce_snoc {b : ExecutedBlock} {n : Nat} {ending : Ending} (hends : b.Ends guest n ending)
    (hpc : pc = wordAddress b.pc n)
    (hlast : ending.performed = true ∨ ending = .trapped ∨ ending = .opcode .stops)
    (htransfers : ending.transfers = false) :
    ExecutesOnce guest start (blocks ++ [b]) pc ↔
      ExecutesOnce guest start blocks b.pc ∧ b.EndsBefore guest := by
  constructor
  · intro h
    obtain ⟨first, hblocks, hstart, hcount, hend⟩ := h.of_snoc hends
    -- A block that has performed the instruction it ends at goes on at that instruction.
    have hunperformed : ending.performed = false := by
      by_contra hperformed
      rw [Bool.not_eq_false] at hperformed
      rw [← wordAddress_add, ← hstart, hpc, executedInstructions, hperformed, Bool.true_or,
        if_pos rfl] at hend
      exact wordAddress_succ_ne _ _ hend.symm
    rw [executedInstructions, hunperformed, htransfers] at hcount
    exact ⟨hblocks, n, ending, hends, Nat.pos_of_ne_zero hcount,
      hlast.resolve_left (by rw [hunperformed]; decide)⟩
  · rintro ⟨hblocks, n', ending', hends', hpos, hending⟩
    obtain ⟨rfl, rfl⟩ := hends'.unique hends
    have hcount : executedInstructions n' ending' = n' := by
      rcases hending with rfl | rfl <;> rfl
    exact hblocks.snoc hends hpc hcount hpos

/-- **Blocks that follow each other** perform every instruction once exactly if each of them ends before
an instruction that it has not performed, and behind one that it has. -/
theorem Follows.executesOnce_iff (h : Follows guest start blocks pc)
    (htransfers : ∀ b ∈ blocks, ¬b.Transfers guest) :
    ExecutesOnce guest start blocks pc ↔ ∀ b ∈ blocks, b.EndsBefore guest := by
  induction h with
  | nil =>
      have hnone : ExecutesOnce guest start [] start :=
        ⟨[], 0, .nil, List.not_mem_nil, rfl, (wordAddress_zero start).symm⟩
      exact iff_of_true hnone (List.forall_mem_nil _)
  | @snoc blocks b n ending pc _ hends hleaves ih =>
      obtain ⟨hbefore, hb⟩ := List.forall_mem_append.mp htransfers
      have hnot : ending.transfers = false := Bool.eq_false_iff.mpr fun htransfer =>
        hb b (List.mem_singleton_self b) ⟨n, ending, hends, htransfer⟩
      obtain ⟨hpc, hlast⟩ := hleaves hnot
      rw [executesOnce_snoc hends hpc hlast hnot, ih hbefore, List.forall_mem_append,
        List.forall_mem_singleton]

end Runs

/-- **Continuation PC and successive blocks.** A block that does not end in a control transfer continues
at the first instruction it has not performed exactly if it has not performed the last one it visited.
In every run, blocks without a control transfer perform every instruction once exactly if in addition
none of them ends at its first instruction. -/
theorem continuation_iff {input : TranslateInput} {c : Compiler} {first : Address} {t : Translation}
    {entry : Nat} {a : Address} {metadata : Metadata} {ending : Ending} {guest : Guest} {p : RunPoint}
    {e : Engine FlaggedCode} {start : Address} {blocks : List ExecutedBlock} :
    (c.Reachable → Succeeds input c first t entry → EndsAt input first a metadata ending →
      ending.transfers = false →
      (StoresPc t.compiler.assembler.buffer entry (firstUnperformed a ending) ↔
        ending = .trapped ∨ ending = .opcode .stops)) ∧
    (FlaggedRun guest p e start blocks → (∀ b ∈ blocks, ¬b.Transfers guest) →
      (ExecutesOnce guest start blocks e.cpu.pc ↔ ∀ b ∈ blocks, b.EndsBefore guest)) :=
  ⟨fun hreachable h hends htransfers => continuationPc_iff hreachable h hends htransfers,
    fun h htransfers => h.follows.executesOnce_iff htransfers⟩

/-- A guest that is to trap its `SVC`: `ADD X0, X0, #1` and then `SVC #0`. -/
def trapGuest : Guest where
  table := generatedTable
  memory := .ofWords 0 [0x91000400, 0xD4000001]

/-- The engine on it, with the flag set and a small buffer. -/
def trapEngine : Engine FlaggedCode :=
  { (Engine.init (cpuState (fun _ => 0) 0) (.fresh 256) : Engine FlaggedCode) with
    flags := EngineFlags.trapSvc }

theorem trapGuest_endsAfter :
    EndsAfter (trapGuest.input EngineFlags.trapSvc) 0 1 4 (exceptionMetadata ['S', 'V', 'C'] 1)
      .trapped := by
  refine ⟨1, 2, ?_, by decide, by decide, by decide⟩
  have hreadable : Readable (trapGuest.input EngineFlags.trapSvc) 0 8 :=
    ⟨by decide, by decide, by decide⟩
  have hdecode : balDecodeArm64 trapGuest.table (trapGuest.memory.word 0) =
      some (addSubImmMetadata true false false) := by decide
  have henter : CountedMove (trapGuest.input EngineFlags.trapSvc) (0, .whileTest, 0)
      (0, .forTest 0 2, 0) := ⟨.readable hreadable, rfl⟩
  have hnext : CountedMove (trapGuest.input EngineFlags.trapSvc) (0, .forTest 0 2, 0)
      (1, .forTest 1 2, 4) := ⟨.next (by decide) hdecode (by decide), rfl⟩
  exact .tail (.tail .refl henter) hnext

theorem trapEngine_run : FlaggedRun trapGuest .dispatch trapEngine 0 [] := by
  have hinit : FlaggedRun trapGuest .outside (.init (cpuState (fun _ => 0) 0) (.fresh 256)) 0 [] :=
    .init _ (Compiler.init_fresh (by decide))
  have hentered : RunStep trapGuest (flaggedKind trapEngine.flags) .compareExchange trapEngine .stopCheck
      trapEngine none := .entered rfl
  have hunstopped : RunStep trapGuest (flaggedKind trapEngine.flags) .stopCheck trapEngine .clearCheck
      trapEngine none := .unstopped rfl
  have hrun := (hinit.flags EngineFlags.trapSvc).call.step hentered RunPoint.noConfusion
  exact (hrun.step hunstopped RunPoint.noConfusion).step (.uncleared rfl) RunPoint.noConfusion

/-- The block of the guest performs the addition, once, and continues at the `SVC`. -/
theorem continuation_iff_svc : ∃ t e b,
    Succeeds (trapGuest.input EngineFlags.trapSvc) (.fresh 256) 0 t 0 ∧
      StoresPc t.compiler.assembler.buffer 0 (firstUnperformed 4 .trapped) ∧
      FlaggedRun trapGuest .stopCheck e 0 [b] ∧ ExecutesOnce trapGuest 0 [b] e.cpu.pc := by
  obtain ⟨t, -, h⟩ := succeeds_of_eval (trapGuest.input EngineFlags.trapSvc) (.fresh 256) 0 6
    (show _ = some 0 by decide)
  have hreachable : (Compiler.fresh 256).Reachable := Compiler.fresh_reachable (by decide)
  have hstores := h.storesPc hreachable.window trapGuest_endsAfter.endsAt rfl fun _ _ => rfl
  obtain ⟨m, -, hruns⟩ := hstores.runsBlock fun _ => 0
  have hdispatch := h.dispatch (e := trapEngine) ⟨by decide, by decide⟩ (.inr rfl) hruns
  have hrun := trapEngine_run.step (.dispatched hdispatch) fun _ hretries =>
    absurd hretries h.not_retries
  let b : ExecutedBlock := ⟨0, 0, EngineFlags.trapSvc⟩
  have hends : b.Ends trapGuest 1 .trapped := ⟨4, _, trapGuest_endsAfter⟩
  have htransfers : ∀ b' ∈ [b], ¬b'.Transfers trapGuest := by
    rw [List.forall_mem_singleton]
    rintro ⟨n, ending, hends', htransfers⟩
    obtain ⟨-, rfl⟩ := hends.unique hends'
    cases htransfers
  have hbefore : ∀ b' ∈ [b], b'.EndsBefore trapGuest := by
    rw [List.forall_mem_singleton]
    exact ⟨1, .trapped, hends, by decide, .inl rfl⟩
  obtain ⟨hblock, hblocks⟩ := @continuation_iff (trapGuest.input EngineFlags.trapSvc) (.fresh 256) 0 t 0 4
    (exceptionMetadata ['S', 'V', 'C'] 1) .trapped trapGuest .stopCheck
    (trapEngine.afterBlock t.compiler ⟨0, EngineFlags.trapSvc⟩ (cpuState m 0)) 0 [b]
  exact ⟨t, _, b, h, (hblock hreachable h trapGuest_endsAfter.endsAt rfl).mpr (.inl rfl), hrun,
    (hblocks hrun htransfers).mpr hbefore⟩

end Ballistic
