import Ballistic.Proof.Coherence

/-!
# Sequences of compilations

The pointers that the engine keeps to compiled blocks are positions in the code buffer. Between two
resets every translation, whether it succeeds or fails and at whatever point it fails, writes at or
behind the offset at which it starts. So a block, once compiled, stays as it is
(`Compilations.blocks_kept`).
-/

namespace Ballistic

open Machine Machine.X86

/-- A call of `bal_tier1_compiler_translate`: the compiler before it, and what it returns. -/
structure Compilation where
  input : TranslateInput
  compiler : Compiler
  start : Address
  result : Translation

/-- The offset of the assembler after the call, which is the end of the block if there is one. -/
def Compilation.finish (k : Compilation) : Nat := k.result.compiler.assembler.offset

/-- The position is inside the block that the call returns. -/
def Compilation.Covers (k : Compilation) (position : Nat) : Prop :=
  ∃ entry, k.result.entry = some entry ∧ entry ≤ position ∧ position < k.finish

/-- The buffer has the bytes of the block as the call left them. -/
def Compilation.Keeps (k : Compilation) (a : Assembler) : Prop :=
  ∀ position, k.Covers position →
    a.buffer position = k.result.compiler.assembler.buffer position

/-- Calls on one compiler with no reset in between. Each has its own guest memory, flags and
address. -/
inductive Compilations : Compiler → List Compilation → Compiler → Prop
  | nil (c : Compiler) : Compilations c [] c
  | cons {input : TranslateInput} {c c' : Compiler} {start : Address} {t : Translation}
      {calls : List Compilation} (ht : Translates input c start t)
      (hlater : Compilations t.compiler calls c') : Compilations c (⟨input, c, start, t⟩ :: calls) c'

theorem Reaches.closed {P : Assembler → Prop} (hP : Assembler.Closed P) {input : TranslateInput}
    {c : Compiler} {start : Address} {p : LoopPoint} {s : LoopState} (h : P c.assembler)
    (hreach : Reaches input c start p s) : P s.compiler.assembler := by
  induction hreach with
  | start =>
      rw [startState_assembler]
      exact hP.emitPrologue h
  | @step p p' s s' _ hnext ih =>
      have hstep := @Assembler.Closed.loopStep P input s hP ih start c.assembler.offset p
      rw [hnext] at hstep
      exact hstep

theorem Reaches.extends {input : TranslateInput} {c : Compiler} {start : Address} {p : LoopPoint}
    {s : LoopState} (h : Reaches input c start p s) : c.assembler.Extends s.compiler.assembler :=
  h.closed (Assembler.Extends.closed c.assembler) (.refl _)

theorem Compilation.keeps_of_extends {k : Compilation} {a : Assembler}
    (h : k.result.compiler.assembler.Extends a) : k.Keeps a := by
  rintro position ⟨entry, -, -, hfinish⟩
  exact h.below position hfinish

namespace Compilations

variable {c c' : Compiler} {calls : List Compilation}

theorem extends_final (h : Compilations c calls c') : c.assembler.Extends c'.assembler := by
  induction h with
  | nil c => exact .refl _
  | cons ht _ ih => exact ht.extends.trans ih

/-- Every call starts from, and ends in, an extension of the first buffer. -/
theorem extends_mem (h : Compilations c calls c') {k : Compilation} (hk : k ∈ calls) :
    c.assembler.Extends k.compiler.assembler ∧
      c.assembler.Extends k.result.compiler.assembler ∧
      k.result.compiler.assembler.Extends c'.assembler ∧
      Translates k.input k.compiler k.start k.result := by
  induction h with
  | nil => cases hk
  | cons ht hlater ih =>
      rcases List.mem_cons.mp hk with rfl | hk
      · exact ⟨.refl _, ht.extends, hlater.extends_final, ht⟩
      · obtain ⟨hbefore, hafter, hfinal, htranslates⟩ := ih hk
        exact ⟨ht.extends.trans hbefore, ht.extends.trans hafter, hfinal, htranslates⟩

/-- A call begins where an earlier one ended, or behind. -/
theorem pairwise (h : Compilations c calls c') :
    calls.Pairwise fun x y =>
      x.result.compiler.assembler.Extends y.compiler.assembler ∧
        x.result.compiler.assembler.Extends y.result.compiler.assembler ∧
        Translates y.input y.compiler y.start y.result := by
  induction h with
  | nil => exact .nil
  | cons ht hlater ih =>
      refine .cons (fun y hy => ?_) ih
      obtain ⟨hbefore, hafter, -, htranslates⟩ := hlater.extends_mem hy
      exact ⟨hbefore, hafter, htranslates⟩

theorem offset_le (h : Compilations c calls c') :
    (c.assembler.offset :: calls.map Compilation.finish).Pairwise (· ≤ ·) := by
  refine .cons (fun offset hoffset => ?_) (List.pairwise_map.mpr ?_)
  · obtain ⟨k, hk, rfl⟩ := List.mem_map.mp hoffset
    exact (h.extends_mem hk).2.1.offset_le
  · exact h.pairwise.imp fun hxy => hxy.2.1.offset_le

/-- The block of a call does not begin before the call. -/
theorem start_le_of_covers {k : Compilation} (ht : Translates k.input k.compiler k.start k.result)
    {position : Nat} (hcovers : k.Covers position) : k.compiler.assembler.offset ≤ position := by
  obtain ⟨entry, hentry, hle, -⟩ := hcovers
  have hsucceeds : Succeeds k.input k.compiler k.start k.result entry := ⟨ht, hentry⟩
  rw [← hsucceeds.final.1]
  exact hle

theorem disjoint (h : Compilations c calls c') :
    calls.Pairwise fun x y => ∀ position, ¬(x.Covers position ∧ y.Covers position) := by
  refine h.pairwise.imp ?_
  rintro x y ⟨hbefore, -, ht⟩ position ⟨⟨_, -, -, hfinish⟩, hy⟩
  have hstart := start_le_of_covers ht hy
  have hle : x.finish ≤ y.compiler.assembler.offset := hbefore.offset_le
  omega

/-- **Compiled blocks stay.** No later call changes a byte of a block that an earlier one returned,
neither when it is over nor while it is under way; no two blocks share a byte; and the offset never
goes back. -/
theorem blocks_kept (h : Compilations c calls c') :
    (calls.Pairwise fun x y => x.Keeps y.result.compiler.assembler) ∧
      (∀ input start p s, Reaches input c' start p s →
        c'.assembler.offset ≤ s.compiler.assembler.offset ∧
          ∀ k ∈ calls, k.Keeps s.compiler.assembler) ∧
      (calls.Pairwise fun x y => ∀ position, ¬(x.Covers position ∧ y.Covers position)) ∧
      (c.assembler.offset :: calls.map Compilation.finish).Pairwise (· ≤ ·) := by
  refine ⟨h.pairwise.imp fun hxy => Compilation.keeps_of_extends hxy.2.1, ?_, h.disjoint, h.offset_le⟩
  intro input start p s hreach
  refine ⟨hreach.extends.offset_le, fun k hk => Compilation.keeps_of_extends ?_⟩
  exact (h.extends_mem hk).2.2.1.trans hreach.extends

end Compilations

/-- Two calls on one compiler, for a guest that jumps to itself: the second block begins where the
first one ends. -/
theorem blocks_kept_twice : ∃ first second : Compilation,
    Compilations (.fresh 256) [first, second] second.result.compiler ∧
      (∀ position < 34, first.Covers position) ∧ second.Covers 34 ∧
      first.Keeps second.result.compiler.assembler := by
  let input := TranslateInput.ofWords 0x1000 [0x14000000] 8
  have hrun : ((balTier1CompilerTranslate input (.fresh 256) 0x1000 5).bind fun t =>
      (balTier1CompilerTranslate input t.compiler 0x1000 5).map fun t' =>
        (t.entry, t.compiler.assembler.offset, t'.entry, t'.compiler.assembler.offset)) =
      some (some 0, 34, some 34, 68) := by decide
  obtain ⟨t, ht, hrest⟩ := Option.bind_eq_some_iff.mp hrun
  obtain ⟨t', ht', hresults⟩ := Option.map_eq_some_iff.mp hrest
  simp only [Prod.mk.injEq] at hresults
  obtain ⟨hentry, hfinish, hentry', hfinish'⟩ := hresults
  have hcalls : Compilations (.fresh 256) [⟨input, .fresh 256, 0x1000, t⟩,
      ⟨input, t.compiler, 0x1000, t'⟩] t'.compiler := .cons ⟨5, ht⟩ (.cons ⟨5, ht'⟩ (.nil _))
  refine ⟨_, _, hcalls, fun position hposition => ⟨0, hentry, Nat.zero_le _, ?_⟩,
    ⟨34, hentry', le_rfl, ?_⟩, List.pairwise_pair.mp hcalls.blocks_kept.1⟩
  · simp only [Compilation.finish, hfinish]
    exact hposition
  · simp only [Compilation.finish, hfinish']
    decide

end Ballistic
