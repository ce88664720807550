import Ballistic.Proof.Stickiness

/-!
# A full buffer

`bal_engine_run_thread` resets the compiler and tries again when a translation has left the assembler
with `INSTRUCTION_OVERFLOW`. But the emitters of the epilogue replace the status of an assembler that
has failed before. What is left of an overflow is the one at the very last `ret`, so a block is only
tried again if it is one byte too long.
-/

namespace Ballistic

open Machine Machine.X86

/-! ### Blocks -/

section Blocks

variable {input : TranslateInput} {c x : Compiler} {start : Address} {t t₀ : Translation}
  {entry : Nat}

/-- A translation that comes to its last `ret` without failure does so wherever there is room. -/
theorem ComesToRet.moves (h : ComesToRet input c start x) {c' : Compiler} (hok : c.Ok) (hok' : c'.Ok)
    (hwindow : c'.window = c.window) (hcapacity : c'.assembler.capacity ≤ sizeMax)
    (hx : x.assembler.status = .success)
    (hfits : x.assembler.offset + c'.assembler.offset ≤
      c'.assembler.capacity + c.assembler.offset) :
    ∃ x', ComesToRet input c' start x' ∧ x'.status = x.status ∧ x'.assembler.status = .success ∧
      x.assembler.offset + c'.assembler.offset = x'.assembler.offset + c.assembler.offset := by
  let ρ : Relocation :=
    { source := c.assembler.offset
      target := c'.assembler.offset
      limit := x.assembler.offset
      capacity := c'.assembler.capacity
      fits := hfits
      addressable := hcapacity }
  have hpairs : ρ.Pairs c.assembler c'.assembler :=
    ⟨hok.assembler, hok'.assembler, Nat.add_comm _ _, rfl⟩
  obtain ⟨x', hx', hrelates⟩ := h.relocates hpairs hwindow
    (hok'.status.trans hok.status.symm) ⟨hx, le_rfl⟩
  exact ⟨x', hx', hrelates.status_eq, hrelates.assembler.status', hrelates.assembler.offset_eq⟩

/-- The compiler before the last `ret` of a block, and the room for it. -/
theorem Succeeds.comesToRet (h : Succeeds input c start t entry) :
    ∃ x, ComesToRet input c start x ∧ x.Ok ∧
      t.compiler.assembler.offset = x.assembler.offset + 1 ∧
      t.compiler.assembler.offset ≤ c.assembler.capacity := by
  obtain ⟨x, hx, htx, -⟩ := h.translates.comesToRet h.max_ne_zero
  obtain ⟨-, ⟨s, hfinal⟩, -⟩ := h.final
  have hdone := hfinal.ok
  rw [htx] at hdone
  obtain ⟨hstatus, hroom, hret⟩ := Assembler.emitRet_success hdone.assembler
  have hlength : t.compiler.assembler.offset = x.assembler.offset + 1 := by
    rw [htx]
    exact hret
  refine ⟨x, hx, ⟨hdone.status, hstatus⟩, hlength, ?_⟩
  rw [hlength, ← h.translates.ret_capacity htx]
  exact hroom

theorem Compiler.reset_ok (c : Compiler) : c.reset.Ok := ⟨rfl, rfl⟩

/-- **What is left of an overflow.** For a block that can be compiled into an empty buffer, the
assembler is left with the overflow exactly if the block is one byte longer than the room. -/
theorem overflow_iff (hok : c.Ok) (hwindow : c.window = .empty)
    (hcapacity : c.assembler.capacity ≤ sizeMax) (h₀ : Succeeds input c.reset start t₀ entry)
    (ht : Translates input c start t) :
    t.compiler.assembler.status = .instructionOverflow ↔
      c.assembler.offset + t₀.compiler.assembler.offset = c.assembler.capacity + 1 := by
  obtain ⟨x₀, hx₀, hx₀ok, hlength, -⟩ := h₀.comesToRet
  obtain ⟨x, hx, htx, -⟩ := ht.comesToRet h₀.max_ne_zero
  have hxcapacity := ht.ret_capacity htx
  have hstatus : t.compiler.assembler.status = .instructionOverflow ↔
      x.assembler.status = .success ∧ x.assembler.capacity ≤ x.assembler.offset := by
    rw [htx]
    exact Assembler.emitRet_overflow_iff (hxcapacity ▸ hcapacity)
  rw [hstatus, hlength, hxcapacity]
  constructor
  · rintro ⟨hxstatus, hfull⟩
    have hle := hx.offset_le hxstatus
    rw [hxcapacity] at hle
    obtain ⟨x', hx', -, -, hoffset⟩ := hx.moves hok c.reset_ok hwindow.symm hcapacity hxstatus
      (by simp only [Compiler.reset, Assembler.reset]; omega)
    rw [hx'.unique hx₀] at hoffset
    simp only [Compiler.reset, Assembler.reset] at hoffset
    omega
  · intro hlong
    obtain ⟨x', hx', -, hstatus', hoffset⟩ := hx₀.moves c.reset_ok hok hwindow hcapacity hx₀ok.assembler
      (by simp only [Compiler.reset, Assembler.reset]; omega)
    rw [hx'.unique hx] at hoffset hstatus'
    simp only [Compiler.reset, Assembler.reset] at hoffset
    exact ⟨hstatus', by omega⟩

/-- A block that has been compiled once can be compiled wherever there is room for it. -/
theorem Succeeds.moves (h : Succeeds input c start t entry) {c' : Compiler} (hok : c.Ok)
    (hok' : c'.Ok) (hwindow : c'.window = c.window) (hcapacity : c'.assembler.capacity ≤ sizeMax)
    (hfits : t.compiler.assembler.offset + c'.assembler.offset ≤
      c'.assembler.capacity + c.assembler.offset) :
    ∃ t', Succeeds input c' start t' c'.assembler.offset ∧
      t.compiler.assembler.offset + c'.assembler.offset =
        t'.compiler.assembler.offset + c.assembler.offset := by
  obtain ⟨x, hx, hxok, hlength, -⟩ := h.comesToRet
  obtain ⟨x', hx', hstatus, hx'status, hoffset⟩ :=
    hx.moves hok hok' hwindow hcapacity hxok.assembler (by omega)
  obtain ⟨t', ht'⟩ := hx'.translates h.max_ne_zero
  obtain ⟨x'', hx'', htx'', hentry⟩ := ht'.comesToRet h.max_ne_zero
  obtain rfl := hx''.unique hx'
  have hx''capacity := ht'.ret_capacity htx''
  have hroom : x''.assembler.canEmit 1 = true := by
    simp only [Assembler.canEmit, Bool.and_eq_true, Bool.not_eq_true', decide_eq_false_iff_not]
    omega
  have hwrite : x''.assembler.emitRet = x''.assembler.write [0xC3] := by
    simp [Assembler.emitRet, Assembler.emit, hx'status, hroom]
  have hok'' : (x''.onAssembler Assembler.emitRet).Ok := by
    refine ⟨hstatus.trans hxok.status, ?_⟩
    rw [Compiler.onAssembler_assembler, hwrite]
    exact hx'status
  obtain ⟨entry', hentry'⟩ := Option.ne_none_iff_exists'.mp fun hnone => (hentry.mp hnone) hok''
  have hsucceeds : Succeeds input c' start t' entry' := ⟨ht', hentry'⟩
  refine ⟨t', hsucceeds.final.1 ▸ hsucceeds, ?_⟩
  rw [htx'', Compiler.onAssembler_assembler, hwrite]
  simp only [Assembler.write, List.length_cons, List.length_nil]
  omega

/-- A block that is one byte too long leaves the overflow. -/
theorem Succeeds.overflows (h₀ : Succeeds input c.reset start t₀ entry) (hok : c.Ok)
    (hwindow : c.window = .empty) (hcapacity : c.assembler.capacity ≤ sizeMax)
    (hlong : c.assembler.offset + t₀.compiler.assembler.offset = c.assembler.capacity + 1) :
    ∃ t, Translates input c start t ∧ t.entry = none ∧
      t.compiler.assembler.status = .instructionOverflow := by
  obtain ⟨x₀, hx₀, hx₀ok, hlength, -⟩ := h₀.comesToRet
  obtain ⟨x', hx', -⟩ := hx₀.moves c.reset_ok hok hwindow hcapacity hx₀ok.assembler
    (by simp only [Compiler.reset, Assembler.reset]; omega)
  obtain ⟨t, ht⟩ := hx'.translates h₀.max_ne_zero
  have hoverflow := (overflow_iff hok hwindow hcapacity h₀ ht).mpr hlong
  obtain ⟨x, -, htx, hentry⟩ := ht.comesToRet h₀.max_ne_zero
  refine ⟨t, ht, hentry.mpr fun hdone => ?_, hoverflow⟩
  rw [← htx] at hdone
  rw [hdone.assembler] at hoverflow
  cases hoverflow

end Blocks

/-! ### The engine -/

section Engines

variable {Code : Type} {guest : Guest} {kind : CodeKind Code} {e : Engine Code} {t t₀ : Translation}
  {entry : Nat}

/-- The iteration comes through the reset of the compiler and tries the block again, gets host code for it
and does not leave the loop without executing it. -/
structure Engine.Recovers (guest : Guest) (kind : CodeKind Code) (rxWritable : Bool) (e : Engine Code) :
    Prop where
  retries : ∃ t, Ballistic.Retries guest e.flags e.compiler e.cpu.pc t ∧
    t.compiler.assembler.resetThrough rxWritable = some t.compiler.reset.assembler
  obtains : ∃ c code, Obtains guest kind e c code
  stays : ∀ {e' : Engine Code} {executed : Option Code} {again : Bool},
    Dispatch guest kind e e' executed again → executed ≠ none

theorem Compiler.Reachable.window_eq {c : Compiler} (h : c.Reachable) : c.window = .empty := by
  have hmacros := h.window
  cases hw : c.window with
  | mk macros hle =>
      rw [hw] at hmacros
      simp only at hmacros
      subst hmacros
      rfl

/-- A translation that is tried again after an overflow, on a block that fits into the buffer. -/
theorem Engine.Recovers.of_overflow (hcapacity : e.compiler.assembler.capacity ≤ sizeMax)
    (hproceeds : e.Proceeds) (hmiss : e.Misses)
    (h₀ : Succeeds (guest.input e.flags) e.compiler.reset e.cpu.pc t₀ entry)
    (hretries : Ballistic.Retries guest e.flags e.compiler e.cpu.pc t) : e.Recovers guest kind true := by
  have hsame : t.compiler.reset.assembler.capacity = e.compiler.assembler.capacity :=
    hretries.1.capacity
  obtain ⟨-, -, -, -, hlength⟩ := h₀.comesToRet
  obtain ⟨t', ht', -⟩ := h₀.moves e.compiler.reset_ok t.compiler.reset_ok rfl
    (hsame ▸ hcapacity) (by simp only [Compiler.reset, Assembler.reset] at hsame hlength ⊢; omega)
  have hagain : Compiles guest e.flags e.compiler e.cpu.pc t' := .again hretries ht'.translates
  refine ⟨⟨t, hretries, rfl⟩, ⟨_, _, .compiled hmiss hagain ht'.entry_eq⟩, ?_⟩
  intro e' executed again hdispatch
  cases hdispatch with
  | interrupt hpending =>
      rw [hproceeds.1] at hpending
      cases hpending
  | sentinel _ hpc => exact absurd hpc hproceeds.2
  | failure _ _ hcompiles hentry =>
      cases hcompiles with
      | once htranslates hdone =>
          obtain rfl := htranslates.unique hretries.1
          exact (hdone.elim (fun hne => hne hretries.2.1) fun hne => hne hretries.2.2).elim
      | again hretries' htranslates =>
          obtain rfl := hretries'.1.unique hretries.1
          obtain rfl := htranslates.unique ht'.translates
          rw [ht'.entry_eq] at hentry
          cases hentry
  | block => exact Option.some_ne_none _

/-- **A full buffer is recovered from** exactly if the block is one byte longer than the room that is
left, and the reset does not fault. -/
theorem Engine.recovers_iff {rxWritable : Bool} (hreachable : e.compiler.Reachable) (hok : e.compiler.Ok)
    (hcapacity : e.compiler.assembler.capacity ≤ sizeMax) (hproceeds : e.Proceeds)
    (hmiss : e.Misses) (h₀ : Succeeds (guest.input e.flags) e.compiler.reset e.cpu.pc t₀ entry)
    (ht : Translates (guest.input e.flags) e.compiler e.cpu.pc t) (hfull : t.entry = none) :
    e.Recovers guest kind rxWritable ↔
      rxWritable = true ∧ e.compiler.assembler.offset + t₀.compiler.assembler.offset =
        e.compiler.assembler.capacity + 1 := by
  rw [← overflow_iff hok hreachable.window_eq hcapacity h₀ ht]
  constructor
  · rintro ⟨⟨t', hretries, hreset⟩, -, -⟩
    obtain rfl := hretries.1.unique ht
    refine ⟨?_, hretries.2.2⟩
    by_contra hreadable
    rw [Assembler.resetThrough, if_neg hreadable] at hreset
    cases hreset
  · rintro ⟨rfl, hoverflow⟩
    exact .of_overflow hcapacity hproceeds hmiss h₀ ⟨ht, hfull, hoverflow⟩

end Engines

/-! ### Two jumps -/

/-- A guest of two jumps to themselves, at zero and at four. -/
def jumpsGuest : Guest where
  table := generatedTable
  memory := .ofWords 0 [0x14000000, 0x14000000]

/-- An engine that is at the jump at four. -/
def jumpsEngine (c : Compiler) : Engine Nat :=
  .init { cpuState (fun _ => 0) 0 with pc := 4 } c

theorem jumpsEngine_ready {n : Nat} (hn : n ≠ 0) {t : Translation}
    (h : Succeeds (jumpsGuest.input 0) (.fresh n) 0 t 0) :
    t.compiler.Reachable ∧ t.compiler.Ok ∧ (jumpsEngine t.compiler).Proceeds ∧
      (jumpsEngine t.compiler).Misses := by
  obtain ⟨-, ⟨s, hfinal⟩, -⟩ := h.final
  have hclear : (0 : EngineFlags).has EngineFlags.interruptPending = false := by decide
  have hpc : (4 : Address) ≠ engineSentinel := by decide
  exact ⟨(Compiler.fresh_reachable hn).translate h.translates, hfinal.ok, ⟨hclear, hpc⟩, .inr rfl⟩

/-- The jump at zero takes 34 bytes. With 67 bytes in all, the second jump is one byte too long: it is
compiled after a reset, if that can write to the executable mapping. -/
theorem recovers_iff_jump : ∃ t₁ : Translation,
    Succeeds (jumpsGuest.input 0) (.fresh 67) 0 t₁ 0 ∧
      (jumpsEngine t₁.compiler).Recovers jumpsGuest positions true := by
  obtain ⟨t₁, ht₁, h₁⟩ := succeeds_of_eval (jumpsGuest.input 0) (.fresh 67) 0 5
    (show _ = some 0 by decide)
  have hrun : ((balTier1CompilerTranslate (jumpsGuest.input 0) (.fresh 67) 0 5).bind fun t₁ =>
      (balTier1CompilerTranslate (jumpsGuest.input 0) t₁.compiler 4 5).bind fun t =>
        (balTier1CompilerTranslate (jumpsGuest.input 0) t₁.compiler.reset 4 5).map fun t₀ =>
          (t₁.compiler.assembler.offset, t₁.compiler.assembler.capacity, t.entry, t₀.entry,
            t₀.compiler.assembler.offset)) = some (34, 67, none, some 0, 34) := by decide
  rw [ht₁, Option.bind_some, Option.bind_eq_some_iff] at hrun
  obtain ⟨t, ht, hrest⟩ := hrun
  obtain ⟨t₀, ht₀, hresults⟩ := Option.map_eq_some_iff.mp hrest
  simp only [Prod.mk.injEq] at hresults
  obtain ⟨hoffset, hcapacity, hfull, hentry, hlength⟩ := hresults
  obtain ⟨hreachable, hok, hproceeds, hmiss⟩ := jumpsEngine_ready (by decide) h₁
  have h₀ : Succeeds (jumpsGuest.input 0) t₁.compiler.reset 4 t₀ 0 := ⟨⟨5, ht₀⟩, hentry⟩
  have hsize : t₁.compiler.assembler.capacity ≤ sizeMax := by
    rw [hcapacity]
    decide
  have hone : t₁.compiler.assembler.offset + t₀.compiler.assembler.offset =
      t₁.compiler.assembler.capacity + 1 := by rw [hoffset, hlength, hcapacity]
  exact ⟨t₁, h₁, (Engine.recovers_iff hreachable hok hsize hproceeds hmiss h₀ ⟨5, ht⟩ hfull).mpr
    ⟨rfl, hone⟩⟩

/-- With 64 bytes the second jump runs out of room before its end: the status is replaced, and the
engine leaves the loop with a block that it could have compiled, whatever the executable mapping is. -/
theorem not_recovers_jump : ∃ t₁ t t₀ : Translation,
    Succeeds (jumpsGuest.input 0) (.fresh 64) 0 t₁ 0 ∧ t₁.compiler.Reachable ∧ t₁.compiler.Ok ∧
      (jumpsEngine t₁.compiler).Proceeds ∧ (jumpsEngine t₁.compiler).Misses ∧
      Succeeds (jumpsGuest.input 0) t₁.compiler.reset 4 t₀ 0 ∧
      Translates (jumpsGuest.input 0) t₁.compiler 4 t ∧ t.entry = none ∧
      t.compiler.assembler.status = .invalidArgument ∧
      ∀ rxWritable, ¬(jumpsEngine t₁.compiler).Recovers jumpsGuest positions rxWritable := by
  obtain ⟨t₁, ht₁, h₁⟩ := succeeds_of_eval (jumpsGuest.input 0) (.fresh 64) 0 5
    (show _ = some 0 by decide)
  have hrun : ((balTier1CompilerTranslate (jumpsGuest.input 0) (.fresh 64) 0 5).bind fun t₁ =>
      (balTier1CompilerTranslate (jumpsGuest.input 0) t₁.compiler 4 5).bind fun t =>
        (balTier1CompilerTranslate (jumpsGuest.input 0) t₁.compiler.reset 4 5).map fun t₀ =>
          (t.entry, t.compiler.assembler.status, t₀.entry)) =
      some (none, .invalidArgument, some 0) := by decide
  rw [ht₁, Option.bind_some, Option.bind_eq_some_iff] at hrun
  obtain ⟨t, ht, hrest⟩ := hrun
  obtain ⟨t₀, ht₀, hresults⟩ := Option.map_eq_some_iff.mp hrest
  simp only [Prod.mk.injEq] at hresults
  obtain ⟨hfull, hstatus, hentry⟩ := hresults
  obtain ⟨hreachable, hok, hproceeds, hmiss⟩ := jumpsEngine_ready (by decide) h₁
  refine ⟨t₁, t, t₀, h₁, hreachable, hok, hproceeds, hmiss, ⟨⟨5, ht₀⟩, hentry⟩, ⟨5, ht⟩, hfull, hstatus,
    ?_⟩
  rintro rxWritable ⟨⟨t', hretries, -⟩, -, -⟩
  have hsame : t' = t := hretries.1.unique ⟨5, ht⟩
  rw [hsame] at hretries
  have hoverflow := hretries.2.2
  rw [hstatus] at hoverflow
  cases hoverflow

end Ballistic
