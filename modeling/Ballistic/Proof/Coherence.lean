import Ballistic.Engine
import Ballistic.Proof.Emission
import Ballistic.Proof.Loops

/-!
# The cache and the code buffer

An entry of the block cache is a position in the code buffer, and nothing but the bytes there says
which block it is. As long as no translation is retried, a translation only writes behind the code
that is already there, and the cache is emptied with the buffer. So what a compilation makes true of its
code, and the growth of the buffer leaves true, is true of every entry of the cache
(`RunStep.caches`).
-/

namespace Ballistic

open Machine Machine.X86

/-! ### The buffer grows -/

/-- What was written before `a` ended is still there in `a'`. -/
structure Assembler.Extends (a a' : Assembler) : Prop where
  offset_le : a.offset ≤ a'.offset
  below : ∀ k < a.offset, a'.buffer k = a.buffer k

namespace Assembler.Extends

variable {a a' a'' : Assembler}

theorem refl (a : Assembler) : Extends a a := ⟨le_rfl, fun _ _ => rfl⟩

theorem trans (h : Extends a a') (h' : Extends a' a'') : Extends a a'' :=
  ⟨h.offset_le.trans h'.offset_le, fun k hk =>
    (h'.below k (Nat.lt_of_lt_of_le hk h.offset_le)).trans (h.below k hk)⟩

theorem write (a : Assembler) (bytes : List Byte) : Extends a (a.write bytes) :=
  ⟨Nat.le_add_right _ _, fun _ hk => if_neg (Nat.not_le.mpr hk)⟩

theorem emit (h : Extends a a') (poisons : Bool) (encoding : Option Encoding) :
    Extends a (a'.emit poisons encoding) := by
  unfold Assembler.emit
  split
  · split
    · exact ⟨h.offset_le, h.below⟩
    · exact h
  · split
    · exact ⟨h.offset_le, h.below⟩
    · split
      · exact h.trans (.write _ _)
      · exact ⟨h.offset_le, h.below⟩

theorem closed (a : Assembler) : Assembler.Closed (Extends a) where
  emit := fun poisons encoding h => h.emit poisons encoding
  refuse := fun _ h => ⟨h.offset_le, h.below⟩

end Assembler.Extends

theorem Translates.extends {input : TranslateInput} {c : Compiler} {pc : Address} {t : Translation}
    (h : Translates input c pc t) : c.assembler.Extends t.compiler.assembler :=
  (Assembler.Extends.closed c.assembler).translates (.refl _) h

theorem Translates.capacity {input : TranslateInput} {c : Compiler} {pc : Address} {t : Translation}
    (h : Translates input c pc t) : t.compiler.assembler.capacity = c.assembler.capacity :=
  (closed_capacity c.assembler.capacity).translates rfl h

theorem Translates.unique {input : TranslateInput} {c : Compiler} {pc : Address} {t t' : Translation}
    (h : Translates input c pc t) (h' : Translates input c pc t') : t = t' := by
  obtain ⟨fuel, h⟩ := h
  obtain ⟨fuel', h'⟩ := h'
  unfold balTier1CompilerTranslate at h h'
  split at h
  · next hzero =>
      rw [if_pos hzero] at h'
      cases h
      cases h'
      rfl
  · next hzero =>
      rw [if_neg hzero] at h'
      obtain ⟨s, hs, rfl⟩ := Option.map_eq_some_iff.mp h
      obtain ⟨s', hs', rfl⟩ := Option.map_eq_some_iff.mp h'
      rw [runLoops_unique hs hs']

/-! ### Blocks in the buffer -/

/-- The code at `position` of the buffer is a block that was compiled for `pc`, and none of it has
been written over. -/
def HoldsBlock (guest : Guest) (a : Assembler) (pc : Address) (position : Nat) : Prop :=
  ∃ (flags : EngineFlags) (c : Compiler) (t : Translation), c.Reachable ∧
    Succeeds (guest.input flags) c pc t position ∧ t.compiler.assembler.Extends a

variable {guest : Guest}

theorem HoldsBlock.mono {a a' : Assembler} {pc : Address} {position : Nat}
    (h : HoldsBlock guest a pc position) (hextends : a.Extends a') :
    HoldsBlock guest a' pc position := by
  obtain ⟨flags, c, t, hreachable, hsucceeds, hkept⟩ := h
  exact ⟨flags, c, t, hreachable, hsucceeds, hkept.trans hextends⟩

section Engines

variable {Code : Type} {kind : CodeKind Code} {e e' : Engine Code}

/-- No way of the cache has host code. -/
def Engine.CacheEmpty (e : Engine Code) : Prop := ∀ pc code, ¬e.blockCache.Contains pc code

/-- The iteration at hand translates a block and runs out of buffer. -/
def Engine.Retries (guest : Guest) (e : Engine Code) : Prop :=
  e.Proceeds ∧ (e.cacheDisabled = true ∨ e.blockCache.lookup e.cpu.pc = none) ∧
    ∃ t, Ballistic.Retries guest e.flags e.compiler e.cpu.pc t

theorem Compiles.translates {flags : EngineFlags} {c : Compiler} {pc : Address} {t : Translation}
    (h : Compiles guest flags c pc t) (hsteady : ∀ t, ¬Retries guest flags c pc t) :
    Translates (guest.input flags) c pc t := by
  cases h with
  | once htranslates _ => exact htranslates
  | again hretries _ => exact absurd hretries (hsteady _)

/-- The compiler that the block at hand is translated with: the engine's, or that of the retry. -/
theorem Compiles.translated {flags : EngineFlags} {c : Compiler} {pc : Address} {t : Translation}
    (h : Compiles guest flags c pc t) (hc : c.Reachable) :
    ∃ c', c'.Reachable ∧ Translates (guest.input flags) c' pc t ∧
      (c' = c ∨ ∃ t, Retries guest flags c pc t) := by
  cases h with
  | once htranslates _ => exact ⟨c, hc, htranslates, .inl rfl⟩
  | again hretries htranslates =>
      exact ⟨_, (hc.translate hretries.1).reset, htranslates, .inr ⟨_, hretries⟩⟩

/-- A compilation has one result. -/
theorem Compiles.unique {flags : EngineFlags} {c : Compiler} {pc : Address} {t t' : Translation}
    (h : Compiles guest flags c pc t) (h' : Compiles guest flags c pc t') : t = t' := by
  have hdone : ∀ {t t' : Translation}, Translates (guest.input flags) c pc t →
      (t.entry ≠ none ∨ t.compiler.assembler.status ≠ .instructionOverflow) →
      ¬Retries guest flags c pc t' := by
    intro t t' htranslates hdone hretries
    rw [htranslates.unique hretries.1] at hdone
    exact hdone.elim (absurd hretries.2.1) (absurd hretries.2.2)
  cases h with
  | once htranslates hlast =>
      cases h' with
      | once htranslates' _ => exact htranslates.unique htranslates'
      | again hretries _ => exact absurd hretries (hdone htranslates hlast)
  | again hretries htranslates =>
      cases h' with
      | once htranslates' hlast => exact absurd hretries (hdone htranslates' hlast)
      | again hretries' htranslates' =>
          rw [hretries.1.unique hretries'.1] at htranslates
          exact htranslates.unique htranslates'

/-- So there is one thing for an iteration to get. -/
theorem Obtains.unique {c c' : Compiler} {code code' : Code} (h : Obtains guest kind e c code)
    (h' : Obtains guest kind e c' code') : c = c' ∧ code = code' := by
  have hmiss : ∀ {code : Code}, e.cacheDisabled = false → e.blockCache.lookup e.cpu.pc = some code →
      ¬(e.cacheDisabled = true ∨ e.blockCache.lookup e.cpu.pc = none) := by
    intro code henabled hlookup
    rw [henabled, hlookup]
    simp
  cases h with
  | cached henabled hlookup =>
      cases h' with
      | cached _ hlookup' => exact ⟨rfl, Option.some.inj (hlookup.symm.trans hlookup')⟩
      | compiled hnone _ _ => exact absurd hnone (hmiss henabled hlookup)
  | compiled hnone hcompiles hentry =>
      cases h' with
      | cached henabled hlookup => exact absurd hnone (hmiss henabled hlookup)
      | compiled _ hcompiles' hentry' =>
          obtain rfl := hcompiles.unique hcompiles'
          rw [hentry] at hentry'
          exact ⟨rfl, congrArg kind.ofPosition (Option.some.inj hentry')⟩

/-! ### Properties of the entries -/

/-- A property of host code that compiling a block for its address brings about, and that lasts while
the buffer only grows. -/
structure Lasts (guest : Guest) (kind : CodeKind Code) (flags : EngineFlags)
    (P : Assembler → Address → Code → Prop) : Prop where
  mono : ∀ {a a' : Assembler} {pc : Address} {code : Code}, P a pc code → a.Extends a' → P a' pc code
  compiled : ∀ {c : Compiler} {pc : Address} {t : Translation} {position : Nat}, c.Reachable →
    Succeeds (guest.input flags) c pc t position →
      P t.compiler.assembler pc (kind.ofPosition position)

/-- Every entry of the cache has the property. -/
structure Engine.Caches (P : Assembler → Address → Code → Prop) (e : Engine Code) : Prop where
  reachable : e.compiler.Reachable
  entries : ∀ pc code, e.blockCache.Contains pc code → P e.compiler.assembler pc code

variable {P : Assembler → Address → Code → Prop}

theorem Engine.Caches.init (cpu : A64.State) {c : Compiler} (hc : c.Reachable) :
    (Engine.init cpu c : Engine Code).Caches P :=
  ⟨hc, fun pc code hcode => (BlockCache.not_contains_empty pc code hcode).elim⟩

/-- A compilation leaves the code of the entries as it is, or there are none. -/
theorem Engine.Caches.compiled (h : e.Caches P) (hlasts : Lasts guest kind e.flags P)
    (hproceeds : e.Proceeds) (hmiss : e.cacheDisabled = true ∨ e.blockCache.lookup e.cpu.pc = none)
    (hretry : e.Retries guest → e.CacheEmpty) {t : Translation}
    (hcompiles : Compiles guest e.flags e.compiler e.cpu.pc t) :
    ({ e with compiler := t.compiler } : Engine Code).Caches P := by
  obtain ⟨c, hc, htranslates, hsame⟩ := hcompiles.translated h.reachable
  refine ⟨hc.translate htranslates, fun pc code hcode => ?_⟩
  rcases hsame with rfl | ⟨t', hretries⟩
  · exact hlasts.mono (h.entries pc code hcode) htranslates.extends
  · exact absurd hcode (hretry ⟨hproceeds, hmiss, t', hretries⟩ pc code)

/-- The host code that an iteration gets has the property at the program counter. -/
theorem Obtains.lasts {c : Compiler} {code : Code} (h : Obtains guest kind e c code)
    (hlasts : Lasts guest kind e.flags P) (hcaches : e.Caches P) : P c.assembler e.cpu.pc code := by
  cases h with
  | cached _ hlookup => exact hcaches.entries _ _ (BlockCache.contains_of_lookup hlookup)
  | compiled _ hcompiles hentry =>
      obtain ⟨c, hc, htranslates, -⟩ := hcompiles.translated hcaches.reachable
      exact hlasts.compiled hc ⟨htranslates, hentry⟩

theorem Obtains.caches {c : Compiler} {code : Code} (h : Obtains guest kind e c code)
    (hlasts : Lasts guest kind e.flags P) (hproceeds : e.Proceeds)
    (hretry : e.Retries guest → e.CacheEmpty) (hcaches : e.Caches P) :
    ({ e with compiler := c } : Engine Code).Caches P := by
  cases h with
  | cached => exact hcaches
  | compiled hmiss hcompiles _ => exact hcaches.compiled hlasts hproceeds hmiss hretry hcompiles

theorem Engine.Caches.afterBlock {c : Compiler} {code : Code} {cpu : A64.State}
    (h : ({ e with compiler := c } : Engine Code).Caches P) (hcode : P c.assembler e.cpu.pc code) :
    (e.afterBlock c code cpu).Caches P := by
  refine ⟨h.reachable, fun pc code' hcontains => ?_⟩
  simp only [Engine.afterBlock] at hcontains
  split at hcontains
  · exact h.entries pc code' hcontains
  · rcases BlockCache.contains_of_insert hcontains with ⟨rfl, rfl⟩ | hbefore
    · exact hcode
    · exact h.entries pc code' hbefore

theorem Dispatch.caches {executed : Option Code} {again : Bool}
    (h : Dispatch guest kind e e' executed again) (hlasts : Lasts guest kind e.flags P)
    (hretry : e.Retries guest → e.CacheEmpty) (hcaches : e.Caches P) : e'.Caches P := by
  cases h with
  | interrupt | sentinel => exact ⟨hcaches.reachable, hcaches.entries⟩
  | failure hproceeds hmiss hcompiles _ =>
      have hnext := hcaches.compiled hlasts hproceeds hmiss hretry hcompiles
      exact ⟨hnext.reachable, hnext.entries⟩
  | block hproceeds hobtains _ =>
      have hnext := hobtains.caches hlasts hproceeds hretry hcaches
      exact hnext.afterBlock (hobtains.lasts hlasts hcaches)

/-- A step keeps a lasting property of the entries, if a translation is only tried again while there
are none. -/
theorem RunStep.caches {p p' : RunPoint} {executed : Option Code}
    (h : RunStep guest kind p e p' e' executed) (hlasts : Lasts guest kind e.flags P)
    (hretry : p = .dispatch → e.Retries guest → e.CacheEmpty) (hcaches : e.Caches P) :
    e'.Caches P := by
  cases h with
  | dispatched hdispatch => exact hdispatch.caches hlasts (hretry rfl) hcaches
  | reset =>
      exact ⟨hcaches.reachable.reset, fun pc code hcode =>
        (BlockCache.not_contains_empty pc code hcode).elim⟩
  | entered | stored | released => exact ⟨hcaches.reachable, hcaches.entries⟩
  | refused | stopped | unstopped | cleared | uncleared => exact hcaches

end Engines

end Ballistic
