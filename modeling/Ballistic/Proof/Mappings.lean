import Ballistic.Proof.Compilations
import Ballistic.Proof.Stickiness

/-!
# The two mappings of the buffer

The code buffer is mapped twice, and the assembler has a pointer to each mapping: `buffer` to the
writable one and `rx_buffer` to the executable one. The bytes of an instruction are stored through
the first. A reset clears the buffer through both.
-/

namespace Ballistic

open Machine

/-! ### Stores -/

/-- The pointers of `bal_x86_assembler_t` to the code buffer. -/
inductive BufferPointer where
  | buffer
  | rxBuffer
  deriving DecidableEq, Repr

/-- A byte stored through one of the pointers, at an index from it. -/
structure ByteStore where
  pointer : BufferPointer
  index : Nat
  value : Byte
  deriving DecidableEq, Repr

/-- Bytes stored one after the other, by `emit8`, `emit32` and `emit64` or by `memset`. -/
def storesFrom (pointer : BufferPointer) : Nat → List Byte → List ByteStore
  | _, [] => []
  | start, b :: bytes => ⟨pointer, start, b⟩ :: storesFrom pointer (start + 1) bytes

theorem storesFrom_pointer {pointer : BufferPointer} {start : Nat} {bytes : List Byte}
    {store : ByteStore} (h : store ∈ storesFrom pointer start bytes) : store.pointer = pointer := by
  induction bytes generalizing start with
  | nil => cases h
  | cons b bytes ih =>
      rcases List.mem_cons.mp h with rfl | h
      · rfl
      · exact ih h

theorem storesFrom_length (pointer : BufferPointer) (start : Nat) (bytes : List Byte) :
    (storesFrom pointer start bytes).length = bytes.length := by
  induction bytes generalizing start with
  | nil => rfl
  | cons b bytes ih => simp only [storesFrom, List.length_cons, ih]

theorem storesFrom_append (pointer : BufferPointer) (start : Nat) (first second : List Byte) :
    storesFrom pointer start (first ++ second) =
      storesFrom pointer start first ++ storesFrom pointer (start + first.length) second := by
  induction first generalizing start with
  | nil => rfl
  | cons b first ih =>
      simp only [List.cons_append, storesFrom, ih, List.length_cons]
      congr 3
      omega

namespace Assembler

/-- The stores of an emitter. -/
def emitStores (a : Assembler) (encoding : Option Encoding) : List ByteStore :=
  if a.status ≠ .success then []
  else
    match encoding with
    | none => []
    | some e =>
        if a.canEmit e.instructionSizeBytes then storesFrom .buffer a.offset e.bytes else []

/-- The stores of `bal_x86_assembler_reset`: two calls of `memset`. -/
def resetStores (a : Assembler) : List ByteStore :=
  storesFrom .buffer 0 (List.replicate a.capacity 0) ++
    storesFrom .rxBuffer 0 (List.replicate a.capacity 0)

/-- The bytes that are in the buffer of `a'` from the offset of `a` up to its own. -/
def bytesTo (a a' : Assembler) : List Byte :=
  (List.range' a.offset (a'.offset - a.offset)).map a'.buffer

/-- An emitter stores its bytes, or nothing. -/
theorem emitStores_cases (a : Assembler) (poisons : Bool) (encoding : Option Encoding) :
    (∃ bytes, a.emitStores encoding = storesFrom .buffer a.offset bytes ∧
        a.emit poisons encoding = a.write bytes) ∨
      ∃ status, a.emitStores encoding = [] ∧
        a.emit poisons encoding = { a with status := status } := by
  unfold emitStores emit
  by_cases hok : a.status ≠ .success
  · simp only [if_pos hok]
    cases poisons with
    | true => exact .inr ⟨_, trivial, rfl⟩
    | false => exact .inr ⟨a.status, trivial, rfl⟩
  · simp only [if_neg hok]
    cases encoding with
    | none => exact .inr ⟨_, rfl, rfl⟩
    | some e =>
        simp only
        split
        · exact .inl ⟨_, rfl, rfl⟩
        · exact .inr ⟨_, rfl, rfl⟩

end Assembler

/-- A sequence of emits, with the stores that they perform. -/
inductive EmitTrace (a : Assembler) : List ByteStore → Assembler → Prop
  | nil : EmitTrace a [] a
  | emit {stores : List ByteStore} {a' : Assembler} (h : EmitTrace a stores a') (poisons : Bool)
      (encoding : Option Encoding) :
      EmitTrace a (stores ++ a'.emitStores encoding) (a'.emit poisons encoding)
  | refuse {stores : List ByteStore} {a' : Assembler} (h : EmitTrace a stores a')
      (hok : a'.status = .success) : EmitTrace a stores { a' with status := .branchOffsetOverflow }

namespace EmitTrace

variable {a a' : Assembler} {stores : List ByteStore}

theorem closed (a : Assembler) : Assembler.Closed fun a' => ∃ stores, EmitTrace a stores a' where
  emit := fun poisons encoding h => h.elim fun _ h => ⟨_, h.emit poisons encoding⟩
  refuse := fun hok h => h.elim fun _ h => ⟨_, h.refuse hok⟩

theorem pointer (h : EmitTrace a stores a') {store : ByteStore} (hstore : store ∈ stores) :
    store.pointer = .buffer := by
  induction h with
  | nil => cases hstore
  | @emit stores a' _ poisons encoding ih =>
      rcases List.mem_append.mp hstore with hbefore | hlast
      · exact ih hbefore
      · obtain ⟨bytes, hstores, -⟩ | ⟨_, hstores, -⟩ := a'.emitStores_cases poisons encoding
        · rw [hstores] at hlast
          exact storesFrom_pointer hlast
        · rw [hstores] at hlast
          cases hlast
  | refuse _ _ ih => exact ih hstore

theorem «extends» (h : EmitTrace a stores a') : a.Extends a' := by
  induction h with
  | nil => exact .refl a
  | emit _ poisons encoding ih => exact ih.emit poisons encoding
  | refuse _ _ ih => exact ⟨ih.offset_le, ih.below⟩

end EmitTrace

theorem map_storeBytes (buffer : Nat → Byte) (start : Nat) (bytes : List Byte) :
    (List.range' start bytes.length).map (storeBytes buffer start bytes) = bytes := by
  apply List.ext_getElem
  · simp
  · intro k _ hk
    simp [storeBytes, hk]

theorem Assembler.bytesTo_write {a a' : Assembler} (h : a.Extends a') (bytes : List Byte) :
    a.bytesTo (a'.write bytes) = a.bytesTo a' ++ bytes := by
  have hle := h.offset_le
  have hlength : a'.offset + bytes.length - a.offset = a'.offset - a.offset + bytes.length := by
    omega
  have hbefore : ∀ k ∈ List.range' a.offset (a'.offset - a.offset),
      storeBytes a'.buffer a'.offset bytes k = a'.buffer k := by
    intro k hk
    rw [List.mem_range'_1] at hk
    exact if_neg (by omega)
  simp only [Assembler.bytesTo, Assembler.write]
  rw [hlength, ← List.range'_append_1, Nat.add_sub_cancel' hle, List.map_append,
    List.map_congr_left hbefore, map_storeBytes]

/-- The stores of a sequence of emits can be read off its two ends. -/
theorem EmitTrace.stores_eq {a a' : Assembler} {stores : List ByteStore} (h : EmitTrace a stores a') :
    stores = storesFrom .buffer a.offset (a.bytesTo a') := by
  induction h with
  | nil => simp [Assembler.bytesTo, storesFrom]
  | @emit stores a' htrace poisons encoding ih =>
      obtain ⟨bytes, hstores, hemit⟩ | ⟨_, hstores, hemit⟩ := a'.emitStores_cases poisons encoding
      · have hle := htrace.extends.offset_le
        have hlength : (a.bytesTo a').length = a'.offset - a.offset := by
          simp [Assembler.bytesTo]
        rw [hstores, hemit, Assembler.bytesTo_write htrace.extends, storesFrom_append, ← ih, hlength,
          Nat.add_sub_cancel' hle]
      · rw [hstores, hemit, List.append_nil]
        exact ih
  | refuse _ _ ih => exact ih

/-- A translation is a sequence of emits, and performs these stores and no others. -/
theorem Translates.stores {input : TranslateInput} {c : Compiler} {pc : Address} {t : Translation}
    (h : Translates input c pc t) :
    ∃! stores, EmitTrace c.assembler stores t.compiler.assembler := by
  obtain ⟨stores, htrace⟩ := (EmitTrace.closed c.assembler).translates ⟨[], .nil⟩ h
  refine ⟨stores, htrace, fun stores' htrace' => ?_⟩
  rw [htrace.stores_eq]
  exact htrace'.stores_eq

/-! ### Sessions -/

/-- What happens to the code buffer: a translation, or a reset. -/
inductive BufferEvent where
  | translation (stores : List ByteStore)
  | reset (stores : List ByteStore)

namespace BufferEvent

def stores : BufferEvent → List ByteStore
  | translation stores | reset stores => stores

def isReset : BufferEvent → Bool
  | translation _ => false
  | reset _ => true

end BufferEvent

section Sessions

variable {Code : Type}

/-- The compilation of a block, with the retry, as events. -/
inductive CompileEvents (guest : Guest) (flags : EngineFlags) (c : Compiler) (pc : Address) :
    List BufferEvent → Translation → Prop
  | once {t : Translation} {stores : List ByteStore}
      (htranslates : Translates (guest.input flags) c pc t)
      (hdone : t.entry ≠ none ∨ t.compiler.assembler.status ≠ .instructionOverflow)
      (htrace : EmitTrace c.assembler stores t.compiler.assembler) :
      CompileEvents guest flags c pc [.translation stores] t
  | again {t t' : Translation} {stores stores' : List ByteStore}
      (hretries : Retries guest flags c pc t)
      (htrace : EmitTrace c.assembler stores t.compiler.assembler)
      (htranslates : Translates (guest.input flags) t.compiler.reset pc t')
      (htrace' : EmitTrace t.compiler.reset.assembler stores' t'.compiler.assembler) :
      CompileEvents guest flags c pc
        [.translation stores, .reset t.compiler.assembler.resetStores, .translation stores'] t'

/-- A step of `bal_engine_run_thread`, as events. -/
inductive StepEvents (guest : Guest) (kind : CodeKind Code) :
    RunPoint → Engine Code → List BufferEvent → RunPoint → Engine Code → Prop
  | compiled {e e' : Engine Code} {executed : Option Code} {p' : RunPoint} {t : Translation}
      {events : List BufferEvent} (h : RunStep guest kind .dispatch e p' e' executed)
      (hproceeds : e.Proceeds) (hmiss : e.Misses)
      (hevents : CompileEvents guest e.flags e.compiler e.cpu.pc events t)
      (hcompiler : e'.compiler = t.compiler) : StepEvents guest kind .dispatch e events p' e'
  | uncompiled {e e' : Engine Code} {executed : Option Code} {p' : RunPoint}
      (h : RunStep guest kind .dispatch e p' e' executed) (hnone : ¬(e.Proceeds ∧ e.Misses)) :
      StepEvents guest kind .dispatch e [] p' e'
  | cleared {e e' : Engine Code} {executed : Option Code} {p' : RunPoint}
      (h : RunStep guest kind .clearReset e p' e' executed) :
      StepEvents guest kind .clearReset e [.reset e.compiler.assembler.resetStores] p' e'
  | other {p p' : RunPoint} {e e' : Engine Code} {executed : Option Code}
      (h : RunStep guest kind p e p' e' executed) (hdispatch : p ≠ .dispatch)
      (hclear : p ≠ .clearReset) : StepEvents guest kind p e [] p' e'

/-- A session with an engine, from its initialisation: steps of its calls, what the host does between
them, and direct calls of the compiler's functions. -/
inductive Session (guest : Guest) (kind : CodeKind Code) :
    List BufferEvent → RunPoint → Engine Code → Prop
  | init (cpu : A64.State) {c : Compiler} {buffer : Nat → Byte} {size : Nat} {debug : Bool}
      (hc : Compiler.init buffer size debug = some c) :
      Session guest kind [] .outside (.init cpu c)
  | step {events more : List BufferEvent} {p p' : RunPoint} {e e' : Engine Code}
      (h : Session guest kind events p e) (hstep : StepEvents guest kind p e more p' e') :
      Session guest kind (events ++ more) p' e'
  | call {events : List BufferEvent} {p : RunPoint} {e : Engine Code}
      (h : Session guest kind events p e)
      (hp : p = .outside ∨ ∃ status, p = .returned status) :
      Session guest kind events .compareExchange e
  | host {events : List BufferEvent} {p : RunPoint} {e : Engine Code}
      (h : Session guest kind events p e) (flags : EngineFlags) (cpu : A64.State)
      (stop clear : Bool) :
      Session guest kind events p
        { e with flags := flags, cpu := cpu, stopRequested := stop, clearCacheRequested := clear }
  | translate {events : List BufferEvent} {p : RunPoint} {e : Engine Code} {input : TranslateInput}
      {pc : Address} {t : Translation} {stores : List ByteStore} (h : Session guest kind events p e)
      (ht : Translates input e.compiler pc t)
      (htrace : EmitTrace e.compiler.assembler stores t.compiler.assembler) :
      Session guest kind (events ++ [.translation stores]) p { e with compiler := t.compiler }
  | reset {events : List BufferEvent} {p : RunPoint} {e : Engine Code}
      (h : Session guest kind events p e) :
      Session guest kind (events ++ [.reset e.compiler.assembler.resetStores]) p
        { e with compiler := e.compiler.reset }

/-- Every byte is stored through the writable mapping: in the events, and by a translation that is
still under way after them. -/
def StoresThroughBuffer (events : List BufferEvent) (c : Compiler) : Prop :=
  (∀ event ∈ events, ∀ store ∈ event.stores, store.pointer = .buffer) ∧
    ∀ input start p s stores, Reaches input c start p s →
      EmitTrace c.assembler stores s.compiler.assembler →
        ∀ store ∈ stores, store.pointer = .buffer

variable {guest : Guest} {kind : CodeKind Code} {events : List BufferEvent} {p : RunPoint}
  {e : Engine Code}

/-- What the events of a session are: translations store through the buffer, and resets clear both
mappings of a buffer that is not empty. -/
def BufferEvent.WellFormed (event : BufferEvent) : Prop :=
  (event.isReset = false → ∀ store ∈ event.stores, store.pointer = .buffer) ∧
    (event.isReset = true → ∃ store ∈ event.stores, store.pointer = .rxBuffer)

theorem EmitTrace.wellFormed {a a' : Assembler} {stores : List ByteStore}
    (h : EmitTrace a stores a') : (BufferEvent.translation stores).WellFormed :=
  ⟨fun _ _ hstore => h.pointer hstore, nofun⟩

theorem Assembler.resetStores_wellFormed {a : Assembler} (h : a.capacity ≠ 0) :
    (BufferEvent.reset a.resetStores).WellFormed := by
  refine ⟨nofun, fun _ => ⟨⟨.rxBuffer, 0, 0⟩, List.mem_append_right _ ?_, rfl⟩⟩
  obtain ⟨n, hn⟩ := Nat.exists_eq_succ_of_ne_zero h
  rw [hn, List.replicate_succ, storesFrom]
  exact List.mem_cons_self

theorem CompileEvents.wellFormed {flags : EngineFlags} {c : Compiler} {pc : Address}
    {t : Translation} (h : CompileEvents guest flags c pc events t)
    (hcapacity : c.assembler.capacity ≠ 0) :
    t.compiler.assembler.capacity = c.assembler.capacity ∧
      ∀ event ∈ events, event.WellFormed := by
  cases h with
  | once htranslates _ htrace =>
      refine ⟨htranslates.capacity, fun event hevent => ?_⟩
      rw [List.mem_singleton.mp hevent]
      exact htrace.wellFormed
  | again hretries htrace htranslates htrace' =>
      have hfirst := hretries.1.capacity
      refine ⟨htranslates.capacity.trans hfirst, fun event hevent => ?_⟩
      simp only [List.mem_cons, List.not_mem_nil, or_false] at hevent
      rcases hevent with rfl | rfl | rfl
      · exact htrace.wellFormed
      · exact Assembler.resetStores_wellFormed (hfirst.symm ▸ hcapacity)
      · exact htrace'.wellFormed

theorem Compiles.exists_events {flags : EngineFlags} {c : Compiler} {pc : Address} {t : Translation}
    (h : Compiles guest flags c pc t) : ∃ events, CompileEvents guest flags c pc events t := by
  cases h with
  | once htranslates hdone =>
      obtain ⟨stores, htrace, -⟩ := htranslates.stores
      exact ⟨_, .once htranslates hdone htrace⟩
  | again hretries htranslates =>
      obtain ⟨stores, htrace, -⟩ := hretries.1.stores
      obtain ⟨stores', htrace', -⟩ := htranslates.stores
      exact ⟨_, .again hretries htrace htranslates htrace'⟩

theorem Dispatch.compiled_or_same {e' : Engine Code} {executed : Option Code} {again : Bool}
    (h : Dispatch guest kind e e' executed again) :
    (e.Proceeds ∧ e.Misses ∧
        ∃ t, Compiles guest e.flags e.compiler e.cpu.pc t ∧ e'.compiler = t.compiler) ∨
      ¬(e.Proceeds ∧ e.Misses) ∧ e'.compiler = e.compiler := by
  cases h with
  | interrupt hpending =>
      refine .inr ⟨fun hboth => ?_, rfl⟩
      exact absurd (hpending.symm.trans hboth.1.1) (by decide)
  | sentinel _ hpc => exact .inr ⟨fun hboth => hboth.1.2 hpc, rfl⟩
  | failure hproceeds hmiss hcompiles _ => exact .inl ⟨hproceeds, hmiss, _, hcompiles, rfl⟩
  | block hproceeds hobtains _ =>
      cases hobtains with
      | cached hcache hlookup =>
          refine .inr ⟨fun hboth => ?_, rfl⟩
          rcases hboth.2 with hdisabled | hmiss
          · exact absurd (hcache.symm.trans hdisabled) (by decide)
          · exact absurd (hlookup.symm.trans hmiss) (by simp)
      | compiled hmiss hcompiles _ => exact .inl ⟨hproceeds, hmiss, _, hcompiles, rfl⟩

/-- Every step of a call has its events. -/
theorem RunStep.exists_events {p' : RunPoint} {e' : Engine Code} {executed : Option Code}
    (h : RunStep guest kind p e p' e' executed) : ∃ events, StepEvents guest kind p e events p' e' := by
  by_cases hclear : p = .clearReset
  · subst hclear
    exact ⟨_, .cleared h⟩
  by_cases hdispatch : p = .dispatch
  · subst hdispatch
    have hstep := h
    cases hstep with
    | dispatched hdispatched =>
        obtain ⟨hproceeds, hmiss, t, hcompiles, hcompiler⟩ | ⟨hnone, -⟩ :=
          hdispatched.compiled_or_same
        · obtain ⟨events, hevents⟩ := hcompiles.exists_events
          exact ⟨events, .compiled h hproceeds hmiss hevents hcompiler⟩
        · exact ⟨[], .uncompiled h hnone⟩
  · exact ⟨[], .other h hdispatch hclear⟩

theorem StepEvents.wellFormed {p' : RunPoint} {e' : Engine Code}
    (h : StepEvents guest kind p e events p' e') (hcapacity : e.compiler.assembler.capacity ≠ 0) :
    e'.compiler.assembler.capacity = e.compiler.assembler.capacity ∧
      ∀ event ∈ events, event.WellFormed := by
  cases h with
  | compiled _ _ _ hevents hcompiler =>
      rw [hcompiler]
      exact hevents.wellFormed hcapacity
  | uncompiled h hnone =>
      refine ⟨?_, nofun⟩
      cases h with
      | dispatched hdispatch =>
          obtain ⟨hproceeds, hmiss, -⟩ | ⟨-, hsame⟩ := hdispatch.compiled_or_same
          · exact absurd ⟨hproceeds, hmiss⟩ hnone
          · rw [hsame]
  | cleared h =>
      cases h with
      | reset =>
          refine ⟨rfl, fun event hevent => ?_⟩
          rw [List.mem_singleton.mp hevent]
          exact Assembler.resetStores_wellFormed hcapacity
  | other h hdispatch hclear =>
      refine ⟨?_, nofun⟩
      cases h with
      | dispatched => exact absurd rfl hdispatch
      | reset => exact absurd rfl hclear
      | entered | refused | stopped | unstopped | cleared | uncleared | stored | released => rfl

theorem Session.wellFormed (h : Session guest kind events p e) :
    e.compiler.assembler.capacity ≠ 0 ∧ ∀ event ∈ events, event.WellFormed := by
  induction h with
  | init cpu hc =>
      refine ⟨?_, nofun⟩
      obtain ⟨a, ha, rfl⟩ := Option.map_eq_some_iff.mp hc
      simp only [Assembler.init] at ha
      split at ha
      · cases ha
      · next hsize =>
          cases ha
          exact hsize
  | step _ hstep ih =>
      obtain ⟨hcapacity, hmore⟩ := hstep.wellFormed ih.1
      refine ⟨hcapacity.symm ▸ ih.1, fun event hevent => ?_⟩
      exact (List.mem_append.mp hevent).elim (ih.2 event) (hmore event)
  | call _ _ ih => exact ih
  | host _ _ _ _ _ ih => exact ih
  | translate _ ht htrace ih =>
      refine ⟨ht.capacity.symm ▸ ih.1, fun event hevent => ?_⟩
      rcases List.mem_append.mp hevent with hbefore | hlast
      · exact ih.2 event hbefore
      · rw [List.mem_singleton.mp hlast]
        exact htrace.wellFormed
  | reset _ ih =>
      refine ⟨ih.1, fun event hevent => ?_⟩
      rcases List.mem_append.mp hevent with hbefore | hlast
      · exact ih.2 event hbefore
      · rw [List.mem_singleton.mp hlast]
        exact Assembler.resetStores_wellFormed ih.1

/-- **Stores go through the writable mapping** exactly in the sessions without a reset: no clear
request is served, no translation is retried, and neither the compiler nor the engine is reset. -/
theorem Session.storesThroughBuffer_iff (h : Session guest kind events p e) :
    StoresThroughBuffer events e.compiler ↔ ∀ event ∈ events, event.isReset = false := by
  obtain ⟨-, hwell⟩ := h.wellFormed
  constructor
  · rintro ⟨hstores, -⟩ event hevent
    by_contra hreset
    obtain ⟨store, hstore, hpointer⟩ := (hwell event hevent).2 (Bool.eq_true_of_not_eq_false hreset)
    rw [hstores event hevent store hstore] at hpointer
    cases hpointer
  · intro hnone
    refine ⟨fun event hevent => (hwell event hevent).1 (hnone event hevent), ?_⟩
    intro input start p s stores _ htrace store hstore
    exact htrace.pointer hstore

end Sessions

/-- A session of one translation. -/
theorem storesThroughBuffer_iff_jump : ∃ (stores : List ByteStore) (e : Engine Nat),
    Session (wordGuest 0x14000000) positions [.translation stores] .outside e ∧
      stores.length = 34 ∧ StoresThroughBuffer [.translation stores] e.compiler := by
  have hrun : ((balTier1CompilerTranslate ((wordGuest 0x14000000).input 0) (.fresh (2 ^ 24)) 0 5).map
      fun t => t.compiler.assembler.offset) = some 34 := by decide
  obtain ⟨t, ht, hoffset⟩ := Option.map_eq_some_iff.mp hrun
  have htranslates : Translates ((wordGuest 0x14000000).input 0) (.fresh (2 ^ 24)) 0 t := ⟨5, ht⟩
  obtain ⟨stores, htrace, -⟩ := htranslates.stores
  have hinit : Session (wordGuest 0x14000000) positions [] .outside
      (.init (cpuState (fun _ => 0) 0) (.fresh (2 ^ 24)) : Engine Nat) :=
    .init _ (Compiler.init_fresh (by decide))
  have hsession := hinit.translate htranslates htrace
  refine ⟨stores, _, hsession, ?_, hsession.storesThroughBuffer_iff.mpr ?_⟩
  · rw [htrace.stores_eq, storesFrom_length, Assembler.bytesTo, List.length_map, List.length_range',
      hoffset]
    rfl
  · intro event hevent
    rw [List.mem_singleton.mp hevent]
    rfl

/-- A clear request, served by the next call: the buffer is cleared through the executable mapping. -/
theorem clearCache_storesThroughRx : ∃ e : Engine Nat,
    Session (wordGuest 0x14000000) positions
        [.reset (Compiler.fresh (2 ^ 24)).assembler.resetStores] .clearStore e ∧
      ¬StoresThroughBuffer [.reset (Compiler.fresh (2 ^ 24)).assembler.resetStores] e.compiler := by
  have hinit : Session (wordGuest 0x14000000) positions [] .outside
      (.init (cpuState (fun _ => 0) 0) (.fresh (2 ^ 24)) : Engine Nat) :=
    .init _ (Compiler.init_fresh (by decide))
  have hcalled := (hinit.host 0 (cpuState (fun _ => 0) 0) false true).call (.inl rfl)
  have hentered := hcalled.step (.other (.entered rfl) nofun nofun)
  have hchecked := (hentered.step (.other (.unstopped rfl) nofun nofun)).step
    (.other (.cleared rfl) nofun nofun)
  refine ⟨_, hchecked.step (.cleared .reset), fun hthrough => ?_⟩
  obtain ⟨store, hstore, hpointer⟩ := (Assembler.resetStores_wellFormed
    (a := (Compiler.fresh (2 ^ 24)).assembler) (by decide)).2 rfl
  rw [hthrough.1 _ List.mem_cons_self store hstore] at hpointer
  cases hpointer

end Ballistic
