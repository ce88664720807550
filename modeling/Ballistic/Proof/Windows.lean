import Ballistic.Proof.Emission
import Ballistic.Proof.Lowering

/-!
# What a window emits

A window that is pushed into and flushed emits the pushed macros in their order, up to moves that the
peephole pass turned into nothing (`Marked`). So the code of a window does what the macros lowered one
by one do, and it needs no more room.
-/

namespace Ballistic

open Machine Machine.X86

/-! ### Execution up to a trap -/

/-- The effect of instructions without jumps; nothing is executed after an undefined instruction. -/
def effect (s : State) : List Instr → State
  | [] => s
  | .ud2 :: _ => s
  | i :: is => effect (i.exec s) is

theorem effect_cons {i : Instr} (hi : i ≠ .ud2) (s : State) (is : List Instr) :
    effect s (i :: is) = effect (i.exec s) is := by
  cases i with
  | ud2 => exact absurd rfl hi
  | _ => rfl

theorem effect_append (s : State) (is js : List Instr) :
    effect s (is ++ js) = if .ud2 ∈ is then effect s is else effect (effect s is) js := by
  induction is generalizing s with
  | nil => rfl
  | cons i is ih =>
      by_cases hi : i = .ud2
      · subst hi
        simp [effect]
      · rw [List.cons_append, effect_cons hi, effect_cons hi, ih]
        simp [Ne.symm hi]

/-- The code from `start` on takes `s` to `u`, and then the processor is at `stop` or at an undefined
instruction. -/
def Executes (code : Nat → Byte) (start stop : Nat) (s u : State) : Prop :=
  ∃ r, Relation.ReflTransGen (fun s t => step code s = some t) { s with rip := start }
      { u with rip := r } ∧
    (r = stop ∨ ∃ length, decode (fetch code r) = some (.ud2, length))

theorem executes_effect {code : Nat → Byte} {start stop : Nat} {is : List Instr} (s : State)
    (hcode : CodeAt code start is stop) (hstraight : ∀ i ∈ is, i.straight ∨ i = .ud2) :
    Executes code start stop s (effect s is) := by
  induction is generalizing start s with
  | nil => exact ⟨start, .refl, .inl hcode⟩
  | cons i is ih =>
      obtain ⟨bytes, hencodes, hbytes, hrest⟩ := hcode
      by_cases hi : i = .ud2
      · subst hi
        exact ⟨start, .refl, .inr ⟨bytes.length, decode_fetch hencodes hbytes⟩⟩
      · have hstep := step_straight (s := { s with rip := start }) hencodes hbytes
          ((hstraight i (by simp)).resolve_right hi)
        rw [exec_rip] at hstep
        obtain ⟨r, hsteps, hstop⟩ := ih (i.exec s) hrest fun j hj => hstraight j (by simp [hj])
        rw [effect_cons hi]
        exact ⟨r, .head hstep hsteps, hstop⟩

/-! ### Removed moves -/

/-- `left` is `ms` with some moves made no operations: moves of a register to itself, and moves that
the next macro does again. -/
inductive Marked : (ms left : List Macro) → Prop
  | nil : Marked [] []
  | keep (m : Macro) {ms left : List Macro} (h : Marked ms left) : Marked (m :: ms) (m :: left)
  | identity {m : Macro} {ms left : List Macro} (hmov : m.opcode = .movRegisterRegister)
      (hsame : m.destination = m.source) (h : Marked ms left) :
      Marked (m :: ms) ({ m with opcode := .nop } :: left)
  | repeated {m m' : Macro} {ms left : List Macro} (hmov : m.opcode = .movRegisterRegister)
      (hmov' : m'.opcode = .movRegisterRegister) (hdestination : m'.destination = m.destination)
      (hsource : m'.source = m.source) (h : Marked (m' :: ms) left) :
      Marked (m :: m' :: ms) ({ m with opcode := .nop } :: left)

namespace Marked

variable {ms left : List Macro} {m : Macro}

theorem refl (ms : List Macro) : Marked ms ms := by
  induction ms with
  | nil => exact .nil
  | cons m ms ih => exact .keep m ih

theorem length_eq (h : Marked ms left) : left.length = ms.length := by
  induction h with
  | nil => rfl
  | keep | identity | repeated => simp_all

theorem append {ns right : List Macro} (h : Marked ms left) (h' : Marked ns right) :
    Marked (ms ++ ns) (left ++ right) := by
  induction h with
  | nil => exact h'
  | keep m h ih => exact .keep m ih
  | identity hmov hsame h ih => exact .identity hmov hsame ih
  | repeated hmov hmov' hdestination hsource h ih =>
      exact .repeated hmov hmov' hdestination hsource ih

/-- A move at the end of what is left was the last macro, so the same move can take its place. -/
theorem repeat_last {front : List Macro} {last : Macro} (h : Marked ms (front ++ [last]))
    (hlast : last.opcode = .movRegisterRegister) (hmov : m.opcode = .movRegisterRegister)
    (hdestination : m.destination = last.destination) (hsource : m.source = last.source) :
    Marked (ms ++ [m]) (front ++ [{ last with opcode := .nop }, m]) := by
  generalize hleft : front ++ [last] = left at h
  induction h generalizing front with
  | nil => simp at hleft
  | @keep m' ms left h ih =>
      cases front with
      | nil =>
          obtain ⟨rfl, rfl⟩ : last = m' ∧ [] = left := by simpa using hleft
          obtain rfl : ms = [] := List.length_eq_zero_iff.mp h.length_eq.symm
          exact .repeated hlast hmov hdestination hsource (refl [m])
      | cons m'' front =>
          obtain ⟨rfl, hrest⟩ := List.cons.inj hleft
          exact .keep m'' (ih hrest)
  | @identity m' ms left hmov' hsame h ih =>
      cases front with
      | nil =>
          obtain ⟨rfl, -⟩ := List.cons.inj hleft
          cases hlast
      | cons m'' front =>
          obtain ⟨rfl, hrest⟩ := List.cons.inj hleft
          exact .identity hmov' hsame (ih hrest)
  | @repeated m' m₂ ms left hmov' hmov₂ hdestination' hsource' h ih =>
      cases front with
      | nil =>
          obtain ⟨rfl, -⟩ := List.cons.inj hleft
          cases hlast
      | cons m'' front =>
          obtain ⟨rfl, hrest⟩ := List.cons.inj hleft
          exact .repeated hmov' hmov₂ hdestination' hsource' (ih hrest)

theorem peephole {flushed before : List Macro} (h : Marked ms (flushed ++ before)) (m : Macro) :
    Marked (ms ++ [m]) (flushed ++ runPeepholeOptimizer before m) := by
  have hkept := h.append (refl [m])
  rw [List.append_assoc] at hkept
  unfold runPeepholeOptimizer
  split
  · next hidentity =>
      rw [← List.append_assoc]
      exact h.append (.identity hidentity.1 hidentity.2 .nil)
  · split
    · exact hkept
    · next macro2 hlast =>
        split
        · next hredundant =>
            obtain ⟨hmov, hmov2, hdestination, hsource⟩ := hredundant
            obtain ⟨front, rfl⟩ := List.getLast?_eq_some_iff.mp hlast
            rw [List.dropLast_concat, ← List.append_assoc]
            rw [← List.append_assoc] at h
            exact h.repeat_last hmov2 hmov hdestination hsource
        · exact hkept

/-- The moves that are made no operations change nothing. -/
theorem effect_eq (h : Marked ms left) (s : State) :
    effect s (instrsOf left) = effect s (instrsOf ms) := by
  induction h generalizing s with
  | nil => rfl
  | keep m h ih => rw [instrsOf_cons, instrsOf_cons, effect_append, effect_append, ih]
  | @identity m ms left hmov hsame h ih =>
      obtain ⟨opcode, d, r, i, condition⟩ := m
      simp only at hmov hsame
      subst hmov hsame
      rw [instrsOf_cons, instrsOf_cons]
      cases d with
      | none => exact ih s
      | some d =>
          change effect s (instrsOf left) = effect ((Instr.mov d d).exec s) (instrsOf ms)
          rw [exec_mov_self, ih]
  | @repeated m m' ms left hmov hmov' hdestination hsource h ih =>
      obtain ⟨opcode, d, r, i, condition⟩ := m
      obtain ⟨opcode', d', r', i', condition'⟩ := m'
      simp only at hmov hmov' hdestination hsource
      subst hmov hmov' hdestination hsource
      rw [instrsOf_cons, instrsOf_cons]
      cases d' with
      | none => exact ih s
      | some d =>
          cases r' with
          | none => exact ih s
          | some r =>
              calc effect s (instrsOf left)
                  = effect ((Instr.mov d r).exec s) (instrsOf ms) := ih s
                _ = effect ((Instr.mov d r).exec ((Instr.mov d r).exec s)) (instrsOf ms) := by
                    rw [exec_mov_twice]

theorem mem_instrsOf (h : Marked ms left) {i : Instr} (hi : i ∈ instrsOf left) : i ∈ instrsOf ms := by
  induction h with
  | nil => exact hi
  | keep m h ih =>
      rw [instrsOf_cons, List.mem_append] at hi ⊢
      exact hi.imp_right ih
  | identity hmov hsame h ih => exact List.mem_append_right _ (ih hi)
  | repeated hmov hmov' hdestination hsource h ih => exact List.mem_append_right _ (ih hi)

end Marked

theorem straight_instrs {m : Macro} (hm : m.opcode ≠ .jccRelative ∧ m.opcode ≠ .jmpRelative ∧
    m.opcode ≠ .jmpRegister) {i : Instr} (hi : i ∈ m.instrs) : i.straight ∨ i = .ud2 := by
  obtain ⟨opcode, d, s, v, condition⟩ := m
  simp only at hm
  cases opcode with
  | jccRelative | jmpRelative | jmpRegister => simp at hm
  | nop | ret | testRegisterRegister => cases hi
  | ud2 => exact .inr (List.mem_singleton.mp hi)
  | addCpuIcount | setcc =>
      rw [List.mem_singleton.mp hi]
      exact .inl rfl
  | store =>
      cases s with
      | none => cases hi
      | some s =>
          rw [List.mem_singleton.mp hi]
          exact .inl rfl
  | andRegisterImmediate | orRegisterImmediate =>
      cases d with
      | none => cases hi
      | some d =>
          rcases List.mem_cons.mp hi with rfl | hi
          · exact .inl rfl
          · rw [List.mem_singleton.mp hi]
            exact .inl rfl
  | addRegisterRegister | andRegisterRegister | orRegisterRegister | subRegisterRegister
  | xorRegisterRegister | movRegisterRegister =>
      cases d with
      | none => cases hi
      | some d =>
          cases s with
          | none => cases hi
          | some s =>
              rw [List.mem_singleton.mp hi]
              exact .inl rfl
  | _ =>
      cases d with
      | none => cases hi
      | some d =>
          rw [List.mem_singleton.mp hi]
          exact .inl rfl

/-! ### Room -/

/-- `a` has not failed and has at least the room that `b` has. -/
structure Roomier (a b : Assembler) : Prop where
  status : a.status = .success
  capacity_eq : a.capacity = b.capacity
  offset_le : a.offset ≤ b.offset

namespace Roomier

variable {a b : Assembler}

theorem emit (h : Roomier a b) {poisons : Bool} {encoding : Option Encoding}
    (hemit : (b.emit poisons encoding).status = .success) :
    Roomier (a.emit poisons encoding) (b.emit poisons encoding) := by
  obtain ⟨-, e, rfl, hroom, hwrite⟩ := Assembler.emit_success hemit
  have hle := h.offset_le
  have hcapacity := h.capacity_eq
  have hroom' : a.canEmit e.instructionSizeBytes = true := by
    simp only [Assembler.canEmit, Bool.and_eq_true, Bool.not_eq_true', decide_eq_false_iff_not]
      at hroom ⊢
    omega
  have hwrite' : a.emit poisons (some e) = a.write e.bytes := by
    simp [Assembler.emit, h.status, hroom']
  rw [hwrite, hwrite']
  exact ⟨h.status, hcapacity, Nat.add_le_add_right hle _⟩

theorem checkBranchOffset (h : Roomier a b) {offset : BitVec 64} {poisons : Bool}
    {encoding : BitVec 32 → Option Encoding}
    (hcheck : (Ballistic.checkBranchOffset b offset fun v => b.emit poisons (encoding v)).status =
      .success) :
    Roomier (Ballistic.checkBranchOffset a offset fun v => a.emit poisons (encoding v))
      (Ballistic.checkBranchOffset b offset fun v => b.emit poisons (encoding v)) := by
  unfold Ballistic.checkBranchOffset at hcheck ⊢
  split at hcheck
  · next hsmall =>
      rw [if_pos hsmall, if_pos hsmall]
      exact h.emit hcheck
  · cases hcheck

theorem flushSingleMacro (h : Roomier a b) {m : Macro}
    (hflush : (Ballistic.flushSingleMacro b m).status = .success) :
    Roomier (Ballistic.flushSingleMacro a m) (Ballistic.flushSingleMacro b m) := by
  have hstatus : b.status = .success := by
    by_contra hfailed
    rw [flushSingleMacro_failed m hfailed] at hflush
    exact hfailed hflush
  unfold Ballistic.flushSingleMacro at hflush ⊢
  simp only [h.status, hstatus, ne_eq, not_true_eq_false, if_false] at hflush ⊢
  cases hopcode : m.opcode with
  | nop | ret | testRegisterRegister => exact h
  | andRegisterImmediate | orRegisterImmediate =>
      simp only [hopcode] at hflush
      exact (h.emit (Assembler.emit_success hflush).1).emit hflush
  | jccRelative | jmpRelative =>
      simp only [hopcode] at hflush
      exact h.checkBranchOffset hflush
  | _ =>
      simp only [hopcode] at hflush
      exact h.emit hflush

theorem grow (h : Roomier a b) {m : Macro}
    (hflush : (Ballistic.flushSingleMacro b m).status = .success) :
    Roomier a (Ballistic.flushSingleMacro b m) := by
  have hemitted := flushSingleMacro_emitted hflush
  exact ⟨h.status, h.capacity_eq.trans hemitted.capacity_eq.symm, h.offset_le.trans hemitted.offset_le⟩

theorem flushNop (h : Roomier a b) {m : Macro}
    (hflush : (Ballistic.flushSingleMacro b m).status = .success) :
    Roomier (Ballistic.flushSingleMacro a { m with opcode := .nop })
      (Ballistic.flushSingleMacro b m) := by
  have hnop : Ballistic.flushSingleMacro a { m with opcode := .nop } = a := by
    simp [Ballistic.flushSingleMacro]
  rw [hnop]
  exact h.grow hflush

theorem flushMacros (h : Roomier a b) {ms left : List Macro} (hmarked : Marked ms left)
    (hflush : (Ballistic.flushMacros b ms).status = .success) :
    Roomier (Ballistic.flushMacros a left) (Ballistic.flushMacros b ms) := by
  induction hmarked generalizing a b with
  | nil => exact h
  | keep m hmarked ih => exact ih (h.flushSingleMacro (flushMacros_head hflush)) hflush
  | identity hmov hsame hmarked ih => exact ih (h.flushNop (flushMacros_head hflush)) hflush
  | repeated hmov hmov' hdestination hsource hmarked ih =>
      exact ih (h.flushNop (flushMacros_head hflush)) hflush

end Roomier

/-! ### Runs of a window -/

/-- A call to the window. -/
inductive WindowCall where
  | push (m : Macro)
  | flushAll

def WindowCall.perform : Assembler × SlidingWindow → WindowCall → Assembler × SlidingWindow
  | (a, w), .push m => slidingWindowPush a w m
  | (a, w), .flushAll => slidingWindowFlushAll a w

/-- The assembler and its window, empty at first, after some calls. -/
def runWindow (a : Assembler) (calls : List WindowCall) : Assembler × SlidingWindow :=
  calls.foldl WindowCall.perform (a, .empty)

def pushedMacros (calls : List WindowCall) : List Macro :=
  calls.filterMap fun
    | .push m => some m
    | .flushAll => none

/-- **The window's invariant.** What is flushed and what still waits are together the pushed macros,
up to removed moves. -/
theorem runWindow_marked (a : Assembler) (calls : List WindowCall) :
    ∃ flushed, (runWindow a calls).1 = flushMacros a flushed ∧
      Marked (pushedMacros calls) (flushed ++ (runWindow a calls).2.macros) := by
  induction calls using List.reverseRecOn with
  | nil => exact ⟨[], rfl, .nil⟩
  | append_singleton calls call ih =>
      obtain ⟨flushed, hassembler, hmarked⟩ := ih
      have hrun : runWindow a (calls ++ [call]) = WindowCall.perform (runWindow a calls) call := by
        rw [runWindow, List.foldl_append]
        rfl
      rw [hrun]
      generalize runWindow a calls = run at hassembler hmarked
      obtain ⟨a', w⟩ := run
      simp only at hassembler hmarked
      subst hassembler
      cases call with
      | flushAll =>
          refine ⟨flushed ++ w.macros, (flushMacros_append a flushed w.macros).symm, ?_⟩
          have hpushed : pushedMacros (calls ++ [.flushAll]) = pushedMacros calls := by
            simp [pushedMacros]
          rw [hpushed, WindowCall.perform, slidingWindowFlushAll, SlidingWindow.empty, List.append_nil]
          exact hmarked
      | push m =>
          have hpushed : pushedMacros (calls ++ [.push m]) = pushedMacros calls ++ [m] := by
            simp [pushedMacros]
          rw [hpushed, WindowCall.perform, slidingWindowPush]
          split
          · refine ⟨flushed ++ w.macros, (flushMacros_append a flushed w.macros).symm, ?_⟩
            simp only
            split
            · exact hmarked.append (.refl [m])
            · exact Marked.peephole (by rwa [List.append_nil]) m
          · refine ⟨flushed, rfl, ?_⟩
            simp only
            split
            · rw [← List.append_assoc]
              exact hmarked.append (.refl [m])
            · exact hmarked.peephole m

/-- **The window is transparent.** If the pushed macros lowered one by one fit into the buffer, so
does what the window emits for them, and it does the same: the pushed macros in order, without moves
that change nothing. -/
theorem runWindow_transparent (a : Assembler) (calls : List WindowCall)
    (hstraight : ∀ m ∈ pushedMacros calls,
      m.opcode ≠ .jccRelative ∧ m.opcode ≠ .jmpRelative ∧ m.opcode ≠ .jmpRegister)
    (hroom : (flushMacros a (pushedMacros calls)).status = .success) :
    (∀ n, (runWindow a (calls.take n)).2.macros.length ≤ slidingWindowCapacity) ∧
      (runWindow a (calls ++ [.flushAll])).1.status = .success ∧
      (runWindow a (calls ++ [.flushAll])).2 = .empty ∧
      (∃ left, Marked (pushedMacros calls) left ∧
        Emitted a (runWindow a (calls ++ [.flushAll])).1 (instrsOf left)) ∧
      Emitted a (flushMacros a (pushedMacros calls)) (instrsOf (pushedMacros calls)) ∧
      ∀ s, Executes (runWindow a (calls ++ [.flushAll])).1.buffer a.offset
          (runWindow a (calls ++ [.flushAll])).1.offset s
          (effect s (instrsOf (pushedMacros calls))) ∧
        Executes (flushMacros a (pushedMacros calls)).buffer a.offset
          (flushMacros a (pushedMacros calls)).offset s
          (effect s (instrsOf (pushedMacros calls))) := by
  obtain ⟨flushed, hassembler, hmarked⟩ := runWindow_marked a (calls ++ [.flushAll])
  have hpushed : pushedMacros (calls ++ [.flushAll]) = pushedMacros calls := by
    simp [pushedMacros]
  have hempty : (runWindow a (calls ++ [.flushAll])).2 = .empty := by
    rw [runWindow, List.foldl_append]
    rfl
  have hstatus : a.status = .success := by
    by_contra hfailed
    rw [flushMacros_failed _ hfailed] at hroom
    exact hfailed hroom
  rw [hpushed, hempty, SlidingWindow.empty, List.append_nil] at hmarked
  have hstraight' : ∀ i ∈ instrsOf (pushedMacros calls), i.straight ∨ i = .ud2 := by
    intro i hi
    obtain ⟨m, hm, him⟩ := List.mem_flatMap.mp hi
    exact straight_instrs (hstraight m hm) him
  have hroomier := Roomier.flushMacros ⟨hstatus, rfl, le_rfl⟩ hmarked hroom
  have hemitted := flushMacros_emitted hroomier.status
  have hdirect := flushMacros_emitted hroom
  rw [← hassembler] at hroomier hemitted
  refine ⟨fun n => (runWindow a (calls.take n)).2.count_le, hroomier.status, hempty,
    ⟨flushed, hmarked, hemitted⟩, hdirect, fun s => ⟨?_, ?_⟩⟩
  · rw [← hmarked.effect_eq]
    exact executes_effect s hemitted.code fun i hi => hstraight' i (hmarked.mem_instrsOf hi)
  · exact executes_effect s hdirect.code hstraight'

/-- An empty buffer of 256 bytes. -/
def smallBuffer : Assembler := ⟨fun _ => 0, 256, 0, .success⟩

/-- Three moves of which two are removed, and an addition after a flush. -/
def someCalls : List WindowCall :=
  [.push ⟨.movRegisterRegister, some .rax, some .rbx, 0, .o⟩,
    .push ⟨.movRegisterRegister, some .rax, some .rbx, 0, .o⟩,
    .push ⟨.movRegisterRegister, some .rcx, some .rcx, 0, .o⟩, .flushAll,
    .push ⟨.addRegisterImmediate, some .rax, some .rax, 1, .o⟩]

theorem runWindow_transparent_moves :
    (∃ left, Marked (pushedMacros someCalls) left ∧
      Emitted smallBuffer (runWindow smallBuffer (someCalls ++ [.flushAll])).1 (instrsOf left)) ∧
    ∀ s, Executes (runWindow smallBuffer (someCalls ++ [.flushAll])).1.buffer 0 7 s
      (effect s (instrsOf (pushedMacros someCalls))) := by
  have h := runWindow_transparent smallBuffer someCalls (by decide) (by decide)
  exact ⟨h.2.2.2.1, fun s => (h.2.2.2.2.2 s).1⟩

end Ballistic
