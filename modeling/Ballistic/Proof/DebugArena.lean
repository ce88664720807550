import Mathlib.Order.CompletePartialOrder
import Mathlib.Order.Interval.Set.Disjoint
import Ballistic.JitArena

/-!
# The arena of the debug table

The records of the table lie one behind the other in the arena. A call writes only behind the last
one, so the earlier records stay as they were (`Stored.addBlock`), and a call that refuses its block
changes the status alone.
-/

namespace Ballistic

open Machine

/-! ### Copies of mappings -/

section Copy

variable {m : Memory} {a x : Address}

theorem copyMappings_outside {mappings : List (BitVec 32 × BitVec 32)}
    (hsize : jitMapSize * mappings.length < 2 ^ 32)
    (hout : jitMapSize * mappings.length ≤ distance a x) :
    copyMappings m a mappings x = m x := by
  induction mappings generalizing m a with
  | nil => rfl
  | cons p mappings ih =>
      simp only [List.length_cons, jitMapSize] at hsize hout ih
      have hbehind : 8 * mappings.length ≤ distance (above a 8) x :=
        le_distance_of_outside hsize (by omega) hout
      have hsecond : 4 ≤ distance (above a 4) x := le_distance_of_outside hsize (by omega) hout
      rw [copyMappings, jitMapSize, ih (by omega) hbehind, Memory.write32_outside hsecond,
        Memory.write32_outside (by omega)]

theorem read32_copyMappings {mappings : List (BitVec 32 × BitVec 32)}
    (hsize : jitMapSize * mappings.length < 2 ^ 31) {k : Nat} (hk : k < mappings.length) :
    (copyMappings m a mappings).read32 (above a (jitMapSize * k)) = mappings[k].1 ∧
      (copyMappings m a mappings).read32 (above a (jitMapSize * k + 4)) = mappings[k].2 := by
  induction mappings generalizing m a k with
  | nil => exact absurd hk (Nat.not_lt_zero k)
  | cons p mappings ih =>
      simp only [List.length_cons, jitMapSize] at hsize hk ih
      have hbefore : ∀ o < 8, copyMappings ((m.write32 a p.1).write32 (above a 4) p.2) (above a 8)
          mappings (above a o) = (m.write32 a p.1).write32 (above a 4) p.2 (above a o) := by
        intro o ho
        apply copyMappings_outside
        · simp only [jitMapSize]
          omega
        · rw [distance_above_above a (by omega) (by omega), if_neg (by omega), jitMapSize]
          omega
      cases k with
      | zero =>
          simp only [copyMappings, jitMapSize, Nat.mul_zero, above_zero, Nat.zero_add,
            List.getElem_cons_zero]
          constructor
          · calc (copyMappings ((m.write32 a p.1).write32 (above a 4) p.2) (above a 8)
                  mappings).read32 a
                = ((m.write32 a p.1).write32 (above a 4) p.2).read32 (above a 0) := by
                  rw [above_zero]
                  exact Memory.read32_congr fun o ho => hbefore o (by omega)
              _ = (m.write32 a p.1).read32 (above a 0) :=
                  Memory.read32_write32_above _ a p.2 (by omega) (by omega) (by omega)
              _ = p.1 := by rw [above_zero, Memory.read32_write32_self]
          · calc (copyMappings ((m.write32 a p.1).write32 (above a 4) p.2) (above a 8)
                  mappings).read32 (above a 4)
                = ((m.write32 a p.1).write32 (above a 4) p.2).read32 (above a 4) := by
                  refine Memory.read32_congr fun o ho => ?_
                  rw [above_above]
                  exact hbefore (4 + o) (by omega)
              _ = p.2 := Memory.read32_write32_self _ _ _
      | succ k =>
          have hrest := ih (m := (m.write32 a p.1).write32 (above a 4) p.2) (a := above a 8)
            (k := k) (by omega) (by omega)
          rw [above_above, above_above] at hrest
          have hshift : 8 + 8 * k = 8 * (k + 1) := by omega
          have hshift' : 8 + (8 * k + 4) = 8 * (k + 1) + 4 := by omega
          rw [hshift, hshift'] at hrest
          exact hrest

end Copy

/-! ### The fields of the metadata -/

section Metadata

variable (m : Memory) (md baseGuestPc arenaMapping : Address) (instructionCount : BitVec 32)

theorem writeMetadata_outside {x : Address} (hout : jitMetadataSize ≤ distance md x) :
    writeMetadata m md baseGuestPc instructionCount arenaMapping x = m x := by
  have hsize : jitMetadataSize < 2 ^ 32 := by decide
  have hsecond : 4 ≤ distance (above md 8) x := le_distance_of_outside hsize (by decide) hout
  have hthird : 8 ≤ distance (above md 16) x := le_distance_of_outside hsize (by decide) hout
  rw [jitMetadataSize] at hout
  rw [writeMetadata, Memory.write64_outside hthird, Memory.write32_outside hsecond,
    Memory.write64_outside (by omega)]

theorem read64_writeMetadata_baseGuestPc :
    (writeMetadata m md baseGuestPc instructionCount arenaMapping).read64 md = baseGuestPc := by
  have hthird := Memory.read64_write64_above (o := 16) (p := 0)
    ((m.write64 md baseGuestPc).write32 (above md 8) instructionCount) md arenaMapping
    (by omega) (by omega) (by omega)
  have hsecond := Memory.read64_write32_above (o := 8) (p := 0) (m.write64 md baseGuestPc) md
    instructionCount (by omega) (by omega) (by omega)
  rw [above_zero] at hthird hsecond
  rw [writeMetadata, hthird, hsecond, Memory.read64_write64_self]

theorem read32_writeMetadata_instructionCount :
    (writeMetadata m md baseGuestPc instructionCount arenaMapping).read32 (above md 8) =
      instructionCount := by
  rw [writeMetadata, Memory.read32_write64_above _ md _ (by omega) (by omega) (by omega),
    Memory.read32_write32_self]

theorem read64_writeMetadata_mappings :
    (writeMetadata m md baseGuestPc instructionCount arenaMapping).read64 (above md 16) =
      arenaMapping := Memory.read64_write64_self _ _ _

theorem copyMappings_metadata {mappings : List (BitVec 32 × BitVec 32)}
    (hsize : jitMapSize * mappings.length < 2 ^ 31) {o : Nat} (ho : o < jitMetadataSize) :
    copyMappings m (above md jitMetadataSize) mappings (above md o) = m (above md o) := by
  simp only [jitMetadataSize] at ho ⊢
  apply copyMappings_outside (by omega)
  rw [distance_above_above _ (by omega) (by omega), if_neg (by omega)]
  omega

end Metadata

/-! ### One record -/

namespace JitDebugTable

variable {t : JitDebugTable} {call : JitDebugCall} {mappings : List (BitVec 32 × BitVec 32)} {i : Nat}

theorem record_before
    (hsize : t.arenaOffset + (mappings.length * jitMapSize + jitMetadataSize) < 2 ^ 31) {p : Nat}
    (hp : p < t.arenaOffset) :
    (t.record call mappings).memory (above t.metadataArena p) =
      t.memory (above t.metadataArena p) := by
  simp only [jitMapSize, jitMetadataSize] at hsize
  have hmappings : jitMapSize * mappings.length < 2 ^ 32 := by
    rw [jitMapSize]
    omega
  simp only [record]
  rw [copyMappings_outside hmappings, writeMetadata_outside]
  · rw [distance_above_above _ (by omega) (by omega), if_neg (by omega), jitMetadataSize]
    omega
  · rw [above_above, distance_above_above _ (by simp only [jitMetadataSize]; omega) (by omega),
      if_neg (by omega), jitMapSize, jitMetadataSize]
    omega

@[simp]
theorem record_entry (t : JitDebugTable) (call : JitDebugCall)
    (mappings : List (BitVec 32 × BitVec 32)) :
    (t.record call mappings).entries t.entryCount =
      { rxStart := call.rxStart
        rxSize := call.rxSize
        metadata := above t.metadataArena t.arenaOffset } := Function.update_self ..

theorem record_entry_of_lt (call : JitDebugCall) (mappings : List (BitVec 32 × BitVec 32))
    (hi : i < t.entryCount) : (t.record call mappings).entries i = t.entries i :=
  Function.update_of_ne (Nat.ne_of_lt hi) ..

theorem record_reads (hcount : mappings.length = call.instructionCount.toNat)
    (hsize : jitMapSize * mappings.length < 2 ^ 31) :
    (t.record call mappings).memory.read64 (above (above t.metadataArena t.arenaOffset) 16) =
        above (above t.metadataArena t.arenaOffset) jitMetadataSize ∧
      (t.record call mappings).mappingCount t.entryCount = mappings.length ∧
      (t.record call mappings).block t.entryCount =
        { rxStart := call.rxStart.toNat
          rxSize := call.rxSize
          baseGuestPc := call.baseGuestPc
          mappings := mappings } := by
  generalize hmd : above t.metadataArena t.arenaOffset = md
  have hentry : (t.record call mappings).entries t.entryCount =
      { rxStart := call.rxStart, rxSize := call.rxSize, metadata := md } := by
    rw [record_entry, hmd]
  have hmemory : (t.record call mappings).memory = copyMappings (writeMetadata t.memory md
      call.baseGuestPc call.instructionCount (above md jitMetadataSize))
      (above md jitMetadataSize) mappings := by
    simp only [record, hmd]
  have hkept : ∀ o < jitMetadataSize, (t.record call mappings).memory (above md o) =
      writeMetadata t.memory md call.baseGuestPc call.instructionCount
        (above md jitMetadataSize) (above md o) := by
    intro o ho
    rw [hmemory]
    exact copyMappings_metadata _ md hsize ho
  have hsmall : jitMetadataSize = 32 := rfl
  have hbase : (t.record call mappings).memory.read64 md = call.baseGuestPc :=
    (Memory.read64_congr fun k hk => hkept k (by omega)).trans
      (read64_writeMetadata_baseGuestPc _ _ _ _ _)
  have hcounted : (t.record call mappings).memory.read32 (above md 8) = call.instructionCount :=
    (Memory.read32_above_congr fun k hk => hkept (8 + k) (by omega)).trans
      (read32_writeMetadata_instructionCount _ _ _ _ _)
  have hpointer : (t.record call mappings).memory.read64 (above md 16) =
      above md jitMetadataSize :=
    (Memory.read64_above_congr fun k hk => hkept (16 + k) (by omega)).trans
      (read64_writeMetadata_mappings _ _ _ _ _)
  have hmappingCount : (t.record call mappings).mappingCount t.entryCount = mappings.length := by
    rw [mappingCount, hentry, hcounted, hcount]
  have hmappings : (t.record call mappings).mappings t.entryCount = mappings := by
    simp only [JitDebugTable.mappings, hmappingCount, hentry, hpointer]
    rw [hmemory]
    apply List.ext_getElem
    · rw [List.length_map, List.length_range]
    · intro k _ hk
      have hread := read32_copyMappings (m := writeMetadata t.memory md call.baseGuestPc
        call.instructionCount (above md jitMetadataSize)) (a := above md jitMetadataSize) hsize hk
      rw [List.getElem_map, List.getElem_range, hread.1, hread.2]
  refine ⟨hpointer, hmappingCount, ?_⟩
  rw [block, hentry, hmappings]
  simp only [hbase]

/-! ### The invariant -/

/-- The records lie in the arena one behind the other, each with its mappings behind its
metadata. -/
structure Stored (t : JitDebugTable) : Prop where
  capacity_lt : t.arenaCapacity < 2 ^ 31
  count_le : t.entryCount ≤ t.entryCapacity
  offset_le : t.arenaOffset ≤ t.arenaCapacity
  ordered : ∀ i j, i < j → j < t.entryCount → t.finish i ≤ t.start j
  inside : ∀ i < t.entryCount, t.finish i ≤ t.arenaOffset
  pointer : ∀ i < t.entryCount, t.memory.read64 (above (t.entries i).metadata 16) =
    above (t.entries i).metadata jitMetadataSize

theorem init_stored (memory : Memory) (entries : Nat → JitEntry) (metadataArena : Address) :
    (init memory entries metadataArena).Stored where
  capacity_lt := by
    change 4 * 1024 * 1024 < 2 ^ 31
    decide
  count_le := Nat.zero_le _
  offset_le := Nat.zero_le _
  ordered := fun _ _ _ hj => absurd hj (Nat.not_lt_zero _)
  inside := fun _ hi => absurd hi (Nat.not_lt_zero _)
  pointer := fun _ hi => absurd hi (Nat.not_lt_zero _)

/-- An entry reads as before when the bytes of its record are the same. -/
theorem Stored.kept (h : t.Stored) {u : JitDebugTable} (hi : i < t.entryCount)
    (harena : u.metadataArena = t.metadataArena) (hentry : u.entries i = t.entries i)
    (hmemory : ∀ p < t.arenaOffset,
      u.memory (above t.metadataArena p) = t.memory (above t.metadataArena p)) :
    u.start i = t.start i ∧ u.mappingCount i = t.mappingCount i ∧ u.block i = t.block i ∧
      u.memory.read64 (above (u.entries i).metadata 16) =
        t.memory.read64 (above (t.entries i).metadata 16) := by
  have hfinish := h.inside i hi
  have hoffset := h.offset_le
  have hcapacity := h.capacity_lt
  generalize hmd : (t.entries i).metadata = md
  have hbytes : ∀ o, o < jitMetadataSize + jitMapSize * t.mappingCount i →
      u.memory (above md o) = t.memory (above md o) := by
    intro o ho
    have hplace : above md o = above t.metadataArena (t.start i + o) := by
      rw [← above_above, start, above_distance, hmd]
    rw [hplace]
    apply hmemory
    simp only [finish] at hfinish
    omega
  have hsmall : jitMetadataSize = 32 := rfl
  have hbase : u.memory.read64 md = t.memory.read64 md :=
    Memory.read64_congr fun k hk => hbytes k (by omega)
  have hcount : u.memory.read32 (above md 8) = t.memory.read32 (above md 8) :=
    Memory.read32_above_congr fun k hk => hbytes (8 + k) (by omega)
  have hpointer : u.memory.read64 (above md 16) = t.memory.read64 (above md 16) :=
    Memory.read64_above_congr fun k hk => hbytes (16 + k) (by omega)
  have htarget : t.memory.read64 (above md 16) = above md jitMetadataSize := hmd ▸ h.pointer i hi
  have hmappingCount : u.mappingCount i = t.mappingCount i := by
    rw [mappingCount, mappingCount, hentry, hmd, hcount]
  have hmappings : u.mappings i = t.mappings i := by
    simp only [JitDebugTable.mappings, hmappingCount, hentry, hmd, hpointer, htarget]
    apply List.map_congr_left
    intro k hk
    have hlt := List.mem_range.mp hk
    have hnext : jitMapSize * (k + 1) ≤ jitMapSize * t.mappingCount i :=
      Nat.mul_le_mul_left _ hlt
    rw [Nat.mul_succ, jitMapSize] at hnext
    have hword : ∀ o, o + 4 ≤ jitMapSize →
        u.memory.read32 (above (above md jitMetadataSize) (jitMapSize * k + o)) =
          t.memory.read32 (above (above md jitMetadataSize) (jitMapSize * k + o)) := by
      intro o ho
      rw [jitMapSize] at ho
      apply Memory.read32_above_congr
      intro j hj
      rw [above_above]
      apply hbytes
      rw [jitMapSize]
      omega
    have hfirst := hword 0 (by decide)
    rw [Nat.add_zero] at hfirst
    rw [hfirst, hword 4 (by decide)]
  refine ⟨by rw [start, start, harena, hentry], hmappingCount, ?_, ?_⟩
  · rw [block, block, hentry, hmd, hbase, hmappings]
  · rw [hentry, hmd, hpointer]

/-- The blocks that the table has recorded, oldest first. -/
def blocks (t : JitDebugTable) : List JitBlockEntry := (List.range t.entryCount).map t.block

theorem record_finish (hcount : mappings.length = call.instructionCount.toNat)
    (hsize : t.arenaOffset + (mappings.length * jitMapSize + jitMetadataSize) < 2 ^ 31) :
    (t.record call mappings).start t.entryCount = t.arenaOffset ∧
      (t.record call mappings).finish t.entryCount = (t.record call mappings).arenaOffset := by
  have hstart : (t.record call mappings).start t.entryCount = t.arenaOffset := by
    rw [start, record_entry]
    exact distance_above _ (by omega)
  have hmappings : jitMapSize * mappings.length < 2 ^ 31 := by
    rw [Nat.mul_comm]
    omega
  refine ⟨hstart, ?_⟩
  rw [finish, hstart, (record_reads hcount hmappings).2.1]
  simp only [record]
  rw [Nat.mul_comm]
  omega

/-- A record keeps the invariant, and the blocks are those from before and the new one. -/
theorem Stored.record (h : t.Stored) (hcount : mappings.length = call.instructionCount.toNat)
    (hfree : t.entryCount < t.entryCapacity)
    (hroom : t.arenaOffset + (mappings.length * jitMapSize + jitMetadataSize) ≤ t.arenaCapacity) :
    (t.record call mappings).Stored ∧
      (t.record call mappings).blocks = t.blocks ++
        [{ rxStart := call.rxStart.toNat
           rxSize := call.rxSize
           baseGuestPc := call.baseGuestPc
           mappings := mappings }] := by
  have hcapacity := h.capacity_lt
  have hsize : t.arenaOffset + (mappings.length * jitMapSize + jitMetadataSize) < 2 ^ 31 := by omega
  have hmappings : jitMapSize * mappings.length < 2 ^ 31 := by
    rw [Nat.mul_comm]
    omega
  have hkept : ∀ i < t.entryCount, _ := fun i hi => h.kept (u := t.record call mappings) hi rfl
    (record_entry_of_lt call mappings hi) fun p hp => record_before hsize hp
  obtain ⟨hpointer, -, hblock⟩ := record_reads (t := t) hcount hmappings
  obtain ⟨hstart, hfinish⟩ := record_finish hcount hsize
  have hfinishKept : ∀ i < t.entryCount, (t.record call mappings).finish i = t.finish i := by
    intro i hi
    obtain ⟨hstart, hmappingCount, -, -⟩ := hkept i hi
    rw [finish, finish, hstart, hmappingCount]
  constructor
  · constructor
    case capacity_lt => exact hcapacity
    case count_le => exact hfree
    case offset_le => exact hroom
    case ordered =>
      intro i j hij hj
      have hi : i < t.entryCount := Nat.lt_of_lt_of_le hij (Nat.le_of_lt_succ hj)
      rw [hfinishKept i hi]
      by_cases hlast : j = t.entryCount
      · rw [hlast, hstart]
        exact h.inside i hi
      · have hj' : j < t.entryCount := Nat.lt_of_le_of_ne (Nat.le_of_lt_succ hj) hlast
        rw [(hkept j hj').1]
        exact h.ordered i j hij hj'
    case inside =>
      intro i hi
      by_cases hlast : i = t.entryCount
      · rw [hlast, hfinish]
      · have hi' : i < t.entryCount := Nat.lt_of_le_of_ne (Nat.le_of_lt_succ hi) hlast
        rw [hfinishKept i hi']
        exact Nat.le_trans (h.inside i hi') (Nat.le_add_right _ _)
    case pointer =>
      intro i hi
      by_cases hlast : i = t.entryCount
      · rw [hlast, record_entry]
        exact hpointer
      · have hi' : i < t.entryCount := Nat.lt_of_le_of_ne (Nat.le_of_lt_succ hi) hlast
        rw [(hkept i hi').2.2.2, record_entry_of_lt call mappings hi']
        exact h.pointer i hi'
  · have holder : (List.range t.entryCount).map (t.record call mappings).block = t.blocks :=
      List.map_congr_left fun i hi => (hkept i (List.mem_range.mp hi)).2.2.1
    have hnumber : (t.record call mappings).entryCount = t.entryCount + 1 := rfl
    rw [blocks, hnumber, List.range_succ, List.map_append, holder, List.map_singleton, hblock]

/-! ### Calls -/

/-- What `bal_jit_debug_add_block` asks of a block that it records. -/
structure Accepts (t : JitDebugTable) (call : JitDebugCall)
    (mapping : Nat → BitVec 32 × BitVec 32) : Prop where
  status : t.status = .success
  rxStart : call.rxStart ≠ 0
  mapping_eq : call.mapping = some mapping
  counted : call.instructionCount ≠ 0
  free : t.entryCount < t.entryCapacity
  room : t.arenaOffset + (call.instructionCount.toNat * jitMapSize + jitMetadataSize) ≤
    t.arenaCapacity

/-- A call records its block or changes the status alone. -/
theorem addBlock_cases (t : JitDebugTable) (call : JitDebugCall) :
    (∃ e, e ≠ .success ∧ t.addBlock call = { t with status := e }) ∨
      ∃ mapping, t.Accepts call mapping ∧
        t.addBlock call = t.record call (call.entry mapping).mappings := by
  unfold addBlock
  split
  · next hstatus => exact .inl ⟨t.status, hstatus, rfl⟩
  · next hstatus =>
      simp only
      split
      · exact .inl ⟨.invalidArgument, nofun, rfl⟩
      · next hrx =>
          split
          · exact .inl ⟨.invalidArgument, nofun, rfl⟩
          · next mapping hmapping =>
              split
              · exact .inl ⟨.invalidArgument, nofun, rfl⟩
              · next hcount =>
                  split
                  · exact .inl ⟨.bufferOverflow, nofun, rfl⟩
                  · next hfree =>
                      split
                      · exact .inl ⟨.structCorrupted, nofun, rfl⟩
                      · split
                        · exact .inl ⟨.bufferOverflow, nofun, rfl⟩
                        · next hroom =>
                            rw [List.length_map, List.length_range] at hroom
                            exact .inr ⟨mapping, ⟨not_not.mp hstatus, hrx, hmapping, hcount,
                              Nat.lt_of_not_le hfree, Nat.le_of_not_lt hroom⟩, rfl⟩

theorem Stored.withStatus (h : t.Stored) (e : BalError) : { t with status := e }.Stored :=
  ⟨h.capacity_lt, h.count_le, h.offset_le, h.ordered, h.inside, h.pointer⟩

theorem Stored.addBlock (h : t.Stored) (call : JitDebugCall) :
    (t.addBlock call).Stored ∧
      ((t.addBlock call).status ≠ .success →
        t.addBlock call = { t with status := (t.addBlock call).status }) ∧
      ((t.addBlock call).status = .success →
        ∃ mapping, t.Accepts call mapping ∧
          (t.addBlock call).blocks = t.blocks ++ [call.entry mapping]) := by
  obtain ⟨e, herror, heq⟩ | ⟨mapping, haccepts, heq⟩ := t.addBlock_cases call
  · rw [heq]
    exact ⟨h.withStatus e, fun _ => rfl, fun hsuccess => absurd hsuccess herror⟩
  · have hcount : (call.entry mapping).mappings.length = call.instructionCount.toNat := by
      rw [JitDebugCall.entry, List.length_map, List.length_range]
    obtain ⟨hstored, hblocks⟩ := h.record hcount haccepts.free (by
      rw [hcount]
      exact haccepts.room)
    rw [heq]
    exact ⟨hstored, fun hfailed => absurd rfl hfailed, fun _ => ⟨mapping, haccepts, hblocks⟩⟩

theorem Stored.blocks_prefix (h : t.Stored) (call : JitDebugCall) :
    t.blocks <+: (t.addBlock call).blocks := by
  obtain ⟨-, hfails, hrecords⟩ := h.addBlock call
  by_cases hstatus : (t.addBlock call).status = .success
  · obtain ⟨mapping, -, hblocks⟩ := hrecords hstatus
    exact ⟨_, hblocks.symm⟩
  · rw [hfails hstatus]
    exact List.prefix_rfl

theorem addBlocks_append (t : JitDebugTable) (calls calls' : List JitDebugCall) :
    t.addBlocks (calls ++ calls') = (t.addBlocks calls).addBlocks calls' := List.foldl_append

/-- The invariant along a sequence of calls, in which the recorded blocks only grow. -/
theorem Stored.addBlocks (h : t.Stored) (calls : List JitDebugCall) :
    (t.addBlocks calls).Stored ∧ t.blocks <+: (t.addBlocks calls).blocks := by
  induction calls generalizing t with
  | nil => exact ⟨h, List.prefix_rfl⟩
  | cons call calls ih =>
      obtain ⟨hstored, hgrows⟩ := ih (h.addBlock call).1
      exact ⟨hstored, (h.blocks_prefix call).trans hgrows⟩

theorem Stored.disjoint (h : t.Stored) {i j : Nat} (hi : i < t.entryCount) (hj : j < t.entryCount)
    (hne : i ≠ j) :
    Disjoint (Set.Ico (t.start i) (t.finish i)) (Set.Ico (t.start j) (t.finish j)) := by
  rw [Set.Ico_disjoint_Ico]
  rcases Nat.lt_or_gt_of_ne hne with hlt | hlt
  · exact (min_le_left _ _).trans ((h.ordered i j hlt hj).trans (le_max_right _ _))
  · exact (min_le_right _ _).trans ((h.ordered j i hlt hi).trans (le_max_left _ _))

end JitDebugTable

/-! ### Sequences of calls -/

open JitDebugTable in
/-- **Integrity of the arena.** After any calls on a fresh context both capacities are respected and
the records are disjoint and inside the arena. A call that succeeds records the block it was given,
behind the ones from before, and all of them are read back at the end; one that fails changes the
status alone. -/
theorem debugArena_integrity (memory : Memory) (entries : Nat → JitEntry) (metadataArena : Address)
    (calls : List JitDebugCall) :
    let fresh := init memory entries metadataArena
    let t := fresh.addBlocks calls
    t.entryCount ≤ t.entryCapacity ∧ t.arenaOffset ≤ t.arenaCapacity ∧
      (∀ i < t.entryCount, t.finish i ≤ t.arenaCapacity) ∧
      (∀ i < t.entryCount, ∀ j < t.entryCount, i ≠ j →
        Disjoint (Set.Ico (t.start i) (t.finish i)) (Set.Ico (t.start j) (t.finish j))) ∧
      ∀ before call after, calls = before ++ call :: after →
        let s := fresh.addBlocks before
        ((s.addBlock call).status ≠ .success →
          s.addBlock call = { s with status := (s.addBlock call).status }) ∧
        ((s.addBlock call).status = .success →
          ∃ mapping, call.mapping = some mapping ∧
            (s.addBlock call).blocks = s.blocks ++ [call.entry mapping] ∧
            (s.addBlock call).blocks <+: t.blocks) := by
  intro fresh t
  have hfresh : fresh.Stored := init_stored memory entries metadataArena
  have ht : t.Stored := (hfresh.addBlocks calls).1
  refine ⟨ht.count_le, ht.offset_le, fun i hi => (ht.inside i hi).trans ht.offset_le,
    fun i hi j hj hne => ht.disjoint hi hj hne, ?_⟩
  intro before call after heq s
  have hs : s.Stored := (hfresh.addBlocks before).1
  obtain ⟨hstored, hfails, hrecords⟩ := hs.addBlock call
  refine ⟨hfails, fun hsuccess => ?_⟩
  obtain ⟨mapping, haccepts, hblocks⟩ := hrecords hsuccess
  have hlater : t = (s.addBlock call).addBlocks after := by
    change fresh.addBlocks calls = _
    rw [heq, addBlocks_append]
    rfl
  refine ⟨mapping, haccepts.mapping_eq, hblocks, ?_⟩
  rw [hlater]
  exact (hstored.addBlocks after).2

/-- A block of two instructions, one of one, and a call without an address. -/
def threeCalls : List JitDebugCall :=
  [⟨0x10000, 16, 0x400000, some fun k => (8 * k, 4 * k), 2⟩, ⟨0x10010, 8, 0x400008, some fun _ => 0, 1⟩,
    ⟨0, 8, 0x400010, some fun _ => 0, 1⟩]

/-- The first two are recorded apart from each other, the third is refused and changes the status alone. -/
theorem debugArena_integrity_three :
    let fresh := JitDebugTable.init (fun _ => 0) (fun _ => ⟨0, 0, 0⟩) 0x1000
    let s := fresh.addBlocks (threeCalls.take 2)
    let t := fresh.addBlocks threeCalls
    t.entryCount = 2 ∧ t.status = .invalidArgument ∧ t = { s with status := .invalidArgument } ∧
      Disjoint (Set.Ico (t.start 0) (t.finish 0)) (Set.Ico (t.start 1) (t.finish 1)) := by
  intro fresh s t
  obtain ⟨-, -, -, hdisjoint, hcalls⟩ :=
    debugArena_integrity (fun _ => 0) (fun _ => ⟨0, 0, 0⟩) 0x1000 threeCalls
  have hcount : t.entryCount = 2 := by decide
  have hstatus : t.status = .invalidArgument := by decide
  have hrefused := (hcalls (threeCalls.take 2) ⟨0, 8, 0x400010, some fun _ => 0, 1⟩ [] rfl).1 (by decide)
  refine ⟨hcount, hstatus, ?_, hdisjoint 0 ?_ 1 ?_ Nat.zero_ne_one⟩
  · rw [← hstatus]
    exact hrefused
  · exact hcount.symm ▸ Nat.two_pos
  · exact hcount.symm ▸ Nat.one_lt_two

/-! ### The table without its memory -/

namespace JitDebugTable

variable {t : JitDebugTable} {call : JitDebugCall}

/-- The table as a list of blocks. -/
def context (t : JitDebugTable) (jitBufferStart jitBufferEnd : Nat) : JitDebugContext where
  entries := t.blocks
  entryCapacity := t.entryCapacity
  arenaOffset := t.arenaOffset
  arenaCapacity := t.arenaCapacity
  jitBufferStart := jitBufferStart
  jitBufferEnd := jitBufferEnd
  status := t.status

/-- **Refinement.** For pointers that are not `NULL`, a call on the table in memory is one on the list
of blocks. -/
theorem Stored.addBlock_context (h : t.Stored) (halive : t.alive = true)
    (hrx : call.rxStart ≠ 0) {mapping : Nat → BitVec 32 × BitVec 32}
    (hmapping : call.mapping = some mapping) (jitBufferStart jitBufferEnd : Nat) :
    (t.addBlock call).context jitBufferStart jitBufferEnd =
      (t.context jitBufferStart jitBufferEnd).addBlock (call.entry mapping) := by
  have hlength : (t.context jitBufferStart jitBufferEnd).entries.length = t.entryCount := by
    simp [context, blocks]
  have hcount : (call.entry mapping).mappings.length = call.instructionCount.toNat := by
    rw [JitDebugCall.entry, List.length_map, List.length_range]
  have hzero : call.instructionCount.toNat = 0 ↔ call.instructionCount = 0 := by
    rw [← BitVec.toNat_inj]
    rfl
  rw [JitDebugTable.addBlock, JitDebugContext.addBlock, hlength, hcount]
  by_cases hstatus : t.status = .success
  · by_cases hnone : call.instructionCount = 0
    · simp only [context, hstatus, hrx, hmapping, hnone, ne_eq, not_true_eq_false, if_false, if_true]
      rfl
    · have hnone' : call.instructionCount.toNat ≠ 0 := hzero.not.mpr hnone
      by_cases hfree : t.entryCapacity ≤ t.entryCount
      · simp only [context, hstatus, hrx, hmapping, hnone, hnone', hfree, ne_eq, not_true_eq_false,
          if_false, if_true]
        rfl
      · by_cases hroom : t.arenaCapacity <
            t.arenaOffset + (call.instructionCount.toNat * jitMapSize + jitMetadataSize)
        · have hroom' : t.arenaOffset + (call.instructionCount.toNat * 8 + 32) > t.arenaCapacity :=
            hroom
          simp only [context, hstatus, hrx, hmapping, hnone, hnone', hfree, halive, hroom, hroom',
            ne_eq, not_true_eq_false, if_false, if_true, Bool.not_true, Bool.false_eq_true,
            List.length_map, List.length_range]
          rfl
        · have hroom' : ¬t.arenaOffset + (call.instructionCount.toNat * 8 + 32) > t.arenaCapacity :=
            hroom
          have hblocks := (h.record hcount (Nat.lt_of_not_le hfree)
            (by rw [hcount]; exact Nat.le_of_not_lt hroom)).2
          simp only [context, hstatus, hrx, hmapping, hnone, hnone', hfree, halive, hroom, hroom',
            ne_eq, not_true_eq_false, if_false, Bool.not_true, Bool.false_eq_true, List.length_map,
            List.length_range]
          rw [JitDebugContext.mk.injEq]
          refine ⟨hblocks, rfl, ?_, rfl, rfl, rfl, rfl⟩
          change t.arenaOffset + (((List.range _).map mapping).length * 8 + 32) = _
          rw [List.length_map, List.length_range]
  · simp only [context, hstatus, ne_eq, not_false_eq_true, if_true]

end JitDebugTable

end Ballistic
