import Mathlib.Data.List.Induction
import Ballistic.BlockCache

/-!
# What the block cache holds

Ways are filled in order and never emptied, and a way that was never written has address zero, which
is an address that blocks may have. `BlockCache.Wf` is the invariant that makes the search by address
alone and the search by address and code agree. A set that is full always gives up the same way,
because the bits that choose it are bits of the set index.
-/

namespace Ballistic

open Machine

variable {Code : Type}

namespace BlockCache

/-- The cache after the insertions of `history`, oldest first. -/
def insertAll (history : List (Address × Code)) : BlockCache Code :=
  history.foldl (fun cache block => cache.insert block.1 block.2) empty

theorem insertAll_concat (history : List (Address × Code)) (pc : Address) (code : Code) :
    insertAll (history ++ [(pc, code)]) = (insertAll history).insert pc code := by
  rw [insertAll, List.foldl_append]
  rfl

/-- The code of the last insertion for `pc`. -/
def lastInserted (history : List (Address × Code)) (pc : Address) : Option Code :=
  (history.reverse.find? fun block => decide (block.1 = pc)).map Prod.snd

theorem lastInserted_concat (history : List (Address × Code)) (pc pc' : Address) (code : Code) :
    lastInserted (history ++ [(pc, code)]) pc' =
      if pc = pc' then some code else lastInserted history pc' := by
  rw [lastInserted, List.reverse_append, List.reverse_singleton, List.singleton_append,
    List.find?_cons]
  by_cases hsame : pc = pc'
  · simp [hsame]
  · simp [hsame, lastInserted]

/-- The way that gives way in a full set. -/
def victimWay (pc : Address) : Nat := (pc >>> 4).toNat &&& (blockCacheWays - 1)

theorem setIndex_eq (pc : Address) : setIndex pc = pc.toNat / 4 % 4096 := by
  have hmask : blockCacheMask = 2 ^ 12 - 1 := rfl
  rw [setIndex, hmask, Nat.and_two_pow_sub_one_eq_mod, BitVec.toNat_setWidth, BitVec.toNat_ushiftRight,
    Nat.shiftRight_eq_div_pow]
  omega

theorem victimWay_eq (pc : Address) : victimWay pc = pc.toNat / 16 % 4 := by
  have hmask : blockCacheWays - 1 = 2 ^ 2 - 1 := rfl
  rw [victimWay, hmask, Nat.and_two_pow_sub_one_eq_mod, BitVec.toNat_ushiftRight,
    Nat.shiftRight_eq_div_pow]

/-- The bits that choose the victim are bits of the set index. -/
theorem victimWay_eq_setIndex (pc : Address) : victimWay pc = setIndex pc / 4 % 4 := by
  rw [victimWay_eq, setIndex_eq]
  omega

theorem victimWay_lt (pc : Address) : victimWay pc < blockCacheWays := by
  rw [victimWay_eq, blockCacheWays]
  omega

/-! ### The invariant -/

/-- The way holds a block. -/
def Occupied (cache : BlockCache Code) (set way : Nat) : Prop := (cache set way).hostCode ≠ none

structure Wf (cache : BlockCache Code) : Prop where
  distinct : ∀ {set i j}, i < blockCacheWays → j < blockCacheWays → cache.Occupied set i →
    cache.Occupied set j → (cache set i).guestAddress = (cache set j).guestAddress → i = j
  filled : ∀ {set i j}, i ≤ j → j < blockCacheWays → cache.Occupied set j → cache.Occupied set i
  vacant : ∀ {set i}, ¬cache.Occupied set i → (cache set i).guestAddress = 0

theorem empty_wf : (empty : BlockCache Code).Wf where
  distinct := fun _ _ hi => absurd rfl hi
  filled := fun _ _ hj => absurd rfl hj
  vacant := fun _ => rfl

/-- No way of the set of `pc` holds a block for `pc`. -/
def Absent (cache : BlockCache Code) (pc : Address) : Prop :=
  ∀ i < blockCacheWays, cache.Occupied (setIndex pc) i → (cache (setIndex pc) i).guestAddress ≠ pc

/-- **Where an insertion goes**: to the block of that address, to the first way without a block, or
to the victim of a full set. -/
theorem Wf.insertWay_cases {cache : BlockCache Code} (h : cache.Wf) (pc : Address) :
    cache.insertWay pc < blockCacheWays ∧
      ((cache.Occupied (setIndex pc) (cache.insertWay pc) ∧
          (cache (setIndex pc) (cache.insertWay pc)).guestAddress = pc) ∨
        (cache.Absent pc ∧ ¬cache.Occupied (setIndex pc) (cache.insertWay pc) ∧
          ∀ i < cache.insertWay pc, cache.Occupied (setIndex pc) i) ∨
        (cache.Absent pc ∧ cache.insertWay pc = victimWay pc ∧
          ∀ i < blockCacheWays, cache.Occupied (setIndex pc) i)) := by
  unfold insertWay
  simp only
  split
  · next i hfind =>
      obtain ⟨haddress, hlt, hbefore⟩ := List.find?_range_eq_some.mp hfind
      have haddress : (cache (setIndex pc) i).guestAddress = pc := by simpa using haddress
      have hbefore : ∀ j < i, (cache (setIndex pc) j).guestAddress ≠ pc := fun j hj =>
        by simpa using hbefore j hj
      refine ⟨List.mem_range.mp hlt, ?_⟩
      by_cases hoccupied : cache.Occupied (setIndex pc) i
      · exact .inl ⟨hoccupied, haddress⟩
      · -- A way without a block matches only the address zero, and no block can lie behind it.
        have hzero := h.vacant hoccupied
        refine .inr (.inl ⟨fun j hj hoccupied' heq => ?_, hoccupied, fun j hj => ?_⟩)
        · rcases Nat.lt_or_ge j i with hji | hij
          · exact hbefore j hji heq
          · exact hoccupied (h.filled hij hj hoccupied')
        · by_contra hvacant
          refine hbefore j hj ?_
          rw [h.vacant hvacant, ← hzero, haddress]
  · next hnone =>
      have habsent : cache.Absent pc := by
        intro i hi _ heq
        have hno := List.find?_eq_none.mp hnone i (List.mem_range.mpr hi)
        exact hno (by simpa using heq)
      split
      · next i hfind =>
          obtain ⟨hvacant, hlt, hbefore⟩ := List.find?_range_eq_some.mp hfind
          refine ⟨List.mem_range.mp hlt, .inr (.inl ⟨habsent, ?_, fun j hj => ?_⟩)⟩
          · simpa [Occupied] using hvacant
          · have hblock := hbefore j hj
            simpa [Occupied, Option.isSome_iff_ne_none] using hblock
      · next hfull =>
          refine ⟨victimWay_lt pc, .inr (.inr ⟨habsent, rfl, fun i hi => ?_⟩)⟩
          have hno := List.find?_eq_none.mp hfull i (List.mem_range.mpr hi)
          simpa [Occupied, Option.isNone_iff_eq_none] using hno

/-! ### Lookups -/

theorem Wf.lookup_eq_some_iff {cache : BlockCache Code} (h : cache.Wf) {pc : Address} {code : Code} :
    cache.lookup pc = some code ↔
      ∃ i < blockCacheWays, cache (setIndex pc) i = ⟨pc, some code⟩ := by
  constructor
  · intro hlookup
    obtain ⟨i, hi, hway⟩ := List.exists_of_findSome?_eq_some hlookup
    refine ⟨i, List.mem_range.mp hi, ?_⟩
    simp only at hway
    split at hway
    · next haddress =>
        generalize cache (setIndex pc) i = way at haddress hway ⊢
        cases way
        cases haddress
        cases hway
        rfl
    · cases hway
  · rintro ⟨i, hi, hway⟩
    have hmatch : ∀ j < blockCacheWays, (cache (setIndex pc) j).guestAddress = pc →
        cache.Occupied (setIndex pc) j → j = i := by
      intro j hj haddress hoccupied
      refine h.distinct hj hi hoccupied ?_ ?_
      · rw [Occupied, hway]
        exact nofun
      · rw [haddress, hway]
    rw [lookup, List.findSome?_eq_some_iff]
    obtain ⟨before, after, hsplit⟩ := List.append_of_mem (List.mem_range.mpr hi)
    refine ⟨before, i, after, hsplit, by simp [hway], fun j hj => ?_⟩
    have hmem : j ∈ List.range blockCacheWays := by simp [hsplit, hj]
    have hne : j ≠ i := by
      rintro rfl
      have hnodup := List.nodup_range (n := blockCacheWays)
      rw [hsplit, List.nodup_append] at hnodup
      exact hnodup.2.2 j hj j (by simp) rfl
    by_contra hsome
    simp only at hsome
    split at hsome
    · next haddress => exact hne (hmatch j (List.mem_range.mp hmem) haddress hsome)
    · exact hsome rfl

theorem Wf.lookup_eq_none_iff {cache : BlockCache Code} (h : cache.Wf) {pc : Address} :
    cache.lookup pc = none ↔ cache.Absent pc := by
  constructor
  · intro hnone i hi hoccupied haddress
    obtain ⟨code, hcode⟩ := Option.ne_none_iff_exists'.mp hoccupied
    have hway : cache (setIndex pc) i = ⟨pc, some code⟩ := by
      generalize cache (setIndex pc) i = way at haddress hcode ⊢
      cases haddress
      cases way
      cases hcode
      rfl
    have hsome := h.lookup_eq_some_iff.mpr ⟨i, hi, hway⟩
    rw [hnone] at hsome
    cases hsome
  · intro habsent
    by_contra hsome
    obtain ⟨code, hcode⟩ := Option.ne_none_iff_exists'.mp hsome
    obtain ⟨i, hi, hway⟩ := h.lookup_eq_some_iff.mp hcode
    exact habsent i hi (by rw [Occupied, hway]; exact nofun) (by rw [hway])

/-! ### Insertions -/

theorem insert_self (cache : BlockCache Code) (pc : Address) (code : Code) :
    cache.insert pc code (setIndex pc) (cache.insertWay pc) = ⟨pc, some code⟩ :=
  if_pos ⟨rfl, rfl⟩

theorem insert_other (cache : BlockCache Code) (pc : Address) (code : Code) {set way : Nat}
    (h : ¬(set = setIndex pc ∧ way = cache.insertWay pc)) :
    cache.insert pc code set way = cache set way := if_neg h

theorem Wf.insert {cache : BlockCache Code} (h : cache.Wf) (pc : Address) (code : Code) :
    (cache.insert pc code).Wf := by
  obtain ⟨hlt, hcases⟩ := h.insertWay_cases pc
  have hself := cache.insert_self pc code
  have hkept : ∀ {set way}, cache.Occupied set way → (cache.insert pc code).Occupied set way := by
    intro set way hoccupied
    by_cases hway : set = setIndex pc ∧ way = cache.insertWay pc
    · rw [Occupied, hway.1, hway.2, hself]
      exact nofun
    · rwa [Occupied, insert_other cache pc code hway]
  constructor
  case distinct =>
    -- An address that the other ways hold is not the one that is written.
    have hnew : ∀ {i}, i < blockCacheWays → i ≠ cache.insertWay pc →
        cache.Occupied (setIndex pc) i → (cache (setIndex pc) i).guestAddress ≠ pc := by
      intro i hi hne hoccupied haddress
      rcases hcases with ⟨hheld, hsame⟩ | ⟨habsent, -⟩ | ⟨habsent, -⟩
      · exact hne (h.distinct hi hlt hoccupied hheld (haddress.trans hsame.symm))
      · exact habsent i hi hoccupied haddress
      · exact habsent i hi hoccupied haddress
    intro set i j hi hj hoccupiedi hoccupiedj hsame
    by_cases hwi : set = setIndex pc ∧ i = cache.insertWay pc
    · by_cases hwj : set = setIndex pc ∧ j = cache.insertWay pc
      · rw [hwi.2, hwj.2]
      · rw [Occupied, insert_other cache pc code hwj] at hoccupiedj
        rw [insert_other cache pc code hwj, hwi.1, hwi.2, hself] at hsame
        rw [hwi.1] at hoccupiedj
        exact absurd hsame.symm (hnew hj (fun heq => hwj ⟨hwi.1, heq⟩) hoccupiedj)
    · rw [Occupied, insert_other cache pc code hwi] at hoccupiedi
      rw [insert_other cache pc code hwi] at hsame
      by_cases hwj : set = setIndex pc ∧ j = cache.insertWay pc
      · rw [hwj.1, hwj.2, hself] at hsame
        rw [hwj.1] at hoccupiedi
        exact absurd hsame (hnew hi (fun heq => hwi ⟨hwj.1, heq⟩) hoccupiedi)
      · rw [Occupied, insert_other cache pc code hwj] at hoccupiedj
        rw [insert_other cache pc code hwj] at hsame
        exact h.distinct hi hj hoccupiedi hoccupiedj hsame
  case filled =>
    intro set i j hij hj hoccupied
    by_cases hway : set = setIndex pc ∧ j = cache.insertWay pc
    · rcases Nat.lt_or_ge i j with hlt' | hge
      · refine hkept ?_
        rw [hway.1]
        rcases hcases with ⟨hheld, -⟩ | ⟨-, -, hbefore⟩ | ⟨-, -, hall⟩
        · exact h.filled hij hj (hway.2 ▸ hheld)
        · exact hbefore i (hway.2 ▸ hlt')
        · exact hall i (by omega)
      · rwa [show i = j by omega]
    · rw [Occupied, insert_other cache pc code hway] at hoccupied
      exact hkept (h.filled hij hj hoccupied)
  case vacant =>
    intro set i hvacant
    have hway : ¬(set = setIndex pc ∧ i = cache.insertWay pc) := by
      rintro ⟨rfl, rfl⟩
      rw [Occupied, hself] at hvacant
      exact hvacant nofun
    rw [Occupied, insert_other cache pc code hway] at hvacant
    rw [insert_other cache pc code hway]
    exact h.vacant hvacant

theorem insertAll_wf (history : List (Address × Code)) : (insertAll history).Wf := by
  induction history using List.reverseRecOn with
  | nil => exact empty_wf
  | append_singleton history block ih =>
      rw [insertAll_concat]
      exact ih.insert block.1 block.2

theorem Wf.lookup_insert_self {cache : BlockCache Code} (h : cache.Wf) (pc : Address) (code : Code) :
    (cache.insert pc code).lookup pc = some code :=
  (h.insert pc code).lookup_eq_some_iff.mpr
    ⟨_, (h.insertWay_cases pc).1, cache.insert_self pc code⟩

/-- A lookup for another address is only changed if it is the one whose way is written. -/
theorem Wf.lookup_insert_other {cache : BlockCache Code} (h : cache.Wf) {pc pc' : Address}
    (code : Code) (hne : pc' ≠ pc)
    (hkept : ¬(setIndex pc' = setIndex pc ∧ cache.Occupied (setIndex pc) (cache.insertWay pc) ∧
      (cache (setIndex pc) (cache.insertWay pc)).guestAddress = pc')) :
    (cache.insert pc code).lookup pc' = cache.lookup pc' := by
  have hiff : ∀ code', (cache.insert pc code).lookup pc' = some code' ↔
      cache.lookup pc' = some code' := by
    intro code'
    rw [(h.insert pc code).lookup_eq_some_iff, h.lookup_eq_some_iff]
    refine exists_congr fun i => and_congr_right fun _ => ?_
    by_cases hway : setIndex pc' = setIndex pc ∧ i = cache.insertWay pc
    · rw [hway.1, hway.2, insert_self]
      refine iff_of_false (fun heq => hne ?_) (fun heq => hkept ⟨hway.1, ?_, ?_⟩)
      · exact (congrArg BlockCacheEntry.guestAddress heq).symm
      · rw [Occupied, heq]
        exact nofun
      · rw [heq]
    · rw [insert_other cache pc code hway]
  cases hlookup : cache.lookup pc' with
  | some code' => exact (hiff code').mpr hlookup
  | none =>
      by_contra hsome
      obtain ⟨code', hcode⟩ := Option.ne_none_iff_exists'.mp hsome
      rw [(hiff code').mp hcode] at hlookup
      cases hlookup

/-- The address whose way is written has no block any more. -/
theorem Wf.lookup_insert_displaced {cache : BlockCache Code} (h : cache.Wf) {pc q : Address}
    (code : Code) (hne : q ≠ pc) (hset : setIndex q = setIndex pc)
    (hoccupied : cache.Occupied (setIndex pc) (cache.insertWay pc))
    (hq : (cache (setIndex pc) (cache.insertWay pc)).guestAddress = q) :
    (cache.insert pc code).lookup q = none := by
  rw [(h.insert pc code).lookup_eq_none_iff]
  intro i hi hoccupied' haddress
  rw [hset] at hoccupied' haddress
  by_cases hway : i = cache.insertWay pc
  · rw [hway, insert_self] at haddress
    exact hne haddress.symm
  · have hother : ¬(setIndex pc = setIndex pc ∧ i = cache.insertWay pc) := fun heq => hway heq.2
    rw [Occupied, insert_other cache pc code hother] at hoccupied'
    rw [insert_other cache pc code hother] at haddress
    exact hway (h.distinct hi (h.insertWay_cases pc).1 hoccupied' hoccupied (haddress.trans hq.symm))

theorem insertAll_lookup {history : List (Address × Code)} {pc : Address} {code : Code}
    (h : (insertAll history).lookup pc = some code) : lastInserted history pc = some code := by
  induction history using List.reverseRecOn with
  | nil =>
      obtain ⟨i, -, hway⟩ := empty_wf.lookup_eq_some_iff.mp h
      cases hway
  | append_singleton history block ih =>
      obtain ⟨pc', code'⟩ := block
      have hwf := insertAll_wf history
      rw [insertAll_concat] at h
      rw [lastInserted_concat]
      by_cases hsame : pc' = pc
      · subst hsame
        rw [hwf.lookup_insert_self] at h
        rw [if_pos rfl]
        exact h
      · rw [if_neg hsame]
        refine ih ?_
        by_contra hchanged
        by_cases hkept : setIndex pc = setIndex pc' ∧
            (insertAll history).Occupied (setIndex pc') ((insertAll history).insertWay pc') ∧
            (insertAll history (setIndex pc') ((insertAll history).insertWay pc')).guestAddress = pc
        · rw [hwf.lookup_insert_displaced code' (Ne.symm hsame) hkept.1 hkept.2.1 hkept.2.2] at h
          cases h
        · rw [hwf.lookup_insert_other code' (Ne.symm hsame) hkept] at h
          exact hchanged h

/-! ### The map laws -/

/-- **The cache is a map that forgets.** An insertion makes its own address resident and can lose at
most one other, in a full set; what is found was inserted last for that address, and no set holds an
address twice. -/
theorem insertAll_map_laws (history : List (Address × Code)) (pc : Address) (code : Code) :
    ((insertAll history).insert pc code).lookup pc = some code ∧
      (∃ displaced : Option Address,
        (∀ q ∈ displaced, q ≠ pc ∧ setIndex q = setIndex pc ∧
          ((insertAll history).insert pc code).lookup q = none ∧
          ∀ i < blockCacheWays, (insertAll history).Occupied (setIndex pc) i ∧
            (insertAll history (setIndex pc) i).guestAddress ≠ pc) ∧
        ∀ pc', pc' ≠ pc → pc' ∉ displaced →
          ((insertAll history).insert pc code).lookup pc' = (insertAll history).lookup pc') ∧
      (∀ pc' code', (insertAll history).lookup pc' = some code' →
        lastInserted history pc' = some code') ∧
      ∀ set, ∀ i < blockCacheWays, ∀ j < blockCacheWays, (insertAll history).Occupied set i →
        (insertAll history).Occupied set j →
        (insertAll history set i).guestAddress = (insertAll history set j).guestAddress → i = j := by
  have hwf := insertAll_wf history
  generalize hcache : insertAll history = cache at hwf
  refine ⟨hwf.lookup_insert_self pc code, ?_, fun pc' code' hlookup => ?_,
    fun set i hi j hj => hwf.distinct hi hj⟩
  · obtain ⟨-, hcases⟩ := hwf.insertWay_cases pc
    rcases hcases with ⟨-, hsame⟩ | ⟨-, hvacant, -⟩ | ⟨habsent, -, hall⟩
    · refine ⟨none, nofun, fun pc' hne _ => hwf.lookup_insert_other code hne ?_⟩
      exact fun hkept => hne (hkept.2.2.symm.trans hsame)
    · refine ⟨none, nofun, fun pc' hne _ => hwf.lookup_insert_other code hne ?_⟩
      exact fun hkept => hvacant hkept.2.1
    · -- The set is full: the block of the written way goes, if it was one of this set at all.
      have hway := hall _ (hwf.insertWay_cases pc).1
      have hother := habsent _ (hwf.insertWay_cases pc).1 hway
      set q := (cache (setIndex pc) (cache.insertWay pc)).guestAddress with hq
      by_cases hset : setIndex q = setIndex pc
      · refine ⟨some q, ?_, fun pc' hne hkept => hwf.lookup_insert_other code hne ?_⟩
        · rintro _ ⟨⟩
          exact ⟨hother, hset, hwf.lookup_insert_displaced code hother hset hway hq.symm,
            fun i hi => ⟨hall i hi, habsent i hi (hall i hi)⟩⟩
        · exact fun hlost => hkept (congrArg some hlost.2.2)
      · refine ⟨none, nofun, fun pc' hne _ => hwf.lookup_insert_other code hne ?_⟩
        rintro ⟨hset', -, rfl⟩
        exact hset hset'
  · subst hcache
    exact insertAll_lookup hlookup

/-! ### Two insertions in a row -/

/-- The set of `p` and `q` has other blocks in every way but the victim. -/
def Crowded (cache : BlockCache Code) (p q : Address) : Prop :=
  setIndex p = setIndex q ∧ ∀ i < blockCacheWays, i ≠ victimWay p →
    cache.Occupied (setIndex p) i ∧ (cache (setIndex p) i).guestAddress ≠ p ∧
      (cache (setIndex p) i).guestAddress ≠ q

theorem victimWay_congr {p q : Address} (h : setIndex p = setIndex q) : victimWay p = victimWay q := by
  rw [victimWay_eq_setIndex, victimWay_eq_setIndex, h]

/-- In a crowded set only the victim is left to be written. -/
theorem Crowded.insertWay {cache : BlockCache Code} (h : cache.Wf) {p q : Address}
    (hcrowded : cache.Crowded p q) : cache.insertWay p = victimWay p := by
  by_contra hother
  obtain ⟨hlt, hcases⟩ := h.insertWay_cases p
  obtain ⟨hoccupied, hp, -⟩ := hcrowded.2 _ hlt hother
  rcases hcases with ⟨-, hsame⟩ | ⟨-, hvacant, -⟩ | ⟨-, hvictim, -⟩
  · exact hp hsame
  · exact hvacant hoccupied
  · exact hother hvictim

theorem Crowded.insert {cache : BlockCache Code} (h : cache.Wf) {p q : Address}
    (hcrowded : cache.Crowded p q) (code : Code) : (cache.insert p code).Crowded q p := by
  refine ⟨hcrowded.1.symm, fun i hi hi' => ?_⟩
  rw [← victimWay_congr hcrowded.1] at hi'
  have hkept : ¬(setIndex p = setIndex p ∧ i = cache.insertWay p) := fun heq =>
    hi' (heq.2.trans (hcrowded.insertWay h))
  rw [← hcrowded.1, Occupied, insert_other cache p code hkept]
  obtain ⟨hoccupied, hp, hq⟩ := hcrowded.2 i hi hi'
  exact ⟨hoccupied, hq, hp⟩

/-- The second of two insertions writes over the first exactly in a crowded set. -/
theorem Wf.insertWay_eq_iff {cache : BlockCache Code} (h : cache.Wf) {p q : Address} (hne : p ≠ q)
    (code : Code) :
    (setIndex q = setIndex p ∧ (cache.insert p code).insertWay q = cache.insertWay p) ↔
      cache.Crowded p q := by
  have hwf := h.insert p code
  constructor
  · rintro ⟨hset, hway⟩
    obtain ⟨hlt, hcases⟩ := hwf.insertWay_cases q
    have hwritten := cache.insert_self p code
    rw [← hset, ← hway] at hwritten
    rcases hcases with ⟨-, hsame⟩ | ⟨-, hvacant, -⟩ | ⟨habsent, hvictim, hall⟩
    · rw [hwritten] at hsame
      exact absurd hsame hne
    · rw [Occupied, hwritten] at hvacant
      exact absurd nofun hvacant
    · refine ⟨hset.symm, fun i hi hi' => ?_⟩
      rw [victimWay_congr hset.symm, ← hvictim] at hi'
      have hp : (cache.insert p code (setIndex q) i).guestAddress ≠ p := by
        intro hsame
        exact hi' (hwf.distinct hi hlt (hall i hi) (hall _ hlt) (by rw [hsame, hwritten]))
      have hq := habsent i hi (hall i hi)
      have hoccupied := hall i hi
      have hkept : ¬(setIndex p = setIndex p ∧ i = cache.insertWay p) := fun heq =>
        hi' (heq.2.trans hway.symm)
      rw [hset, insert_other cache p code hkept] at hp hq
      rw [hset, Occupied, insert_other cache p code hkept] at hoccupied
      exact ⟨hoccupied, hp, hq⟩
  · intro hcrowded
    refine ⟨hcrowded.1.symm, ?_⟩
    rw [(hcrowded.insert h code).insertWay hwf, hcrowded.insertWay h, victimWay_congr hcrowded.1]

/-- **Two insertions in a row** are both resident exactly if the set is not crowded: a full set gives
up the same way each time, so there the second takes the place of the first. -/
theorem insertAll_both_resident_iff (history : List (Address × Code)) {p q : Address} (hne : p ≠ q)
    (code code' : Code) :
    ((((insertAll history).insert p code).insert q code').lookup p ≠ none ∧
        (((insertAll history).insert p code).insert q code').lookup q ≠ none) ↔
      ¬(insertAll history).Crowded p q := by
  have hwf := insertAll_wf history
  generalize insertAll history = cache at hwf
  have hwf' := hwf.insert p code
  have hwritten := cache.insert_self p code
  rw [← hwf.insertWay_eq_iff hne code, hwf'.lookup_insert_self q code']
  constructor
  · rintro ⟨hp, -⟩ ⟨hset, hway⟩
    refine hp (hwf'.lookup_insert_displaced code' hne hset.symm ?_ ?_)
    · rw [Occupied, hset, hway, hwritten]
      exact nofun
    · rw [hset, hway, hwritten]
  · intro hapart
    refine ⟨?_, nofun⟩
    rw [hwf'.lookup_insert_other code' hne, hwf.lookup_insert_self]
    · exact nofun
    · rintro ⟨hset, hoccupied, hsame⟩
      rw [← hset] at hoccupied hsame
      refine hapart ⟨hset.symm, ?_⟩
      refine hwf'.distinct (hwf'.insertWay_cases q).1 (hwf.insertWay_cases p).1 hoccupied ?_ ?_
      · rw [Occupied, hwritten]
        exact nofun
      · rw [hsame, hwritten]

theorem insertAll_both_resident_empty :
    ((((insertAll []).insert 0x1000 true).insert 0x2000 true).lookup 0x1000 ≠ none ∧
      (((insertAll []).insert 0x1000 true).insert 0x2000 true).lookup 0x2000 ≠ none) ∧
      (0x1000 : Address) ≠ 0x2000 := by
  refine ⟨(insertAll_both_resident_iff [] (by decide) true true).mpr ?_, by decide⟩
  rintro ⟨-, hfull⟩
  exact (hfull 1 (by decide) (by decide)).1 rfl

/-- Five blocks of one set, then a sixth. -/
theorem insertAll_not_both_resident :
    ¬∀ (history : List (Address × Bool)) (p q : Address) (code code' : Bool), p ≠ q →
      (((insertAll history).insert p code).insert q code').lookup p ≠ none ∧
        (((insertAll history).insert p code).insert q code').lookup q ≠ none := by
  intro h
  refine (h [(0x0, true), (0x4000, true), (0x8000, true), (0xC000, true)] 0x10000 0x14000 true true
    (by decide)).1 ?_
  decide

end BlockCache

end Ballistic
