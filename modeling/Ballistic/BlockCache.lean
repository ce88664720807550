import Ballistic.Types

/-!
# The block cache

The set-associative table in `bal_engine.c` from guest addresses to host code. What host code is
plays no part in it, so the cache is over any type of it.
-/

namespace Ballistic

open Machine

variable {Code : Type}

/-- `block_cache_entry_t`; no host code is `NULL`. -/
structure BlockCacheEntry (Code : Type) where
  guestAddress : Address
  hostCode : Option Code

/-- `block_cache_set_t`, by set and way. -/
abbrev BlockCache (Code : Type) := Nat → Nat → BlockCacheEntry Code

def blockCacheWays : Nat := 4

def blockCacheMask : Nat := 4095

namespace BlockCache

/-- The cache after `memset` with zeros. -/
def empty : BlockCache Code := fun _ _ => ⟨0, none⟩

def setIndex (pc : Address) : Nat := ((pc >>> 2).setWidth 32).toNat &&& blockCacheMask

/-- `block_cache_lookup`. -/
def lookup (cache : BlockCache Code) (pc : Address) : Option Code :=
  (List.range blockCacheWays).findSome? fun i =>
    let way := cache (setIndex pc) i
    if way.guestAddress = pc then way.hostCode else none

def put (cache : BlockCache Code) (set way : Nat) (entry : BlockCacheEntry Code) :
    BlockCache Code :=
  fun s w => if s = set ∧ w = way then entry else cache s w

/-- The way that `block_cache_insert` writes: one with the same address, else one without host code,
else one chosen by the address. -/
def insertWay (cache : BlockCache Code) (pc : Address) : Nat :=
  let ways := cache (setIndex pc)
  match (List.range blockCacheWays).find? fun i => (ways i).guestAddress = pc with
  | some i => i
  | none =>
      match (List.range blockCacheWays).find? fun i => (ways i).hostCode.isNone with
      | some i => i
      | none => (pc >>> 4).toNat &&& (blockCacheWays - 1)

/-- `block_cache_insert`. -/
def insert (cache : BlockCache Code) (pc : Address) (hostCode : Code) : BlockCache Code :=
  cache.put (setIndex pc) (cache.insertWay pc) ⟨pc, some hostCode⟩

/-- The cache holds `code` for `pc` in some way of some set. -/
def Contains (cache : BlockCache Code) (pc : Address) (code : Code) : Prop :=
  ∃ set way, cache set way = ⟨pc, some code⟩

theorem not_contains_empty (pc : Address) (code : Code) :
    ¬(empty : BlockCache Code).Contains pc code := by
  rintro ⟨set, way, h⟩
  cases h

theorem contains_of_lookup {cache : BlockCache Code} {pc : Address} {code : Code}
    (h : cache.lookup pc = some code) : cache.Contains pc code := by
  obtain ⟨i, -, hi⟩ := List.exists_of_findSome?_eq_some h
  refine ⟨setIndex pc, i, ?_⟩
  generalize cache (setIndex pc) i = way at hi ⊢
  obtain ⟨address, code'⟩ := way
  by_cases haddress : address = pc
  · rw [haddress] at hi ⊢
    simp only [if_true] at hi
    rw [hi]
  · simp [haddress] at hi

/-- An insertion adds its own entry and nothing else. -/
theorem contains_of_insert {cache : BlockCache Code} {pc pc' : Address} {code code' : Code}
    (h : (cache.insert pc code).Contains pc' code') :
    (pc' = pc ∧ code' = code) ∨ cache.Contains pc' code' := by
  obtain ⟨set, way, hentry⟩ := h
  simp only [insert, put] at hentry
  split at hentry
  · cases hentry
    exact .inl ⟨rfl, rfl⟩
  · exact .inr ⟨set, way, hentry⟩

end BlockCache

end Ballistic
