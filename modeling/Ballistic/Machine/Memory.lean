import Mathlib.Data.BitVec
import Mathlib.Tactic.Common

/-!
# Byte-addressed memory

A flat 64-bit address space of bytes with little-endian words. Addresses wrap, so a region is
described by the distance of an address from the region's base, and two accesses at fixed offsets
from one base are separated by the offsets alone.
-/

namespace Machine

abbrev Byte := BitVec 8

abbrev Address := BitVec 64

abbrev Memory := Address → Byte

/-- The distance of `x` above `base`, going around the address space if `x` is below it. -/
def distance (base x : Address) : Nat := (x - base).toNat

/-- The address `offset` bytes above `base`. -/
def above (base : Address) (offset : Nat) : Address := base + BitVec.ofNat 64 offset

namespace Memory

def read64 (m : Memory) (a : Address) : BitVec 64 :=
  m (above a 7) ++ m (above a 6) ++ m (above a 5) ++ m (above a 4) ++
    m (above a 3) ++ m (above a 2) ++ m (above a 1) ++ m (above a 0)

def write64 (m : Memory) (a : Address) (value : BitVec 64) : Memory := fun x =>
  if distance a x < 8 then value.extractLsb' (8 * distance a x) 8 else m x

def read32 (m : Memory) (a : Address) : BitVec 32 :=
  m (above a 3) ++ m (above a 2) ++ m (above a 1) ++ m (above a 0)

def write32 (m : Memory) (a : Address) (value : BitVec 32) : Memory := fun x =>
  if distance a x < 4 then value.extractLsb' (8 * distance a x) 8 else m x

def write8 (m : Memory) (a : Address) (value : Byte) : Memory := fun x =>
  if x = a then value else m x

/-- `count` zero bytes from `a` on. -/
def memset (m : Memory) (a : Address) (count : Nat) : Memory := fun x =>
  if distance a x < count then 0 else m x

/-- `m'` differs from `m` at most on the `size` bytes above `base`. -/
def Frame (base : Address) (size : Nat) (m m' : Memory) : Prop :=
  ∀ x, size ≤ distance base x → m' x = m x

end Memory

/-! ### Distances -/

theorem distance_above_above (base : Address) {o p : Nat} (ho : o < 2 ^ 32) (hp : p < 2 ^ 32) :
    distance (above base o) (above base p) = if o ≤ p then p - o else 2 ^ 64 - (o - p) := by
  unfold distance above
  split <;> bv_omega

@[simp]
theorem distance_above (base : Address) {o : Nat} (ho : o < 2 ^ 32) :
    distance base (above base o) = o := by
  unfold distance above
  bv_omega

theorem above_above (base : Address) (o p : Nat) : above (above base o) p = above base (o + p) := by
  unfold above
  rw [BitVec.add_assoc, BitVec.ofNat_add]

@[simp]
theorem above_zero (base : Address) : above base 0 = base := by
  simp [above]

/-- Every address is the one at its own distance. -/
theorem above_distance (base x : Address) : above base (distance base x) = x := by
  unfold above distance
  rw [BitVec.ofNat_toNat, BitVec.setWidth_eq, BitVec.add_comm, BitVec.sub_add_cancel]

/-- An address outside a region is outside every access placed inside the region. -/
theorem le_distance_of_outside {base x : Address} {size o n : Nat} (hsize : size < 2 ^ 32)
    (hinside : o + n ≤ size) (hout : size ≤ distance base x) : n ≤ distance (above base o) x := by
  unfold distance above at *
  bv_omega

namespace Memory

theorem write64_outside {m : Memory} {a x : Address} {value : BitVec 64}
    (hout : 8 ≤ distance a x) : m.write64 a value x = m x := by
  rw [write64, if_neg (by omega)]

theorem write32_outside {m : Memory} {a x : Address} {value : BitVec 32}
    (hout : 4 ≤ distance a x) : m.write32 a value x = m x := by
  rw [write32, if_neg (by omega)]

theorem write8_outside {m : Memory} {a x : Address} {value : Byte}
    (hout : 1 ≤ distance a x) : m.write8 a value x = m x := by
  have hne : x ≠ a := by
    rintro rfl
    simp [distance] at hout
  rw [write8, if_neg hne]

@[simp]
theorem write8_self (m : Memory) (a : Address) (value : Byte) : m.write8 a value a = value := by
  simp [write8]

theorem read64_congr {m m' : Memory} {a : Address}
    (h : ∀ k < 8, m' (above a k) = m (above a k)) : m'.read64 a = m.read64 a := by
  simp only [read64, h 0 (by omega), h 1 (by omega), h 2 (by omega), h 3 (by omega),
    h 4 (by omega), h 5 (by omega), h 6 (by omega), h 7 (by omega)]

/-- A word is its bytes, the lowest one last. -/
theorem append_bytes64 (value : BitVec 64) :
    value.extractLsb' 56 8 ++ value.extractLsb' 48 8 ++ value.extractLsb' 40 8 ++
      value.extractLsb' 32 8 ++ value.extractLsb' 24 8 ++ value.extractLsb' 16 8 ++
      value.extractLsb' 8 8 ++ value.extractLsb' 0 8 = value := by
  rw [BitVec.extractLsb'_append_extractLsb'_eq_extractLsb' (by rfl),
    BitVec.extractLsb'_append_extractLsb'_eq_extractLsb' (by rfl),
    BitVec.extractLsb'_append_extractLsb'_eq_extractLsb' (by rfl),
    BitVec.extractLsb'_append_extractLsb'_eq_extractLsb' (by rfl),
    BitVec.extractLsb'_append_extractLsb'_eq_extractLsb' (by rfl),
    BitVec.extractLsb'_append_extractLsb'_eq_extractLsb' (by rfl),
    BitVec.extractLsb'_append_extractLsb'_eq_extractLsb' (by rfl)]
  exact BitVec.extractLsb'_eq_self

theorem append_bytes32 (value : BitVec 32) :
    value.extractLsb' 24 8 ++ value.extractLsb' 16 8 ++ value.extractLsb' 8 8 ++
      value.extractLsb' 0 8 = value := by
  rw [BitVec.extractLsb'_append_extractLsb'_eq_extractLsb' (by rfl),
    BitVec.extractLsb'_append_extractLsb'_eq_extractLsb' (by rfl),
    BitVec.extractLsb'_append_extractLsb'_eq_extractLsb' (by rfl)]
  exact BitVec.extractLsb'_eq_self

@[simp]
theorem read64_write64_self (m : Memory) (a : Address) (value : BitVec 64) :
    (m.write64 a value).read64 a = value := by
  have hbyte : ∀ k < 8, m.write64 a value (above a k) = value.extractLsb' (8 * k) 8 := by
    intro k hk
    rw [write64, distance_above a (by omega), if_pos hk]
  simp only [read64, hbyte 0 (by omega), hbyte 1 (by omega), hbyte 2 (by omega),
    hbyte 3 (by omega), hbyte 4 (by omega), hbyte 5 (by omega), hbyte 6 (by omega),
    hbyte 7 (by omega)]
  exact append_bytes64 value

theorem read32_congr {m m' : Memory} {a : Address}
    (h : ∀ k < 4, m' (above a k) = m (above a k)) : m'.read32 a = m.read32 a := by
  simp only [read32, h 0 (by omega), h 1 (by omega), h 2 (by omega), h 3 (by omega)]

@[simp]
theorem read32_write32_self (m : Memory) (a : Address) (value : BitVec 32) :
    (m.write32 a value).read32 a = value := by
  have hbyte : ∀ k < 4, m.write32 a value (above a k) = value.extractLsb' (8 * k) 8 := by
    intro k hk
    rw [write32, distance_above a (by omega), if_pos hk]
  simp only [read32, hbyte 0 (by omega), hbyte 1 (by omega), hbyte 2 (by omega),
    hbyte 3 (by omega)]
  exact append_bytes32 value

theorem read64_memset (m : Memory) (base : Address) {o p count : Nat} (hp : p + 8 < 2 ^ 32)
    (hle : o ≤ p) (hinside : p + 8 ≤ o + count) :
    (m.memset (above base o) count).read64 (above base p) = 0 := by
  have hbyte : ∀ k < 8, m.memset (above base o) count (above (above base p) k) = 0 := by
    intro k hk
    have hdistance : distance (above base o) (above base (p + k)) = p + k - o := by
      rw [distance_above_above base (by omega) (by omega), if_pos (by omega)]
    rw [memset, above_above, hdistance, if_pos (by omega)]
  simp only [read64, hbyte 0 (by omega), hbyte 1 (by omega), hbyte 2 (by omega),
    hbyte 3 (by omega), hbyte 4 (by omega), hbyte 5 (by omega), hbyte 6 (by omega),
    hbyte 7 (by omega)]
  rfl

/-- A word read is unaffected by a change that stays away from its eight bytes. -/
theorem read64_of_outside {m m' : Memory} {a b : Address} {n : Nat}
    (hframe : ∀ x, n ≤ distance a x → m' x = m x)
    (hout : ∀ k < 8, n ≤ distance a (above b k)) : m'.read64 b = m.read64 b :=
  read64_congr fun k hk => hframe _ (hout k hk)

theorem read32_of_outside {m m' : Memory} {a b : Address} {n : Nat}
    (hframe : ∀ x, n ≤ distance a x → m' x = m x)
    (hout : ∀ k < 4, n ≤ distance a (above b k)) : m'.read32 b = m.read32 b :=
  read32_congr fun k hk => hframe _ (hout k hk)

theorem read64_above_congr {m m' : Memory} {a : Address} {o : Nat}
    (h : ∀ k < 8, m' (above a (o + k)) = m (above a (o + k))) :
    m'.read64 (above a o) = m.read64 (above a o) :=
  read64_congr fun k hk => by
    rw [above_above]
    exact h k hk

theorem read32_above_congr {m m' : Memory} {a : Address} {o : Nat}
    (h : ∀ k < 4, m' (above a (o + k)) = m (above a (o + k))) :
    m'.read32 (above a o) = m.read32 (above a o) :=
  read32_congr fun k hk => by
    rw [above_above]
    exact h k hk

/-! ### Accesses at fixed offsets from one base -/

section Offsets

variable (m : Memory) (base : Address) {o p : Nat}

theorem read32_write32_above (value : BitVec 32) (ho : o < 2 ^ 31) (hp : p < 2 ^ 31)
    (hdisjoint : o + 4 ≤ p ∨ p + 4 ≤ o) :
    (m.write32 (above base o) value).read32 (above base p) = m.read32 (above base p) := by
  refine read32_of_outside (fun x hx => write32_outside hx) fun k hk => ?_
  rw [above_above, distance_above_above base (by omega) (by omega)]
  split <;> omega

theorem read64_write32_above (value : BitVec 32) (ho : o < 2 ^ 31) (hp : p < 2 ^ 31)
    (hdisjoint : o + 4 ≤ p ∨ p + 8 ≤ o) :
    (m.write32 (above base o) value).read64 (above base p) = m.read64 (above base p) := by
  refine read64_of_outside (fun x hx => write32_outside hx) fun k hk => ?_
  rw [above_above, distance_above_above base (by omega) (by omega)]
  split <;> omega

theorem read32_write64_above (value : BitVec 64) (ho : o < 2 ^ 31) (hp : p < 2 ^ 31)
    (hdisjoint : o + 8 ≤ p ∨ p + 4 ≤ o) :
    (m.write64 (above base o) value).read32 (above base p) = m.read32 (above base p) := by
  refine read32_of_outside (fun x hx => write64_outside hx) fun k hk => ?_
  rw [above_above, distance_above_above base (by omega) (by omega)]
  split <;> omega

theorem read64_write64_above (value : BitVec 64) (ho : o < 2 ^ 31) (hp : p < 2 ^ 31)
    (hdisjoint : o + 8 ≤ p ∨ p + 8 ≤ o) :
    (m.write64 (above base o) value).read64 (above base p) = m.read64 (above base p) := by
  refine read64_of_outside (fun x hx => write64_outside hx) fun k hk => ?_
  rw [above_above, distance_above_above base (by omega) (by omega)]
  split <;> omega

theorem read64_write8_above (value : Byte) (ho : o < 2 ^ 31) (hp : p < 2 ^ 31)
    (hdisjoint : o + 1 ≤ p ∨ p + 8 ≤ o) :
    (m.write8 (above base o) value).read64 (above base p) = m.read64 (above base p) := by
  refine read64_of_outside (fun x hx => write8_outside hx) fun k hk => ?_
  rw [above_above, distance_above_above base (by omega) (by omega)]
  split <;> omega

theorem write64_above_apply (value : BitVec 64) (ho : o < 2 ^ 31) (hp : p < 2 ^ 31)
    (hdisjoint : o + 8 ≤ p ∨ p < o) :
    m.write64 (above base o) value (above base p) = m (above base p) := by
  refine write64_outside ?_
  rw [distance_above_above base (by omega) (by omega)]
  split <;> omega

theorem write8_above_apply (value : Byte) (ho : o < 2 ^ 31) (hp : p < 2 ^ 31) (hne : o ≠ p) :
    m.write8 (above base o) value (above base p) = m (above base p) := by
  refine write8_outside ?_
  rw [distance_above_above base (by omega) (by omega)]
  split <;> omega

end Offsets

/-! ### Frames -/

theorem Frame.refl (base : Address) (size : Nat) (m : Memory) : Frame base size m m :=
  fun _ _ => rfl

theorem Frame.trans {base : Address} {size : Nat} {m m' m'' : Memory}
    (h : Frame base size m m') (h' : Frame base size m' m'') : Frame base size m m'' :=
  fun x hx => (h' x hx).trans (h x hx)

theorem frame_write64 {base : Address} {size o : Nat} (m : Memory) (value : BitVec 64)
    (hsize : size < 2 ^ 32) (hinside : o + 8 ≤ size) :
    Frame base size m (m.write64 (above base o) value) :=
  fun _ hx => write64_outside (le_distance_of_outside hsize hinside hx)

theorem frame_write8 {base : Address} {size o : Nat} (m : Memory) (value : Byte)
    (hsize : size < 2 ^ 32) (hinside : o + 1 ≤ size) :
    Frame base size m (m.write8 (above base o) value) :=
  fun _ hx => write8_outside (le_distance_of_outside hsize hinside hx)

end Memory

end Machine
