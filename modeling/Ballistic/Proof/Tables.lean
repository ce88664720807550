import Ballistic.Generator
import Ballistic.Order.Ranked
import Mathlib.Data.Prod.Lex

/-!
# The generated arrays against a linear scan

The comparison that buckets are sorted by is the order of a rank: priority descending, then value,
then mask. Membership in a bucket depends on mask and value only, and so does a match. A bucket is
therefore determined up to ties by its key, and a bucket that is given the candidates of an earlier
one with the same key is given candidates of the same ranks.
-/

namespace Ballistic

namespace Descriptor

/-! ### The order of a bucket -/

theorem unsigned_eq (n : BitVec 32) : unsigned n = n.toNat := by
  unfold unsigned
  have heq := BitVec.toInt_eq_toNat_cond n
  have hlt := n.isLt
  split at heq <;> split <;> omega

/-- Priority downwards, then value, then mask. -/
def rank (d : Descriptor) : ℕᵒᵈ ×ₗ ℕ ×ₗ ℕ :=
  toLex (OrderDual.toDual d.priority, toLex (d.value.toNat, d.mask.toNat))

theorem precedes_iff {a b : Descriptor} : a.precedes b = true ↔ a.rank < b.rank := by
  simp only [rank, Prod.Lex.toLex_lt_toLex, OrderDual.toDual_lt_toDual, OrderDual.toDual_inj]
  unfold precedes
  simp only [unsigned_eq, Int.ofNat_inj, Int.ofNat_lt]
  by_cases hpriority : a.priority = b.priority
  · by_cases hvalue : a.value.toNat = b.value.toNat
    · simp [hpriority, hvalue]
    · simp [hpriority, hvalue]
  · simp [hpriority]

theorem not_precedes_iff {a b : Descriptor} : a.precedes b = false ↔ b.rank ≤ a.rank := by
  rw [← Bool.not_eq_true, precedes_iff, not_lt]

/-- What a match and membership in a bucket depend on. -/
def fixedBits (d : Descriptor) : BitVec 32 × BitVec 32 := (d.mask, d.value)

theorem fixedBits_eq_of_rank_eq {a b : Descriptor} (h : a.rank = b.rank) :
    a.fixedBits = b.fixedBits := by
  have hfields := congrArg (fun r => (ofLex (ofLex r).2)) h
  simp only [rank, ofLex_toLex, Prod.mk.injEq] at hfields
  exact Prod.ext (BitVec.eq_of_toNat_eq hfields.2) (BitVec.eq_of_toNat_eq hfields.1)

theorem matchesWord_congr {a b : Descriptor} (h : a.fixedBits = b.fixedBits) (w : BitVec 32) :
    a.matchesWord w = b.matchesWord w := by
  obtain ⟨hmask, hvalue⟩ := Prod.mk.inj h
  rw [matchesWord, matchesWord, hmask, hvalue]

end Descriptor

theorem probes_congr {a b : Descriptor} (h : a.fixedBits = b.fixedBits) (i : Nat) :
    probes i a = probes i b := by
  obtain ⟨hmask, hvalue⟩ := Prod.mk.inj h
  rw [probes, probes, hmask, hvalue]

theorem hashBits_getLsbD : ∀ j < 32, decoderHashBitsMask.getLsbD j = decide (21 ≤ j) := by decide

theorem probe_eq (w : BitVec 32) :
    BitVec.ofNat 32 (w.extractLsb' 21 11).toNat <<< 21 = w &&& decoderHashBitsMask := by
  apply BitVec.eq_of_getLsbD_eq
  intro j hj
  rw [BitVec.getLsbD_and, hashBits_getLsbD j hj, BitVec.getLsbD_shiftLeft]
  by_cases hlow : j < 21
  · simp [hlow]
  · have hwide : (BitVec.ofNat 32 (w.extractLsb' 21 11).toNat).getLsbD (j - 21) =
        (w.extractLsb' 21 11).getLsbD (j - 21) := by
      rw [BitVec.getLsbD_ofNat, BitVec.testBit_toNat, decide_eq_true (by omega), Bool.true_and]
    have hindex : 21 + (j - 21) = j := by omega
    rw [hwide, BitVec.getLsbD_extractLsb', hindex]
    simp [hj, show j - 21 < 11 by omega, show 21 ≤ j by omega]

/-- A word is matched from the bucket of its top bits only. -/
theorem probes_of_matchesWord {d : Descriptor} {w : BitVec 32} (h : d.matchesWord w = true) :
    probes (w.extractLsb' 21 11).toNat d = true := by
  have hmatch : w &&& d.mask = d.value := by simpa [Descriptor.matchesWord] using h
  rw [probes, beq_iff_eq, probe_eq, ← hmatch]
  ext i hi
  simp only [BitVec.getElem_and]
  cases w[i] <;> cases d.mask[i] <;> cases decoderHashBitsMask[i] <;> rfl

/-! ### Keys -/

theorem luaNumber_notMem (n : Int) : '_' ∉ luaNumber n := by
  unfold luaNumber
  split
  · rw [List.mem_cons, not_or]
    exact ⟨by decide, Nat.underscore_not_in_toDigits⟩
  · exact Nat.underscore_not_in_toDigits

theorem toDigits_injective {m n : Nat} (h : Nat.toDigits 10 m = Nat.toDigits 10 n) : m = n := by
  rw [← Nat.ofDigitChars_ten_toDigits (n := m), h, Nat.ofDigitChars_ten_toDigits]

theorem minus_notMem_toDigits (n : Nat) : '-' ∉ Nat.toDigits 10 n := by
  intro hmem
  exact absurd (Nat.isDigit_of_mem_toDigits (by decide) (by decide) hmem) (by decide)

theorem luaNumber_injective {m n : Int} (h : luaNumber m = luaNumber n) : m = n := by
  unfold luaNumber at h
  split at h <;> split at h
  · have heq := toDigits_injective (List.cons.inj h).2
    omega
  · exact absurd (h ▸ List.mem_cons_self) (minus_notMem_toDigits n.natAbs)
  · exact absurd (h.symm ▸ List.mem_cons_self) (minus_notMem_toDigits m.natAbs)
  · have heq := toDigits_injective h
    omega

theorem append_cons_inj {α : Type} {sep : α} {u v s t : List α} (hu : sep ∉ u) (hv : sep ∉ v)
    (h : u ++ sep :: s = v ++ sep :: t) : u = v ∧ s = t := by
  induction u generalizing v with
  | nil =>
      cases v with
      | nil => exact ⟨rfl, (List.cons.inj h).2⟩
      | cons b v => exact absurd ((List.cons.inj h).1 ▸ List.mem_cons_self) hv
  | cons a u ih =>
      cases v with
      | nil => exact absurd ((List.cons.inj h).1 ▸ List.mem_cons_self) hu
      | cons b v =>
          obtain ⟨rfl, htail⟩ := List.cons.inj h
          obtain ⟨rfl, rfl⟩ := ih (fun hmem => hu (List.mem_cons_of_mem a hmem))
            (fun hmem => hv (List.mem_cons_of_mem a hmem)) htail
          exact ⟨rfl, rfl⟩

/-- Read from its end, a key tells the mask and the value of the last candidate. -/
theorem fixedBits_eq_of_keyPart {a b : Descriptor} {s t : List Char}
    (h : a.keyPart.reverse ++ s = b.keyPart.reverse ++ t) : a.fixedBits = b.fixedBits := by
  simp only [Descriptor.keyPart, List.reverse_append, List.reverse_cons, List.reverse_nil,
    List.nil_append, List.append_assoc, List.cons_append, List.cons.injEq, true_and] at h
  obtain ⟨hvalue, hrest⟩ := append_cons_inj (by simpa using luaNumber_notMem _)
    (by simpa using luaNumber_notMem _) h
  obtain ⟨hmask, -⟩ := append_cons_inj (by simpa using luaNumber_notMem _)
    (by simpa using luaNumber_notMem _) hrest
  exact Prod.ext (BitVec.eq_of_toInt_eq (luaNumber_injective (List.reverse_injective hmask)))
    (BitVec.eq_of_toInt_eq (luaNumber_injective (List.reverse_injective hvalue)))

theorem sequenceKey_reverse (candidates : List Descriptor) :
    (sequenceKey candidates).reverse =
      (candidates.reverse.map fun d => d.keyPart.reverse).flatten := by
  rw [sequenceKey, List.reverse_flatten, List.map_map, ← List.map_reverse]
  rfl

section Buckets

variable (table : TableSort Descriptor.precedes) (instructions : List Descriptor)

theorem bucket_perm (i : Nat) :
    (generateHashTable table instructions i).Perm (instructions.filter (probes i)) :=
  table.perm _

theorem bucket_sorted (i : Nat) :
    (generateHashTable table instructions i).Pairwise fun a b => a.rank ≤ b.rank :=
  (table.ordered _).imp Descriptor.not_precedes_iff.mp

/-- **A key determines the ranks of a bucket.** -/
theorem rank_eq_of_sequenceKey_eq {i j : Nat}
    (h : sequenceKey (generateHashTable table instructions i) =
      sequenceKey (generateHashTable table instructions j)) :
    (generateHashTable table instructions i).map Descriptor.rank =
      (generateHashTable table instructions j).map Descriptor.rank := by
  have hsymbols := congrArg List.reverse h
  rw [sequenceKey_reverse, sequenceKey_reverse] at hsymbols
  have hranks := Ranked.rank_eq_of_flatten_eq Descriptor.rank
    (fun d : Descriptor => d.keyPart.reverse) Descriptor.fixedBits (by simp [Descriptor.keyPart])
    (fun a b s t => fixedBits_eq_of_keyPart) (fun a b => Descriptor.fixedBits_eq_of_rank_eq)
    (fun a b hab => probes_congr hab i) (fun a b hab => probes_congr hab j)
    instructions.length instructions _ _ le_rfl
    ((List.reverse_perm _).trans (bucket_perm table instructions i))
    ((List.reverse_perm _).trans (bucket_perm table instructions j))
    (List.pairwise_reverse.mpr (bucket_sorted table instructions i))
    (List.pairwise_reverse.mpr (bucket_sorted table instructions j)) hsymbols
  rw [List.map_reverse, List.map_reverse] at hranks
  exact List.reverse_injective hranks

end Buckets

/-! ### Flattening -/

/-- From `index` on the flat array holds a bucket with this key. -/
def Stored (flat : List Descriptor) (buckets : List (List Descriptor)) (key : List Char)
    (index : Nat) : Prop :=
  ∃ b ∈ buckets, sequenceKey b = key ∧ b <+: flat.drop index

theorem Stored.append {flat : List Descriptor} {buckets : List (List Descriptor)} {key : List Char}
    {index : Nat} (h : Stored flat buckets key index) (more : List Descriptor)
    (moreBuckets : List (List Descriptor)) :
    Stored (flat ++ more) (buckets ++ moreBuckets) key index := by
  obtain ⟨b, hb, hkey, hprefix⟩ := h
  refine ⟨b, List.mem_append_left _ hb, hkey, ?_⟩
  rw [List.drop_append]
  exact hprefix.trans (List.prefix_append _ _)

/-- What a descriptor of a bucket says about it. -/
def Describes (flat : List Descriptor) (buckets : List (List Descriptor)) (d : Nat × Nat)
    (b : List Descriptor) : Prop :=
  d.2 = b.length ∧ (b ≠ [] → Stored flat buckets (sequenceKey b) d.1)

/-- What the flattening loop keeps: known keys and the descriptors of buckets lead to stored
candidates. -/
structure Flattened.Inv (f : Flattened) (buckets : List (List Descriptor)) : Prop where
  known : ∀ key index, f.sequenceMap key = some index → Stored f.flatCandidates buckets key index
  described : List.Forall₂ (Describes f.flatCandidates buckets) f.bucketDescriptors buckets

/-- The step of the loop keeps the invariant. -/
theorem Flattened.Inv.add {f : Flattened} {buckets : List (List Descriptor)} (h : f.Inv buckets)
    (b : List Descriptor) : (f.add b).Inv (buckets ++ [b]) := by
  have hknown : ∀ more key index, f.sequenceMap key = some index →
      Stored (f.flatCandidates ++ more) (buckets ++ [b]) key index :=
    fun more key index hkey => (h.known key index hkey).append more [b]
  have hextend : ∀ more d, Describes (f.flatCandidates ++ more) (buckets ++ [b]) d b →
      List.Forall₂ (Describes (f.flatCandidates ++ more) (buckets ++ [b]))
        (f.bucketDescriptors ++ [d]) (buckets ++ [b]) := by
    intro more d hd
    refine List.rel_append (h.described.imp fun d' b' hdescribes => ?_) (.cons hd .nil)
    exact ⟨hdescribes.1, fun hne => (hdescribes.2 hne).append more [b]⟩
  unfold Flattened.add
  by_cases hempty : b.length = 0
  · rw [if_pos hempty]
    refine ⟨by simpa using hknown [], ?_⟩
    have hd : Describes (f.flatCandidates ++ []) (buckets ++ [b]) (0, 0) b :=
      ⟨hempty.symm, fun hne => absurd (List.length_eq_zero_iff.mp hempty) hne⟩
    simpa using hextend [] _ hd
  · rw [if_neg hempty]
    cases hkey : f.sequenceMap (sequenceKey b) with
    | some index =>
        refine ⟨by simpa [hkey] using hknown [], ?_⟩
        have hd : Describes (f.flatCandidates ++ []) (buckets ++ [b]) (index, b.length) b :=
          ⟨rfl, fun _ => hknown [] _ _ hkey⟩
        simpa [hkey] using hextend [] _ hd
    | none =>
        have hstored : Stored (f.flatCandidates ++ b) (buckets ++ [b]) (sequenceKey b)
            f.flatCandidates.length :=
          ⟨b, by simp, rfl, by rw [List.drop_left]⟩
        refine ⟨fun key index hindex => ?_, ?_⟩
        · simp only [hkey] at hindex ⊢
          split at hindex
          · next heq =>
              obtain rfl := Option.some.inj hindex
              rw [heq]
              exact hstored
          · exact hknown b key index hindex
        · simpa [hkey] using hextend b _ ⟨rfl, fun _ => hstored⟩

theorem Flattened.inv_start : Flattened.start.Inv [] := ⟨nofun, List.Forall₂.nil⟩

theorem Flattened.inv_foldl (buckets : List (List Descriptor)) :
    (buckets.foldl Flattened.add Flattened.start).Inv buckets := by
  induction buckets using List.reverseRecOn with
  | nil => exact inv_start
  | append_singleton buckets b ih =>
      rw [List.foldl_append]
      exact ih.add b

/-- The loop appends a bucket at most once. -/
theorem Flattened.length_foldl_le {n : Nat} (buckets : List (List Descriptor))
    (hle : ∀ b ∈ buckets, b.length ≤ n) :
    (buckets.foldl Flattened.add Flattened.start).flatCandidates.length ≤ buckets.length * n := by
  induction buckets using List.reverseRecOn with
  | nil => exact Nat.zero_le _
  | append_singleton buckets b ih =>
      have hbefore := ih fun b' hb' => hle b' (List.mem_append_left _ hb')
      have hlast := hle b (by simp)
      have hstep : ∀ f : Flattened,
          (f.add b).flatCandidates.length ≤ f.flatCandidates.length + b.length := by
        intro f
        simp only [Flattened.add]
        by_cases hempty : b.length = 0
        · rw [if_pos hempty]
          exact Nat.le_add_right _ _
        · rw [if_neg hempty]
          cases f.sequenceMap (sequenceKey b) with
          | some index => exact Nat.le_add_right _ _
          | none => exact Nat.le_of_eq List.length_append
      rw [List.foldl_append, List.length_append, Nat.add_mul]
      have hfold := hstep (buckets.foldl Flattened.add Flattened.start)
      simp only [List.foldl_cons, List.foldl_nil, List.length_singleton]
      omega

/-! ### Decoding -/

section Decode

variable {table : TableSort Descriptor.precedes} {instructions : List Descriptor}

theorem bucket_length_le (i : Nat) :
    (generateHashTable table instructions i).length ≤ instructions.length := by
  rw [(bucket_perm table instructions i).length_eq]
  exact List.length_filter_le _ _

theorem mem_of_mem_bucket {d : Descriptor} {i : Nat} (h : d ∈ generateHashTable table instructions i) :
    d ∈ instructions :=
  (List.mem_filter.mp ((bucket_perm table instructions i).subset h)).1

theorem describes_bucket {i size : Nat} (hi : i < size) :
    ∃ d, (flatten table instructions size).bucketDescriptors[i]? = some d ∧
      d.2 = (generateHashTable table instructions i).length ∧
      (generateHashTable table instructions i ≠ [] →
        ∃ j, (generateHashTable table instructions j).map Descriptor.rank =
            (generateHashTable table instructions i).map Descriptor.rank ∧
          generateHashTable table instructions j <+:
            (flatten table instructions size).flatCandidates.drop d.1) := by
  have hinv : (flatten table instructions size).Inv
      ((List.range size).map (generateHashTable table instructions)) := Flattened.inv_foldl _
  obtain ⟨hlength, hget⟩ := List.forall₂_iff_get.mp hinv.described
  have hbuckets : i < ((List.range size).map
      (generateHashTable table instructions)).length := by simpa using hi
  obtain ⟨hcount, hstored⟩ := hget i (hlength ▸ hbuckets) hbuckets
  refine ⟨_, List.getElem?_eq_getElem (hlength ▸ hbuckets), by simpa using hcount, fun hne => ?_⟩
  obtain ⟨b, hb, hkey, hprefix⟩ := hstored (by simpa using hne)
  obtain ⟨j, -, rfl⟩ := List.mem_map.mp hb
  refine ⟨j, rank_eq_of_sequenceKey_eq table instructions ?_, hprefix⟩
  simpa using hkey

/-- The decoder goes through candidates of the list with the ranks of its bucket. -/
theorem candidatesOf_spec
    (hcount : ∀ i < decoderHashTableSize, (generateHashTable table instructions i).length ≤ 255)
    (hflat : (flatten table instructions decoderHashTableSize).flatCandidates.length ≤ 65536)
    (i : BitVec 11) :
    ((generateFiles table instructions).candidatesOf i).map Descriptor.rank =
        (generateHashTable table instructions i.toNat).map Descriptor.rank ∧
      ∀ d ∈ (generateFiles table instructions).candidatesOf i, d ∈ instructions := by
  have hi : i.toNat < decoderHashTableSize := i.isLt
  obtain ⟨d, hd, hlength, hstored⟩ := @describes_bucket table instructions _ _ hi
  have hsmall : d.2 < 2 ^ 8 := by
    have h := hcount i.toNat hi
    omega
  have hcandidates : (generateFiles table instructions).candidatesOf i =
      ((flatten table instructions decoderHashTableSize).flatCandidates.drop
        (BitVec.ofNat 16 d.1).toNat).take d.2 := by
    simp only [DecoderArrays.candidatesOf, generateFiles, List.getD_eq_getElem?_getD,
      List.getElem?_map, hd, Option.map_some, Option.getD_some, BitVec.toNat_ofNat,
      Nat.mod_eq_of_lt hsmall]
  rw [hcandidates]
  by_cases hempty : generateHashTable table instructions i.toNat = []
  · rw [hempty] at hlength ⊢
    rw [hlength]
    simp
  · obtain ⟨j, hranks, hprefix⟩ := hstored hempty
    have hsame : (generateHashTable table instructions j).length = d.2 := by
      rw [hlength]
      simpa using congrArg List.length hranks
    have hinside : d.1 < 2 ^ 16 := by
      have hpos : 0 < d.2 := hlength ▸ List.length_pos_iff.mpr hempty
      have hle := hprefix.length_le
      rw [List.length_drop] at hle
      omega
    have htake := List.prefix_iff_eq_take.mp hprefix
    rw [hsame] at htake
    rw [BitVec.toNat_ofNat, Nat.mod_eq_of_lt hinside, ← htake]
    exact ⟨hranks, fun _ hmem => mem_of_mem_bucket hmem⟩

theorem decode_eq_find? (arrays : DecoderArrays) (w : BitVec 32) :
    balDecodeArm64 arrays.decoderTable w =
      ((arrays.candidatesOf (w.extractLsb' 21 11)).find? (·.matchesWord w)).map
        Descriptor.metadata := by
  simp only [balDecodeArm64, DecoderArrays.decoderTable, List.find?_map]
  rfl

/-- The candidate that is found, if the decoder goes through the ranks of its bucket. -/
theorem find?_candidates {candidates : List Descriptor} {w : BitVec 32}
    (hranks : candidates.map Descriptor.rank =
      (generateHashTable table instructions (w.extractLsb' 21 11).toNat).map Descriptor.rank)
    {e : Descriptor} (he : e ∈ instructions) (hmatch : e.matchesWord w = true) :
    ∃ d, candidates.find? (·.matchesWord w) = some d ∧ d.rank ≤ e.rank := by
  have hbucket : e ∈ generateHashTable table instructions (w.extractLsb' 21 11).toNat :=
    (bucket_perm table instructions _).symm.subset
      (List.mem_filter.mpr ⟨he, probes_of_matchesWord hmatch⟩)
  have hsorted : candidates.Pairwise fun a b => a.rank ≤ b.rank := by
    have h := bucket_sorted table instructions (w.extractLsb' 21 11).toNat
    rw [← List.pairwise_map (R := (· ≤ ·))] at h ⊢
    rwa [hranks]
  obtain ⟨c, hc, hrank⟩ := List.mem_map.mp (hranks ▸ List.mem_map_of_mem hbucket)
  have hcmatch : c.matchesWord w = true := by
    rw [Descriptor.matchesWord_congr (Descriptor.fixedBits_eq_of_rank_eq hrank) w, hmatch]
  have hfound : (candidates.find? (·.matchesWord w)).isSome = true :=
    List.find?_isSome.mpr ⟨c, hc, hcmatch⟩
  obtain ⟨d, hd⟩ := Option.isSome_iff_exists.mp hfound
  exact ⟨d, hd, (Ranked.rank_le_of_find? hsorted hd c hc hcmatch).trans hrank.le⟩

/-- The sizes for which the fields of the generated arrays are wide enough. -/
structure FitsArrays (table : TableSort Descriptor.precedes) (instructions : List Descriptor) :
    Prop where
  count : ∀ i < decoderHashTableSize, (generateHashTable table instructions i).length ≤ 255
  flat : (flatten table instructions decoderHashTableSize).flatCandidates.length ≤ 65536

theorem fitsArrays_of_length_le (hle : instructions.length ≤ 32) : FitsArrays table instructions := by
  refine ⟨fun i _ => (bucket_length_le i).trans (hle.trans (by decide)), ?_⟩
  have hflat := Flattened.length_foldl_le
    ((List.range decoderHashTableSize).map (generateHashTable table instructions))
    (n := instructions.length) (by simp [bucket_length_le])
  rw [List.length_map, List.length_range] at hflat
  refine hflat.trans ?_
  simp only [decoderHashTableSize]
  omega

theorem decode_eq_none (hfits : FitsArrays table instructions) {w : BitVec 32}
    (hall : ∀ d ∈ instructions, d.matchesWord w = false) :
    balDecodeArm64 (generateFiles table instructions).decoderTable w = none := by
  have hmem := (candidatesOf_spec hfits.count hfits.flat (w.extractLsb' 21 11)).2
  rw [decode_eq_find?, Option.map_eq_none_iff, List.find?_eq_none]
  intro c hc
  simp [hall c (hmem c hc)]

/-- The decoder returns a matching descriptor of the least rank. -/
theorem exists_decode (hfits : FitsArrays table instructions) {w : BitVec 32} {a : Descriptor}
    (ha : a ∈ instructions) (hmatch : a.matchesWord w = true) :
    ∃ d ∈ instructions, balDecodeArm64 (generateFiles table instructions).decoderTable w =
        some d.metadata ∧ d.matchesWord w = true ∧
      ∀ e ∈ instructions, e.matchesWord w = true → d.rank ≤ e.rank := by
  obtain ⟨hranks, hmem⟩ := candidatesOf_spec hfits.count hfits.flat (w.extractLsb' 21 11)
  rw [decode_eq_find?]
  generalize (generateFiles table instructions).candidatesOf _ = candidates at hranks hmem ⊢
  obtain ⟨d, hd, -⟩ := find?_candidates hranks ha hmatch
  refine ⟨d, hmem d (List.mem_of_find?_eq_some hd), by rw [hd, Option.map_some],
    by simpa using List.find?_some hd, fun e he hematch => ?_⟩
  obtain ⟨c, hc, hle⟩ := find?_candidates hranks he hematch
  obtain rfl := Option.some.inj (hc.symm.trans hd)
  exact hle

/-- **Bucketed decode is a linear scan.** The decoder finds nothing exactly if no descriptor of the
list matches, and otherwise one that matches and that no matching descriptor precedes. -/
theorem bucketedDecode (table : TableSort Descriptor.precedes) (instructions : List Descriptor)
    (hfits : FitsArrays table instructions) (w : BitVec 32) :
    (balDecodeArm64 (generateFiles table instructions).decoderTable w = none ↔
      ∀ d ∈ instructions, d.matchesWord w = false) ∧
    ∀ m, balDecodeArm64 (generateFiles table instructions).decoderTable w = some m →
      ∃ d ∈ instructions, m = d.metadata ∧ d.matchesWord w = true ∧
        ∀ e ∈ instructions, e.matchesWord w = true → e.precedes d = false := by
  by_cases hall : ∀ d ∈ instructions, d.matchesWord w = false
  · have hnone := decode_eq_none hfits hall
    refine ⟨iff_of_true hnone hall, fun m hm => ?_⟩
    rw [hnone] at hm
    cases hm
  · obtain ⟨a, ha, hmatch⟩ : ∃ a ∈ instructions, a.matchesWord w = true := by
      by_contra hnot
      exact hall fun d hd => by simpa using fun h => hnot ⟨d, hd, h⟩
    obtain ⟨d, hd, hdecode, hdmatch, hleast⟩ := exists_decode hfits ha hmatch
    rw [hdecode]
    refine ⟨iff_of_false (Option.some_ne_none _) hall, fun m hm => ?_⟩
    exact ⟨d, hd, (Option.some.inj hm).symm, hdmatch, fun e he hematch =>
      Descriptor.not_precedes_iff.mpr (hleast e he hematch)⟩

/-- A merge sort in the order of the comparison. -/
def mergeSortTable : TableSort Descriptor.precedes where
  sort l := l.mergeSort fun a b => !b.precedes a
  perm l := List.mergeSort_perm l _
  ordered l := by
    have hsorted := @List.pairwise_mergeSort _ (fun a b => !Descriptor.precedes b a)
      (fun a b c => by
        simp only [Bool.not_eq_true', Descriptor.not_precedes_iff]
        exact le_trans)
      (fun a b => by
        simp only [Bool.or_eq_true, Bool.not_eq_true', Descriptor.not_precedes_iff]
        exact le_total a.rank b.rank) l
    simpa using hsorted

theorem bucketedDecode_hint :
    let hint : Descriptor := ⟨['H', 'I', 'N', 'T'], 0xFFFFF01F, 0xD503201F, 0, []⟩
    let nop : Descriptor := ⟨['N', 'O', 'P'], 0xFFFFFFFF, 0xD503201F, 0, []⟩
    let decode := balDecodeArm64 (generateFiles mergeSortTable [nop, hint]).decoderTable
    (decode 0xD503205F = none ↔ ∀ d ∈ [nop, hint], d.matchesWord 0xD503205F = false) ∧
    ∀ m, decode 0xD503205F = some m →
      ∃ d ∈ [nop, hint], m = d.metadata ∧ d.matchesWord 0xD503205F = true ∧
        ∀ e ∈ [nop, hint], e.matchesWord 0xD503205F = true → e.precedes d = false :=
  bucketedDecode _ _ (fitsArrays_of_length_le (by decide)) _

end Decode

end Ballistic
