import Mathlib.Data.List.Perm.Lattice
import Mathlib.Data.List.Sort
import Mathlib.Order.Lattice

/-!
# Lists in order of rank

Elements are compared by a rank in a linear order, so different elements may tie. What a sorted list
is good for does not depend on the order within a tie: the first element that satisfies a predicate
has the least rank among all that do.

`rank_eq_of_flatten_eq` is about lists that are written out as one sequence of symbols and compared
by it. Two sorted selections from the same source with the same symbols have the same ranks, although
the symbols do not determine the lists: a symbol sequence can be cut into pieces in more than one
way, and pieces of a tie may be exchanged. It is enough that the first piece can be told from the
symbols up to a tag, that ranks refine tags, and that the selections go by tags.
-/

namespace Ranked

variable {α ρ τ β : Type*} [LinearOrder ρ] {rank : α → ρ}

/-- The first element found in a sorted list has the least rank. -/
theorem rank_le_of_find? {l : List α} (hsorted : l.Pairwise fun a b => rank a ≤ rank b)
    {p : α → Bool} {x : α} (hfind : l.find? p = some x) : ∀ y ∈ l, p y = true → rank x ≤ rank y := by
  obtain ⟨-, before, after, rfl, hbefore⟩ := List.find?_eq_some_iff_append.mp hfind
  intro y hy hpy
  rw [List.mem_append, List.mem_cons] at hy
  rcases hy with hy | rfl | hy
  · have hnot := hbefore y hy
    rw [hpy] at hnot
    cases hnot
  · exact le_rfl
  · have htail := (List.pairwise_append.mp hsorted).2.1
    exact (List.pairwise_cons.mp htail).1 y hy

/-- In descending order the elements of the greatest rank come first. -/
theorem filter_append_filter_of_le {l : List α} (hsorted : l.Pairwise fun a b => rank b ≤ rank a)
    {r : ρ} (hle : ∀ a ∈ l, rank a ≤ r) :
    l.filter (fun a => rank a = r) ++ l.filter (fun a => !decide (rank a = r)) = l := by
  induction l with
  | nil => rfl
  | cons a l ih =>
      obtain ⟨hhead, htail⟩ := List.pairwise_cons.mp hsorted
      have hrest := ih htail fun b hb => hle b (List.mem_cons_of_mem a hb)
      by_cases hrank : rank a = r
      · simp only [List.filter_cons, hrank, decide_true, Bool.not_true, if_true,
          Bool.false_eq_true, if_false, List.cons_append, hrest]
      · have hbelow : ∀ b ∈ l, rank b ≠ r := by
          intro b hb heq
          have hlt := lt_of_le_of_ne (hle a List.mem_cons_self) hrank
          exact absurd (heq ▸ hhead b hb) (not_le.mpr hlt)
        have hnone : l.filter (fun b => decide (rank b = r)) = [] := by
          rw [List.filter_eq_nil_iff]
          intro b hb
          simpa using hbelow b hb
        rw [hnone, List.nil_append] at hrest
        simp only [List.filter_cons, hrank, decide_false, Bool.not_false, if_true,
          Bool.false_eq_true, if_false, hnone, List.nil_append, hrest]

theorem le_head {a : α} {l : List α} (hsorted : (a :: l).Pairwise fun a b => rank b ≤ rank a) :
    ∀ b ∈ a :: l, rank b ≤ rank a := by
  intro b hb
  rcases List.mem_cons.mp hb with rfl | hb
  · exact le_rfl
  · exact (List.pairwise_cons.mp hsorted).1 b hb

theorem length_flatten_map_eq_of_perm {l m : List α} (h : l.Perm m) (piece : α → List β) :
    (l.map piece).flatten.length = (m.map piece).flatten.length := by
  exact (h.map piece).flatten.length_eq

theorem map_rank_filter_eq (l : List α) (r : ρ) :
    (l.filter fun a => rank a = r).map rank =
      List.replicate (l.filter fun a => rank a = r).length r := by
  refine List.eq_replicate_iff.mpr ⟨List.length_map _, fun b hb => ?_⟩
  obtain ⟨a, ha, rfl⟩ := List.mem_map.mp hb
  simpa using (List.mem_filter.mp ha).2

theorem perm_filter_tie {source l : List α} {p : α → Bool} {r : ρ} (hl : l.Perm (source.filter p))
    (hp : ∀ x, rank x = r → p x = true) :
    (l.filter fun x => rank x = r).Perm (source.filter fun x => rank x = r) := by
  refine (hl.filter _).trans ?_
  rw [List.filter_filter]
  refine List.Perm.of_eq (List.filter_congr fun x _ => ?_)
  by_cases hx : rank x = r
  · simp [hx, hp x hx]
  · simp [hx]

theorem perm_filter_rest {source l : List α} {p : α → Bool} (hl : l.Perm (source.filter p))
    (q : α → Bool) : (l.filter q).Perm ((source.filter q).filter p) := by
  refine (hl.filter q).trans ?_
  rw [List.filter_filter, List.filter_filter]
  exact List.Perm.of_eq (List.filter_congr fun x _ => Bool.and_comm _ _)

section Serialised

variable (rank) (piece : α → List β) (tag : α → τ)

/-- **Sorted selections with the same symbols have the same ranks.** -/
theorem rank_eq_of_flatten_eq (hne : ∀ a, piece a ≠ [])
    (hpiece : ∀ a b s t, piece a ++ s = piece b ++ t → tag a = tag b)
    (hrank : ∀ a b, rank a = rank b → tag a = tag b) {p q : α → Bool}
    (hp : ∀ a b, tag a = tag b → p a = p b) (hq : ∀ a b, tag a = tag b → q a = q b)
    (n : Nat) : ∀ (source l m : List α), source.length ≤ n →
      l.Perm (source.filter p) → m.Perm (source.filter q) →
      l.Pairwise (fun a b => rank b ≤ rank a) → m.Pairwise (fun a b => rank b ≤ rank a) →
      (l.map piece).flatten = (m.map piece).flatten → l.map rank = m.map rank := by
  have hnil : ∀ l : List α, (l.map piece).flatten = [] → l = [] := by
    intro l hl
    cases l with
    | nil => rfl
    | cons a l =>
        rw [List.map_cons, List.flatten_cons, List.append_eq_nil_iff] at hl
        exact absurd hl.1 (hne a)
  induction n with
  | zero =>
      intro source l m hlength hl hm _ _ _
      obtain rfl := List.length_eq_zero_iff.mp (Nat.le_zero.mp hlength)
      rw [hl.eq_nil, hm.eq_nil]
  | succ n ih =>
      intro source l m hlength hl hm hlsorted hmsorted hsymbols
      cases l with
      | nil => rw [hnil m hsymbols.symm]
      | cons a l =>
          cases m with
          | nil => exact absurd (hnil _ hsymbols) (List.cons_ne_nil a l)
          | cons b m =>
              rw [List.map_cons, List.map_cons, List.flatten_cons, List.flatten_cons] at hsymbols
              have htag := hpiece a b _ _ hsymbols
              obtain ⟨haSource, hpa⟩ := List.mem_filter.mp (hl.subset List.mem_cons_self)
              obtain ⟨hbSource, hqb⟩ := List.mem_filter.mp (hm.subset List.mem_cons_self)
              have hbl : b ∈ a :: l :=
                hl.symm.subset (List.mem_filter.mpr ⟨hbSource, hp a b htag ▸ hpa⟩)
              have ham : a ∈ b :: m :=
                hm.symm.subset (List.mem_filter.mpr ⟨haSource, hq a b htag ▸ hqb⟩)
              have hla := le_head hlsorted
              have hmb := le_head hmsorted
              have hr : rank a = rank b := le_antisymm (hmb a ham) (hla b hbl)
              -- cut the elements of the greatest rank off both lists
              have htie : ((a :: l).filter fun x => rank x = rank a).Perm
                  ((b :: m).filter fun x => rank x = rank a) :=
                (perm_filter_tie hl fun x hx => (hp x a (hrank x a hx)).trans hpa).trans
                  (perm_filter_tie hm fun x hx =>
                    (hq x b (hrank x b (hx.trans hr))).trans hqb).symm
              have hlsplit := filter_append_filter_of_le hlsorted hla
              have hmsplit := filter_append_filter_of_le hmsorted (hr ▸ hmb)
              rw [← List.flatten_cons, ← List.flatten_cons, ← List.map_cons, ← List.map_cons,
                ← hlsplit, ← hmsplit, List.map_append, List.map_append, List.flatten_append,
                List.flatten_append] at hsymbols
              have hrest := (List.append_inj hsymbols
                (length_flatten_map_eq_of_perm htie piece)).2
              have hshorter : (source.filter fun x => !decide (rank x = rank a)).length ≤ n := by
                have hdropped : ∃ x ∈ source, ¬(!decide (rank x = rank a)) = true :=
                  ⟨a, haSource, by simp⟩
                have hlt := List.length_filter_lt_length_iff_exists.mpr hdropped
                omega
              have hranks := ih _ _ _ hshorter (perm_filter_rest hl _) (perm_filter_rest hm _)
                (hlsorted.filter _) (hmsorted.filter _) hrest
              rw [← hlsplit, ← hmsplit, List.map_append, List.map_append, hranks,
                map_rank_filter_eq, map_rank_filter_eq, htie.length_eq]

end Serialised

end Ranked
