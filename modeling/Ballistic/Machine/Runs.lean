import Mathlib.Computability.StateTransition

/-!
# Runs of a partial step function

`StateTransition.Reaches` with its steps counted. A run that halts is split at any state that is
reached on the way (`stepN_split`), and is followed by a machine that takes it in strides
(`halts_induction`).
-/

namespace Machine

open StateTransition

variable {σ : Type*} {next : σ → Option σ} {s t u : σ}

/-- `n` steps, if none of them is from a state where the machine has halted. -/
def stepN (next : σ → Option σ) : Nat → σ → Option σ
  | 0, s => some s
  | n + 1, s => (next s).bind (stepN next n)

@[simp]
theorem stepN_zero (s : σ) : stepN next 0 s = some s := rfl

theorem stepN_succ (n : Nat) (s : σ) : stepN next (n + 1) s = (next s).bind (stepN next n) := rfl

theorem stepN_add (m n : Nat) (s : σ) :
    stepN next (m + n) s = (stepN next m s).bind (stepN next n) := by
  induction m generalizing s with
  | zero => rw [Nat.zero_add, stepN_zero, Option.bind_some]
  | succ m ih =>
      rw [Nat.succ_add, stepN_succ, stepN_succ, Option.bind_assoc]
      congr 1
      funext s'
      exact ih s'

/-- A machine that takes the steps of another one takes its runs. -/
theorem stepN_mono {next' : σ → Option σ} (h : ∀ {s t}, next s = some t → next' s = some t) {n : Nat}
    (hsteps : stepN next n s = some t) : stepN next' n s = some t := by
  induction n generalizing s with
  | zero => exact hsteps
  | succ n ih =>
      obtain ⟨s', hstep, hrest⟩ := Option.bind_eq_some_iff.mp hsteps
      rw [stepN_succ, h hstep, Option.bind_some]
      exact ih hrest

theorem reaches_of_stepN {n : Nat} (h : stepN next n s = some t) : Reaches next s t := by
  induction n generalizing s with
  | zero =>
      rw [stepN_zero, Option.some.injEq] at h
      rw [h]
      exact .refl
  | succ n ih =>
      obtain ⟨s', hstep, hrest⟩ := Option.bind_eq_some_iff.mp h
      exact (ih hrest).head hstep

/-- No run is longer than the one that halts, and what is left of that one from a state on the way
halts as well. -/
theorem stepN_split {m n : Nat} (hhalts : next t = none) (h : stepN next n s = some t)
    (h' : stepN next m s = some u) : m ≤ n ∧ stepN next (n - m) u = some t := by
  rcases Nat.le_total m n with hle | hle
  · refine ⟨hle, ?_⟩
    obtain ⟨k, rfl⟩ := Nat.exists_eq_add_of_le hle
    rw [stepN_add, h', Option.bind_some] at h
    rwa [Nat.add_sub_cancel_left]
  · obtain ⟨k, rfl⟩ := Nat.exists_eq_add_of_le hle
    rw [stepN_add, h, Option.bind_some] at h'
    cases k with
    | zero =>
        cases h'
        exact ⟨le_rfl, by rw [Nat.add_zero, Nat.sub_self, stepN_zero]⟩
    | succ k =>
        rw [stepN_succ, hhalts] at h'
        cases h'

/-- A property of the states of a run that halts, with the steps that are left: it holds at the end,
and from any other state there is a stride to a later one from which it follows. The invariant is
what a stride needs. -/
theorem halts_induction {P : Nat → σ → Prop} (invariant : σ → Prop) (hhalts : next t = none)
    (hend : P 0 t)
    (hstride : ∀ n s, invariant s → next s ≠ none →
      ∃ m u, 0 < m ∧ stepN next m s = some u ∧ invariant u ∧ (m ≤ n → P (n - m) u → P n s))
    {n : Nat} (hinvariant : invariant s) (h : stepN next n s = some t) : P n s := by
  induction n using Nat.strong_induction_on generalizing s with
  | h n ih =>
      by_cases hnext : next s = none
      · cases n with
        | zero =>
            cases h
            exact hend
        | succ n =>
            rw [stepN_succ, hnext] at h
            cases h
      · obtain ⟨m, u, hpos, hsteps, hlater, hstep⟩ := hstride n s hinvariant hnext
        obtain ⟨hle, hrest⟩ := stepN_split hhalts h hsteps
        exact hstep hle (ih (n - m) (by omega) hlater hrest)

/-! ### Relations -/

variable {r : σ → σ → Prop}

/-- Every run ends in which a number decreases. -/
theorem acc_of_decreases {P : σ → Prop} (f : σ → Nat)
    (hstep : ∀ {s t}, P s → r s t → P t ∧ f t < f s) (hs : P s) : Acc (fun t s => r s t) s := by
  induction hn : f s using Nat.strong_induction_on generalizing s with
  | h n ih =>
      subst hn
      refine Acc.intro s fun t hst => ?_
      obtain ⟨ht, hlt⟩ := hstep hs hst
      exact ih (f t) hlt ht rfl

/-- A run that ends somewhere. -/
theorem exists_end_of_acc (h : Acc (fun t s => r s t) s) :
    ∃ t, Relation.ReflTransGen r s t ∧ ∀ u, ¬r t u := by
  induction h with
  | intro s _ ih =>
      by_cases hend : ∃ t, r s t
      · obtain ⟨t, hst⟩ := hend
        obtain ⟨u, hrun, hlast⟩ := ih t hst
        exact ⟨u, hrun.head hst, hlast⟩
      · exact ⟨s, .refl, fun t hst => hend ⟨t, hst⟩⟩

/-! ### What holds since a step -/

section Since

variable {α : Type*} (perform : σ → α → σ) (sets clears : σ → α → Prop)

/-- Some step has set it, and no later one has cleared it. -/
def Since (s : σ) (steps : List α) : Prop :=
  ∃ before a after, steps = before ++ a :: after ∧ sets (before.foldl perform s) a ∧
    ∀ before' a' after', after = before' ++ a' :: after' →
      ¬clears ((before ++ a :: before').foldl perform s) a'

theorem since_append_singleton {steps : List α} {a : α} :
    Since perform sets clears s (steps ++ [a]) ↔ sets (steps.foldl perform s) a ∨
      Since perform sets clears s steps ∧ ¬clears (steps.foldl perform s) a := by
  constructor
  · rintro ⟨before, a₀, after, hsplit, hsets, hkept⟩
    rcases List.eq_nil_or_concat' after with rfl | ⟨after₀, a₁, rfl⟩
    · obtain ⟨rfl, hlast⟩ := List.append_inj' hsplit rfl
      cases hlast
      exact .inl hsets
    · rw [← List.cons_append, ← List.append_assoc] at hsplit
      obtain ⟨rfl, hlast⟩ := List.append_inj' hsplit rfl
      cases hlast
      refine .inr ⟨⟨before, a₀, after₀, rfl, hsets, ?_⟩, hkept after₀ a [] rfl⟩
      intro before' a' after' hafter
      refine hkept before' a' (after' ++ [a]) ?_
      rw [hafter, List.append_assoc, List.cons_append]
  · rintro (hsets | ⟨⟨before, a₀, after, rfl, hsets, hkept⟩, hclears⟩)
    · exact ⟨steps, a, [], rfl, hsets, by simp⟩
    · refine ⟨before, a₀, after ++ [a], by simp, hsets, ?_⟩
      intro before' a' after' hafter
      rcases List.eq_nil_or_concat' after' with rfl | ⟨after₀, a₁, rfl⟩
      · obtain ⟨rfl, hlast⟩ := List.append_inj' hafter rfl
        cases hlast
        exact hclears
      · rw [← List.cons_append, ← List.append_assoc] at hafter
        obtain ⟨rfl, -⟩ := List.append_inj' hafter rfl
        exact hkept before' a' after₀ rfl

/-- What every step changes in this way holds since a step. -/
theorem holds_iff_since (holds : σ → Prop) (hstart : ¬holds s)
    (hstep : ∀ s a, holds (perform s a) ↔ sets s a ∨ holds s ∧ ¬clears s a) (steps : List α) :
    holds (steps.foldl perform s) ↔ Since perform sets clears s steps := by
  induction steps using List.reverseRecOn with
  | nil =>
      refine iff_of_false hstart ?_
      rintro ⟨before, a, after, hsplit, -⟩
      simp at hsplit
  | append_singleton steps a ih =>
      rw [List.foldl_append, List.foldl_cons, List.foldl_nil, hstep, ih, since_append_singleton]

end Since

end Machine
