import Mathlib.Data.List.Basic
import Mathlib.Data.List.Infix
import Mathlib.Tactic.Common

/-!
# The string library of Lua

`string.find` with the plain option and `string.gmatch`, on the rest of the subject string instead of
on a position in it. A pattern is a list of items, each a class of symbols with a repetition. A
repetition is greedy and gives symbols back one at a time when the items behind it do not match, so
whether it takes the whole run is a property of what follows: it does when no item behind it can start
with a symbol of its own class.
-/

namespace Lua

variable {α β : Type*}

/-! ### Plain search -/

section Find

variable [DecidableEq α]

/-- What stands before the first occurrence of `what`, and what stands behind it. -/
def find (what : List α) : List α → Option (List α × List α)
  | [] => if what = [] then some ([], []) else none
  | c :: s =>
      if what <+: c :: s then some ([], (c :: s).drop what.length)
      else (find what s).map fun (before, after) => (c :: before, after)

variable {what s before after : List α}

/-- What `find` returns are the two sides of an occurrence. -/
theorem eq_append_of_find (hfind : find what s = some (before, after)) :
    s = before ++ what ++ after := by
  induction s generalizing before with
  | nil =>
      rw [find] at hfind
      split at hfind
      case isTrue hempty =>
        obtain ⟨rfl, rfl⟩ := Prod.mk.inj (Option.some.inj hfind)
        rw [hempty, List.nil_append, List.nil_append]
      case isFalse => cases hfind
  | cons c s ih =>
      rw [find] at hfind
      split at hfind
      case isTrue hstarts =>
        obtain ⟨rfl, rfl⟩ := Prod.mk.inj (Option.some.inj hfind)
        exact (List.prefix_iff_eq_append.mp hstarts).symm
      case isFalse =>
        obtain ⟨⟨before', after'⟩, hrest, heq⟩ := Option.map_eq_some_iff.mp hfind
        obtain ⟨rfl, rfl⟩ := Prod.mk.inj heq
        rw [ih hrest, List.cons_append, List.cons_append]

theorem length_of_find (hfind : find what s = some (before, after)) :
    after.length + what.length ≤ s.length := by
  rw [eq_append_of_find hfind]
  simp only [List.length_append]
  omega

theorem find_append (hfirst : ∀ i < before.length, ¬what <+: (before ++ (what ++ after)).drop i) :
    find what (before ++ (what ++ after)) = some (before, after) := by
  induction before with
  | nil =>
      have hstarts : what <+: what ++ after := List.prefix_append what after
      rw [List.nil_append]
      cases hs : what ++ after with
      | nil =>
          obtain ⟨rfl, rfl⟩ := List.append_eq_nil_iff.mp hs
          rfl
      | cons c s => rw [find, if_pos (hs ▸ hstarts), ← hs, List.drop_left]
  | cons c before ih =>
      have hhere := hfirst 0 (Nat.succ_pos _)
      rw [List.drop_zero, List.cons_append] at hhere
      have hrest := ih fun i hi => hfirst (i + 1) (Nat.succ_lt_succ hi)
      rw [List.cons_append, find, if_neg hhere, hrest]
      rfl

/-- No tail of the string is a head of it, so two occurrences do not overlap. -/
def Unbordered (what : List α) : Prop := ∀ k < what.length, 0 < k → ¬what.drop k <+: what

instance : Decidable (Unbordered what) := by unfold Unbordered; infer_instance

/-- Text that does not contain `what` stays what stands before it when `what` is appended. -/
theorem find_append_of_not_infix (hborder : Unbordered what) (hnot : ¬what <:+: before) :
    find what (before ++ (what ++ after)) = some (before, after) := by
  apply find_append
  intro i hi hstarts
  rw [List.drop_append_of_le_length hi.le] at hstarts
  have hdrop : (before.drop i).length = before.length - i := List.length_drop
  by_cases hlong : what.length ≤ (before.drop i).length
  · have hinside := List.prefix_of_prefix_length_le hstarts (List.prefix_append _ _) hlong
    exact hnot (hinside.isInfix.trans (List.drop_suffix i before).isInfix)
  · have hhead : before.drop i <+: what :=
      List.prefix_of_prefix_length_le (List.prefix_append _ _) hstarts (by omega)
    obtain ⟨tail, htail⟩ := hhead
    have hlength := congrArg List.length htail
    rw [List.length_append] at hlength
    -- the rest of the occurrence is read off the appended one
    have htailStarts : tail <+: what ++ after := by
      rw [← htail, List.prefix_append_right_inj] at hstarts
      rwa [htail] at hstarts
    refine hborder (before.drop i).length (by omega) (by omega) ?_
    have hrest : what.drop (before.drop i).length = tail := by
      conv_lhs => rw [← htail]
      exact List.drop_left
    rw [hrest]
    exact List.prefix_of_prefix_length_le htailStarts (List.prefix_append _ _) (by omega)

omit [DecidableEq α] in
theorem unbordered_singleton (c : α) : Unbordered [c] := by
  intro k hk hpos
  rw [List.length_singleton] at hk
  omega

theorem find_singleton {c : α} (hnot : c ∉ before) :
    find [c] (before ++ c :: after) = some (before, after) :=
  find_append_of_not_infix (unbordered_singleton c)
    fun hinside => hnot (hinside.subset (List.mem_singleton_self c))

theorem find_singleton_none {c : α} (hnot : c ∉ s) : find [c] s = none := by
  cases hfind : find [c] s with
  | none => rfl
  | some p =>
      exfalso
      apply hnot
      rw [eq_append_of_find hfind]
      simp

end Find

/-! ### Patterns -/

/-- `%s`. -/
def isSpace (c : Char) : Bool := c == ' ' || ('\t' ≤ c && c ≤ '\r')

inductive Repetition where
  | once
  | star
  | plus
  deriving DecidableEq, Repr

/-- A class of symbols, how often it is matched, and whether it stands in parentheses. -/
structure Item (α : Type*) where
  accepts : α → Bool
  repetition : Repetition
  captured : Bool

def Item.capture (item : Item α) (run : List α) (captures : List (List α)) : List (List α) :=
  if item.captured then run :: captures else captures

/-- The longest run first, then the shorter ones; `run` is what has been taken so far. -/
def maxExpand (accepts : α → Bool) (next : List α → List α → Option β) :
    List α → List α → Option β
  | run, [] => next run []
  | run, c :: s =>
      if accepts c then (maxExpand accepts next (run ++ [c]) s).or (next run (c :: s))
      else next run (c :: s)

/-- A match at the start of the string: the captures, and what stands behind it. -/
def matchItems : List (Item α) → List α → Option (List (List α) × List α)
  | [], s => some ([], s)
  | item :: items, s =>
      let next := fun run s =>
        (matchItems items s).map fun (captures, rest) => (item.capture run captures, rest)
      match item.repetition, s with
      | .once, [] => none
      | .once, c :: s => if item.accepts c then next [c] s else none
      | .star, s => maxExpand item.accepts next [] s
      | .plus, [] => none
      | .plus, c :: s => if item.accepts c then maxExpand item.accepts next [c] s else none

/-- The captures of all matches from left to right. A match that takes nothing moves one symbol on. -/
def gmatch (items : List (Item α)) : List α → List (List (List α))
  | [] =>
      match matchItems items [] with
      | none => []
      | some (captures, _) => [captures]
  | c :: s =>
      match matchItems items (c :: s) with
      | none => gmatch items s
      | some (captures, rest) =>
          if rest.length ≤ s.length then captures :: gmatch items rest
          else captures :: gmatch items s
termination_by s => s.length

section Matching

variable {accepts : α → Bool} {items : List (Item α)} {captured : Bool}
  {run rest s : List α} {captures : List (List α)}

/-- Nothing is given back when the items behind cannot go on from a symbol of the class. -/
theorem maxExpand_eq {next : List α → List α → Option β}
    (hnext : ∀ run c s, accepts c → next run (c :: s) = none) (run s : List α) :
    maxExpand accepts next run s = next (run ++ s.takeWhile accepts) (s.dropWhile accepts) := by
  induction s generalizing run with
  | nil => rw [maxExpand, List.takeWhile_nil, List.dropWhile_nil, List.append_nil]
  | cons c s ih =>
      by_cases hc : accepts c
      · rw [maxExpand, if_pos hc, ih, hnext run c s hc, Option.or_none, List.takeWhile_cons_of_pos hc,
          List.dropWhile_cons_of_pos hc, List.append_assoc, List.singleton_append]
      · rw [maxExpand, if_neg hc, List.takeWhile_cons_of_neg hc, List.dropWhile_cons_of_neg hc,
          List.append_nil]

/-- The items cannot start with a symbol of the class. -/
def Refuses (items : List (Item α)) (accepts : α → Bool) : Prop :=
  ∀ c s, accepts c → matchItems items (c :: s) = none

theorem takeWhile_run (hrun : ∀ c ∈ run, accepts c) (hrest : ∀ c ∈ rest.head?, ¬accepts c) :
    (run ++ rest).takeWhile accepts = run := by
  rw [List.takeWhile_append_of_pos hrun]
  cases rest with
  | nil => rw [List.takeWhile_nil, List.append_nil]
  | cons c rest => rw [List.takeWhile_cons_of_neg (hrest c rfl), List.append_nil]

theorem dropWhile_run (hrun : ∀ c ∈ run, accepts c) (hrest : ∀ c ∈ rest.head?, ¬accepts c) :
    (run ++ rest).dropWhile accepts = rest := by
  rw [List.dropWhile_append_of_pos hrun]
  cases rest with
  | nil => rw [List.dropWhile_nil]
  | cons c rest => rw [List.dropWhile_cons_of_neg (hrest c rfl)]

theorem matchItems_once {c : α} (hc : accepts c) :
    matchItems (⟨accepts, .once, captured⟩ :: items) (c :: s) =
      (matchItems items s).map fun (captures, rest) =>
        (Item.capture ⟨accepts, .once, captured⟩ [c] captures, rest) := by
  simp only [matchItems, if_pos hc]

theorem matchItems_once_none {c : α} (hc : ¬accepts c) :
    matchItems (⟨accepts, .once, captured⟩ :: items) (c :: s) = none := by
  simp only [matchItems, if_neg hc]

theorem matchItems_star (hrun : ∀ c ∈ run, accepts c) (hrest : ∀ c ∈ rest.head?, ¬accepts c)
    (hrefuses : Refuses items accepts) :
    matchItems (⟨accepts, .star, captured⟩ :: items) (run ++ rest) =
      (matchItems items rest).map fun (captures, rest) =>
        (Item.capture ⟨accepts, .star, captured⟩ run captures, rest) := by
  simp only [matchItems]
  rw [maxExpand_eq fun run c s hc => by rw [hrefuses c s hc, Option.map_none], List.nil_append,
    takeWhile_run hrun hrest, dropWhile_run hrun hrest]

theorem matchItems_plus (hne : run ≠ []) (hrun : ∀ c ∈ run, accepts c)
    (hrest : ∀ c ∈ rest.head?, ¬accepts c) (hrefuses : Refuses items accepts) :
    matchItems (⟨accepts, .plus, captured⟩ :: items) (run ++ rest) =
      (matchItems items rest).map fun (captures, rest) =>
        (Item.capture ⟨accepts, .plus, captured⟩ run captures, rest) := by
  cases run with
  | nil => exact absurd rfl hne
  | cons c run =>
      have hc : accepts c := hrun c List.mem_cons_self
      have htail : ∀ c ∈ run, accepts c := fun c hc => hrun c (List.mem_cons_of_mem _ hc)
      rw [List.cons_append]
      simp only [matchItems, if_pos hc]
      rw [maxExpand_eq fun run c s hc => by rw [hrefuses c s hc, Option.map_none],
        List.singleton_append, takeWhile_run htail hrest, dropWhile_run htail hrest]

/-- A starred class that a symbol is not in leaves it to the items behind. -/
theorem matchItems_star_of_not {c : α} (hc : ¬accepts c) :
    matchItems (⟨accepts, .star, captured⟩ :: items) (c :: s) =
      (matchItems items (c :: s)).map fun (captures, rest) =>
        (Item.capture ⟨accepts, .star, captured⟩ [] captures, rest) := by
  simp only [matchItems, maxExpand, if_neg hc]

theorem matchItems_plus_none {c : α} (hc : ¬accepts c) :
    matchItems (⟨accepts, .plus, captured⟩ :: items) (c :: s) = none := by
  simp only [matchItems, if_neg hc]

theorem gmatch_cons_of_none {c : α} (hnone : matchItems items (c :: s) = none) :
    gmatch items (c :: s) = gmatch items s := by
  rw [gmatch, hnone]

theorem gmatch_of_match (hmatch : matchItems items s = some (captures, rest))
    (hshorter : rest.length < s.length) : gmatch items s = captures :: gmatch items rest := by
  cases s with
  | nil => exact absurd hshorter (Nat.not_lt_zero _)
  | cons c s =>
      rw [gmatch, hmatch]
      exact if_pos (Nat.le_of_lt_succ hshorter)

end Matching

end Lua
