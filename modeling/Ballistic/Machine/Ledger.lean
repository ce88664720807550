import Mathlib.Algebra.Order.Group.Multiset

/-!
# Ledgers of resources

Resources are acquired and released one after the other. The balance of such a sequence is what is
held after it, if nothing was released that was not held; a sequence that balances does so whatever
else is held (`balance_frame`).
-/

namespace Machine

inductive ResourceEvent (R : Type*) where
  | acquire (r : R)
  | release (r : R)
  deriving DecidableEq, Repr

namespace Ledger

variable {R : Type*} [DecidableEq R] {held held' others : Multiset R}
  {events events' : List (ResourceEvent R)}

def post (held : Multiset R) : ResourceEvent R → Option (Multiset R)
  | .acquire r => some (r ::ₘ held)
  | .release r => if r ∈ held then some (held.erase r) else none

/-- What is held in the end; none if something is released that is not held. -/
def balance (held : Multiset R) (events : List (ResourceEvent R)) : Option (Multiset R) :=
  events.foldlM post held

@[simp]
theorem balance_nil (held : Multiset R) : balance held [] = some held := rfl

theorem balance_append (held : Multiset R) (events events' : List (ResourceEvent R)) :
    balance held (events ++ events') =
      (balance held events).bind fun held' => balance held' events' := List.foldlM_append

theorem balance_trans {held'' : Multiset R} (h : balance held events = some held')
    (h' : balance held' events' = some held'') :
    balance held (events ++ events') = some held'' := by
  rw [balance_append, h, Option.bind_some, h']

theorem balance_acquire (held : Multiset R) (r : R) :
    balance held [.acquire r] = some (r ::ₘ held) := rfl

theorem balance_release (held : Multiset R) (r : R) :
    balance (r ::ₘ held) [.release r] = some held := by
  have hpost : post (r ::ₘ held) (.release r) = some held := by
    rw [post, if_pos (Multiset.mem_cons_self r held), Multiset.erase_cons_head]
  rw [balance, List.foldlM_cons, hpost]
  rfl

theorem post_frame {event : ResourceEvent R} (h : post held event = some held')
    (others : Multiset R) : post (held + others) event = some (held' + others) := by
  cases event with
  | acquire r =>
      cases h
      rw [post, Multiset.cons_add]
  | release r =>
      by_cases hmem : r ∈ held
      · rw [post, if_pos hmem] at h
        cases h
        rw [post, if_pos (Multiset.mem_add.mpr (.inl hmem)), Multiset.erase_add_left_pos others hmem]
      · rw [post, if_neg hmem] at h
        cases h

/-- **The frame rule.** -/
theorem balance_frame (h : balance held events = some held') (others : Multiset R) :
    balance (held + others) events = some (held' + others) := by
  induction events generalizing held with
  | nil =>
      cases h
      rfl
  | cons event events ih =>
      obtain ⟨next, hpost, hrest⟩ := Option.bind_eq_some_iff.mp h
      refine Option.bind_eq_some_iff.mpr ⟨next + others, post_frame hpost others, ?_⟩
      exact ih hrest

end Ledger

end Machine
