import Mathlib.Logic.Function.Basic
import Mathlib.Tactic.Common

/-!
# Stores without an order

A memory that several writers store to at the same time: the stores take effect in some
order, and nothing is known of this order.

Results:
1. `apply_eq_self`: a cell that is not stored to keeps what it holds.
2. `apply_eq_stored`: a cell that is stored to holds a value that was stored to it.
-/

namespace Stores

variable {α β : Type*} [DecidableEq α]

/-- The memory after some stores, in this order. -/
def apply (m : α → β) (stores : List (α × β)) : α → β :=
  stores.foldl (fun m store => Function.update m store.1 store.2) m

variable {m : α → β} {stores : List (α × β)} {a : α}

@[simp] theorem apply_nil (m : α → β) : apply m [] = m := rfl

@[simp] theorem apply_cons (m : α → β) (store : α × β) (stores : List (α × β)) :
    apply m (store :: stores) = apply (Function.update m store.1 store.2) stores := rfl

theorem apply_eq_self (h : ∀ store ∈ stores, store.1 ≠ a) : apply m stores a = m a := by
  induction stores generalizing m with
  | nil => rfl
  | cons store stores ih =>
    have hne : a ≠ store.1 := (h store List.mem_cons_self).symm
    rw [apply_cons, ih fun s hs => h s (List.mem_cons_of_mem store hs), Function.update_of_ne hne]

/-- The last store to the cell decides. -/
theorem apply_eq_stored (h : ∃ store ∈ stores, store.1 = a) :
    ∃ store ∈ stores, store.1 = a ∧ apply m stores a = store.2 := by
  induction stores generalizing m with
  | nil =>
    obtain ⟨store, hstore, -⟩ := h
    exact absurd hstore List.not_mem_nil
  | cons store stores ih =>
    by_cases hlater : ∃ s ∈ stores, s.1 = a
    · obtain ⟨s, hs, hcell, hvalue⟩ := ih (m := Function.update m store.1 store.2) hlater
      exact ⟨s, List.mem_cons_of_mem store hs, hcell, hvalue⟩
    · -- no later store: this one is the last
      have hrest : ∀ s ∈ stores, s.1 ≠ a := fun s hs hcell => hlater ⟨s, hs, hcell⟩
      obtain ⟨s, hs, hcell⟩ := h
      obtain rfl : s = store := (List.mem_cons.mp hs).resolve_right fun hs => hrest s hs hcell
      refine ⟨s, List.mem_cons_self, hcell, ?_⟩
      rw [apply_cons, apply_eq_self hrest, ← hcell, Function.update_self]

end Stores
