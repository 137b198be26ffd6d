import Mathlib.Algebra.Order.Ring.Nat
import Mathlib.Data.Nat.Log
import Mathlib.Tactic.Ring

/-!
# Trees from binary carries

`tree leaf node start n root` combines the leaves `start, ..., start + n - 1`: the
left part of a node holds the largest power of two of leaves that leaves some for
the right part. Only the outermost operation is told that it is the root.

The same tree comes out of a stack that takes the leaves one at a time. `push` adds
a leaf and merges it with the top of the stack once for every carry of the binary
leaf counter; `collapse` folds the stack onto the last leaf.

Results:
1. `split_lt`, `split_pos`: both parts of a tree have leaves.
2. `push_stackOf`: every push finds what it merges with, and the stack holds one
   perfect tree for each binary digit 1 of the counter.
3. `collapse_stackOf`: collapsing the stack onto the rest yields the tree.
-/

namespace CarryTree

variable {α : Type*} (leaf : ℕ → Bool → α) (node : α → α → Bool → α)

/-! ## Definitions -/

/-- The largest power of two below `n`, for `n` from 2 on. -/
def split (n : ℕ) : ℕ := 2 ^ (n - 1).log2

theorem split_lt {n : ℕ} (h : 2 ≤ n) : split n < n := by
  have hle := Nat.log2_self_le (n := n - 1) (by omega)
  rw [split]
  omega

theorem split_pos (n : ℕ) : 0 < split n := Nat.two_pow_pos _

def tree (start n : ℕ) (root : Bool) : α :=
  if n ≤ 1 then leaf start root
  else node (tree start (split n) false) (tree (start + split n) (n - split n) false) root
termination_by n
decreasing_by
  · exact split_lt (by omega)
  · have hpos := split_pos n
    omega

/-- Adds a leaf to a stack, top first; `total` counts the leaves with this one. It
fails when there is nothing left to merge with. -/
def push : List α → α → ℕ → Option (List α)
  | [], a, total => if total % 2 = 0 then none else some [a]
  | left :: stack, a, total =>
    if total % 2 = 0 then push stack (node left a false) (total / 2)
    else some (a :: left :: stack)

/-- Folds a stack onto what comes after it. -/
def collapse : List α → α → α
  | [], a => a
  | left :: stack, a => collapse stack (node left a stack.isEmpty)

/-- The tree over the `2 ^ k` leaves of the block number `i`. -/
def perfect : ℕ → ℕ → α
  | 0, i => leaf i false
  | k + 1, i => node (perfect k (2 * i)) (perfect k (2 * i + 1)) false

/-- The stack after `c` blocks of `2 ^ k` leaves, from the lowest binary digit of `c`
on. -/
def stackOf (k c : ℕ) : List α :=
  if c = 0 then []
  else if c % 2 = 1 then perfect leaf node k (c - 1) :: stackOf (k + 1) (c / 2)
  else stackOf (k + 1) (c / 2)
termination_by c

variable {leaf node}

/-! ## Splitting -/

theorem split_eq {n k : ℕ} (hlow : 2 ^ k < n) (hhigh : n ≤ 2 ^ (k + 1)) : split n = 2 ^ k := by
  have hpos := Nat.two_pow_pos k
  have hlog : (n - 1).log2 = k := (Nat.log2_eq_iff (by omega)).mpr ⟨by omega, by omega⟩
  rw [split, hlog]

theorem tree_one (start : ℕ) (root : Bool) : tree leaf node start 1 root = leaf start root := by
  rw [tree, if_pos (Nat.le_refl 1)]

/-- A tree with a perfect left part. -/
theorem tree_split {n k : ℕ} (hlow : 2 ^ k < n) (hhigh : n ≤ 2 ^ (k + 1)) (start : ℕ)
    (root : Bool) : tree leaf node start n root
      = node (tree leaf node start (2 ^ k) false)
          (tree leaf node (start + 2 ^ k) (n - 2 ^ k) false) root := by
  have hpos := Nat.two_pow_pos k
  rw [tree, if_neg (by omega), split_eq hlow hhigh]

theorem tree_perfect (k i : ℕ) : tree leaf node (i * 2 ^ k) (2 ^ k) false = perfect leaf node k i := by
  induction k generalizing i with
  | zero => rw [pow_zero, Nat.mul_one, tree_one, perfect]
  | succ k ih =>
    have hpos := Nat.two_pow_pos k
    have hleft : i * 2 ^ (k + 1) = 2 * i * 2 ^ k := by ring
    have hright : i * 2 ^ (k + 1) + 2 ^ k = (2 * i + 1) * 2 ^ k := by ring
    have hhalf : 2 ^ (k + 1) - 2 ^ k = 2 ^ k := by
      rw [pow_succ]
      omega
    rw [tree_split (by rw [pow_succ]; omega) (Nat.le_refl _), hright, hhalf, hleft, ih, ih, perfect]

/-! ## The stack -/

@[simp] theorem stackOf_zero (k : ℕ) : stackOf leaf node k 0 = [] := by
  rw [stackOf, if_pos rfl]

/-- An empty digit. -/
theorem stackOf_even (k m : ℕ) : stackOf leaf node k (2 * m) = stackOf leaf node (k + 1) m := by
  rw [stackOf]
  split
  · next h =>
    obtain rfl : m = 0 := by omega
    rw [stackOf_zero]
  · rw [if_neg (by omega), Nat.mul_div_cancel_left m (by decide)]

/-- A digit 1 stands for a perfect tree. -/
theorem stackOf_odd (k m : ℕ) : stackOf leaf node k (2 * m + 1)
    = perfect leaf node k (2 * m) :: stackOf leaf node (k + 1) m := by
  have hhalf : (2 * m + 1) / 2 = m := by omega
  rw [stackOf, if_neg (by omega), if_pos (by omega), Nat.add_sub_cancel, hhalf]

theorem push_odd (stack : List α) (a : α) {total : ℕ} (h : total % 2 = 1) :
    push node stack a total = some (a :: stack) := by
  cases stack with
  | nil => rw [push, if_neg (by omega)]
  | cons left stack => rw [push, if_neg (by omega)]

/-- Adding block number `c` to the stack of the blocks before it carries as adding 1
to `c` does. -/
theorem push_stackOf (k c : ℕ) : push node (stackOf leaf node k c) (perfect leaf node k c) (c + 1)
    = some (stackOf leaf node k (c + 1)) := by
  induction c using Nat.strong_induction_on generalizing k with
  | _ c ih =>
    obtain ⟨m, rfl | rfl⟩ := Nat.even_or_odd' c
    · rw [push_odd _ _ (by omega), stackOf_even, stackOf_odd]
    · -- the carry merges the two halves of block `m` of the next size
      have hsucc : 2 * m + 1 + 1 = 2 * (m + 1) := by ring
      have hmerge : node (perfect leaf node k (2 * m)) (perfect leaf node k (2 * m + 1)) false
          = perfect leaf node (k + 1) m := rfl
      rw [stackOf_odd, push, hsucc, if_pos (by omega), Nat.mul_div_cancel_left _ (by decide),
        hmerge, ih m (by omega), stackOf_even]

/-- Collapsing the stack of `c` blocks onto the tree of at most one further block
yields the tree of all leaves. -/
theorem collapse_stackOf (k c : ℕ) {r : ℕ} (hpos : 1 ≤ r) (hr : r ≤ 2 ^ k) :
    collapse node (stackOf leaf node k c)
        (tree leaf node (c * 2 ^ k) r (stackOf leaf node k c).isEmpty)
      = tree leaf node 0 (c * 2 ^ k + r) true := by
  induction c using Nat.strong_induction_on generalizing k r with
  | _ c ih =>
    rcases Nat.eq_zero_or_pos c with rfl | hc
    · rw [stackOf_zero, collapse, List.isEmpty_nil, Nat.zero_mul, Nat.zero_add]
    · obtain ⟨m, rfl | rfl⟩ := Nat.even_or_odd' c
      · -- an even counter leaves no tree of this height on the stack
        have hstart : 2 * m * 2 ^ k = m * 2 ^ (k + 1) := by ring
        rw [stackOf_even, hstart]
        refine ih m (by omega) (k + 1) hpos ?_
        rw [pow_succ]
        omega
      · -- the top of the stack is the left half of the enlarged rest
        have hstart : (2 * m + 1) * 2 ^ k = m * 2 ^ (k + 1) + 2 ^ k := by ring
        have hleft : perfect leaf node k (2 * m) = tree leaf node (m * 2 ^ (k + 1)) (2 ^ k) false := by
          rw [← tree_perfect]
          congr 1
          ring
        have hhigh : 2 ^ k + r ≤ 2 ^ (k + 1) := by
          rw [pow_succ]
          omega
        have hjoin : tree leaf node (m * 2 ^ (k + 1)) (2 ^ k + r)
              (stackOf leaf node (k + 1) m).isEmpty
            = node (tree leaf node (m * 2 ^ (k + 1)) (2 ^ k) false)
                (tree leaf node (m * 2 ^ (k + 1) + 2 ^ k) r false)
                (stackOf leaf node (k + 1) m).isEmpty := by
          rw [tree_split (by omega) hhigh, Nat.add_sub_cancel_left]
        rw [stackOf_odd, collapse, List.isEmpty_cons, hleft, hstart, ← hjoin, Nat.add_assoc]
        exact ih m (by omega) (k + 1) (by omega) hhigh

/-- The stack of all leaves but the last, collapsed onto the last. -/
theorem collapse_last (leaf : ℕ → Bool → α) (node : α → α → Bool → α) (c : ℕ) :
    collapse node (stackOf leaf node 0 c) (leaf c (stackOf leaf node 0 c).isEmpty)
      = tree leaf node 0 (c + 1) true := by
  have hone : tree leaf node (c * 2 ^ 0) 1 (stackOf leaf node 0 c).isEmpty
      = leaf c (stackOf leaf node 0 c).isEmpty := by
    rw [pow_zero, Nat.mul_one, tree_one]
  rw [← hone, collapse_stackOf 0 c (Nat.le_refl 1) (Nat.le_refl 1), pow_zero, Nat.mul_one]

end CarryTree
