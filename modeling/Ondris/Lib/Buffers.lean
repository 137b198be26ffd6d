import Mathlib.Data.List.Basic
import Mathlib.Tactic.Common

/-!
# Buffers with checked access

Buffers are lists. A load or a store outside the buffer gives nothing, and so does a loop
with such an access.

Results:
1. `foldlM_eq_some`, `foldlM_range`: a checked loop succeeds with the state of the
   unchecked one.
2. `foldlM_store`: a loop that stores one entry after another puts all of them in place.
-/

namespace Buffers

variable {α σ ι : Type*}

/-! ## Loops -/

/-- A loop over a list whose every step succeeds and keeps `P`. -/
theorem foldlM_eq_some {f : σ → ι → Option σ} {g : σ → ι → σ} {P : σ → Prop} {l : List ι} {s : σ}
    (h : ∀ s, P s → ∀ i ∈ l, f s i = some (g s i) ∧ P (g s i)) (hs : P s) :
    l.foldlM f s = some (l.foldl g s) ∧ P (l.foldl g s) := by
  induction l generalizing s with
  | nil => exact ⟨rfl, hs⟩
  | cons i l ih =>
    obtain ⟨hstep, hnext⟩ := h s hs i List.mem_cons_self
    have hrest := ih (fun s hs j hj => h s hs j (List.mem_cons_of_mem i hj)) hnext
    rw [List.foldlM_cons, hstep]
    exact hrest

/-- A counting loop that goes through given states. -/
theorem foldlM_range {f : σ → ℕ → Option σ} {n : ℕ} (s : ℕ → σ)
    (h : ∀ i < n, f (s i) i = some (s (i + 1))) : (List.range n).foldlM f (s 0) = some (s n) := by
  induction n with
  | zero => rfl
  | succ n ih =>
    rw [List.range_succ, List.foldlM_append, ih fun i hi => h i (Nat.lt_succ_of_lt hi)]
    show (List.foldlM f (s n) [n]) = _
    rw [List.foldlM_cons, h n (Nat.lt_succ_self n)]
    rfl

/-- A loop whose state is a function of the entries that it has passed. -/
theorem foldlM_prefix {f : σ → ι → Option σ} {l : List ι} (s : List ι → σ)
    (h : ∀ pre i post, l = pre ++ i :: post → f (s pre) i = some (s (pre ++ [i]))) :
    l.foldlM f (s []) = some (s l) := by
  have hrest : ∀ post pre, l = pre ++ post → post.foldlM f (s pre) = some (s l) := by
    intro post
    induction post with
    | nil =>
      intro pre hl
      rw [hl, List.append_nil]
      rfl
    | cons i post ih =>
      intro pre hl
      rw [List.foldlM_cons, h pre i post hl]
      exact ih (pre ++ [i]) (by rw [hl, List.append_assoc, List.singleton_append])
  exact hrest l [] rfl

/-- A list filled entry by entry. -/
theorem mapM_eq_some {β : Type*} {f : ι → Option β} {g : ι → β} {l : List ι}
    (h : ∀ i ∈ l, f i = some (g i)) : l.mapM f = some (l.map g) := by
  induction l with
  | nil => rfl
  | cons i l ih =>
    rw [List.mapM_cons, h i List.mem_cons_self, ih fun j hj => h j (List.mem_cons_of_mem i hj)]
    rfl

/-! ## Access -/

/-- `buf[i]`. -/
def load (buf : List α) (i : ℕ) : Option α := buf[i]?

/-- `buf[i] = x`. -/
def store (buf : List α) (i : ℕ) (x : α) : Option (List α) :=
  if i < buf.length then some (buf.set i x) else none

/-- The buffer with `xs` in the place of what stood from `off` on. -/
def splice (buf : List α) (off : ℕ) (xs : List α) : List α :=
  buf.take off ++ xs ++ buf.drop (off + xs.length)

variable {buf xs ys : List α} {off i : ℕ}

theorem load_eq_getD (h : i < buf.length) (x : α) : load buf i = some (buf.getD i x) := by
  rw [load, List.getD_eq_getElem?_getD, List.getElem?_eq_getElem h, Option.getD_some]

@[simp] theorem splice_nil (buf : List α) (off : ℕ) : splice buf off [] = buf := by
  rw [splice, List.append_nil, List.length_nil, Nat.add_zero, List.take_append_drop]

theorem length_splice (h : off + xs.length ≤ buf.length) :
    (splice buf off xs).length = buf.length := by
  rw [splice, List.length_append, List.length_append, List.length_take, List.length_drop]
  omega

/-- Entries right behind spliced ones. -/
theorem splice_splice (h : off + xs.length ≤ buf.length) :
    splice (splice buf off xs) (off + xs.length) ys = splice buf off (xs ++ ys) := by
  have hlen : (buf.take off ++ xs).length = off + xs.length := by
    rw [List.length_append, List.length_take]
    omega
  have htake : (splice buf off xs).take (off + xs.length) = buf.take off ++ xs := by
    rw [splice, List.take_left' hlen]
  have hdrop : (splice buf off xs).drop (off + xs.length + ys.length)
      = buf.drop (off + (xs ++ ys).length) := by
    rw [← List.drop_drop, splice, List.drop_left' hlen, List.drop_drop, List.length_append,
      Nat.add_assoc]
  rw [splice, htake, hdrop, splice, List.append_assoc (buf.take off)]

/-- A buffer spliced from its start on begins with what was put there. -/
theorem take_splice_zero (buf xs : List α) : (splice buf 0 xs).take xs.length = xs := by
  rw [splice, List.take_zero, List.nil_append, List.take_left]

theorem splice_all (h : xs.length = buf.length) : splice buf 0 xs = xs := by
  rw [splice, List.take_zero, List.nil_append, h, Nat.zero_add, List.drop_length, List.append_nil]

theorem store_eq_splice (h : i < buf.length) (x : α) : store buf i x = some (splice buf i [x]) := by
  rw [store, if_pos h, splice, List.set_eq_take_append_cons_drop, if_pos h, List.length_singleton,
    List.append_assoc, List.singleton_append]

theorem store_splice (xs : List α) (h : off + xs.length < buf.length) (x : α) :
    store (splice buf off xs) (off + xs.length) x = some (splice buf off (xs ++ [x])) := by
  rw [store_eq_splice (by rw [length_splice (Nat.le_of_lt h)]; exact h),
    splice_splice (Nat.le_of_lt h)]

/-- A loop that stores `x 0`, `x 1`, … from `off` on. -/
theorem foldlM_store {f : List α → ℕ → Option (List α)} {n : ℕ} (x : ℕ → α)
    (h : ∀ i < n, ∀ b : List α, b.length = buf.length → f b i = store b (off + i) (x i))
    (hfit : off + n ≤ buf.length) :
    (List.range n).foldlM f buf = some (splice buf off ((List.range n).map x)) := by
  have hstart : splice buf off ((List.range 0).map x) = buf := splice_nil buf off
  rw [← foldlM_range (f := f) (fun i => splice buf off ((List.range i).map x)) fun i hi => ?_,
    hstart]
  have hxs : ((List.range i).map x).length = i := by
    rw [List.length_map, List.length_range]
  have hlen : (splice buf off ((List.range i).map x)).length = buf.length :=
    length_splice (by omega)
  have hnext : store (splice buf off ((List.range i).map x)) (off + ((List.range i).map x).length)
      (x i) = some (splice buf off ((List.range i).map x ++ [x i])) :=
    store_splice _ (by omega) (x i)
  rw [hxs] at hnext
  rw [h i hi _ hlen, hnext, List.range_succ, List.map_append, List.map_singleton]

theorem map_getD_range {n : ℕ} (h : n ≤ xs.length) (x : α) :
    (List.range n).map (fun i => xs.getD i x) = xs.take n := by
  refine List.ext_getElem (by simp [h]) fun i hi hi' => ?_
  rw [List.length_map, List.length_range] at hi
  rw [List.getElem_map, List.getElem_range, List.getElem_take, List.getD_eq_getElem?_getD,
    List.getElem?_eq_getElem (by omega), Option.getD_some]

end Buffers
