import Mathlib.Data.List.Basic
import Mathlib.Tactic.Common

/-!
# Lists cut into chunks

`chunks n l` cuts a list into pieces of length `n`, the last of which may be
shorter.

Results:
1. `chunks_eq_cons`: the first chunk and the chunks of the rest.
2. `flatten_chunks`: the chunks make up the list.
3. `ne_nil_of_mem_chunks`, `length_le_of_mem_chunks`: no chunk is empty or longer than
   `n`.
4. `chunk_flatMap_range`: pieces of one length put together are the chunks of the whole.
-/

/-- Division rounded up. -/
def divCeil (a b : ℕ) : ℕ := (a + b - 1) / b

namespace Chunks

variable {α : Type*} {n : ℕ} {l c : List α}

def chunks (n : ℕ) (l : List α) : List (List α) :=
  (List.range (divCeil l.length n)).map fun i => (l.drop (i * n)).take n

theorem divCeil_zero (hn : 0 < n) : divCeil 0 n = 0 := by
  rw [divCeil]
  exact Nat.div_eq_of_lt (by omega)

theorem divCeil_eq_succ {m : ℕ} (hn : 0 < n) (hm : 0 < m) :
    divCeil m n = divCeil (m - n) n + 1 := by
  unfold divCeil
  rcases Nat.le_total m n with hle | hge
  · have hzero : m - n + n - 1 < n := by omega
    have hone : m + n - 1 = m - 1 + n := by omega
    rw [Nat.div_eq_of_lt hzero, hone, Nat.add_div_right _ hn, Nat.div_eq_of_lt (by omega)]
  · have hstep : m + n - 1 = m - n + n - 1 + n := by omega
    rw [hstep, Nat.add_div_right _ hn]

theorem le_divCeil_mul (hn : 0 < n) (m : ℕ) : m ≤ divCeil m n * n := by
  have hdiv := Nat.div_add_mod (m + n - 1) n
  have hmod := Nat.mod_lt (m + n - 1) hn
  rw [divCeil, Nat.mul_comm]
  omega

theorem divCeil_mul_lt (hn : 0 < n) (m : ℕ) : divCeil m n * n < m + n := by
  have hle := Nat.div_mul_le_self (m + n - 1) n
  rw [divCeil]
  omega

theorem divCeil_mul (hn : 0 < n) (m : ℕ) : divCeil (m * n) n = m := by
  have hsum : m * n + n - 1 = n - 1 + n * m := by
    rw [Nat.mul_comm n m]
    omega
  rw [divCeil, hsum, Nat.add_mul_div_left _ _ hn, Nat.div_eq_of_lt (by omega), Nat.zero_add]

/-- Whole chunks taken off the front. -/
theorem divCeil_sub_mul (m k : ℕ) (hk : k * n ≤ m) : divCeil (m - k * n) n = divCeil m n - k := by
  have hsum : m - k * n + n - 1 = m + n - 1 - n * k := by
    rw [Nat.mul_comm n k]
    omega
  rw [divCeil, hsum, Nat.sub_mul_div, divCeil]

/-- Chunks that lie before a chunk border. -/
theorem take_chunk {i k : ℕ} (hi : i < k) :
    ((l.take (k * n)).drop (i * n)).take n = (l.drop (i * n)).take n := by
  have hmul : (i + 1) * n ≤ k * n := Nat.mul_le_mul_right _ hi
  rw [Nat.add_mul] at hmul
  rw [List.drop_take, List.take_take, Nat.min_eq_left (by omega)]

/-- Chunks that lie behind a chunk border. -/
theorem drop_chunk (i k : ℕ) :
    ((l.drop (k * n)).drop (i * n)).take n = (l.drop ((k + i) * n)).take n := by
  rw [List.drop_drop, Nat.add_mul]

/-- A border before the last chunk lies inside. -/
theorem mul_lt_of_lt_divCeil (hn : 0 < n) {m k : ℕ} (hk : k < divCeil m n) : k * n < m := by
  have hle := divCeil_mul_lt hn m
  have hmul : (k + 1) * n ≤ divCeil m n * n := Nat.mul_le_mul_right _ hk
  rw [Nat.add_mul] at hmul
  omega

@[simp] theorem chunks_nil (hn : 0 < n) : chunks n ([] : List α) = [] := by
  rw [chunks, List.length_nil, divCeil_zero hn]
  rfl

/-- The first chunk and the chunks of the rest. -/
theorem chunks_eq_cons (hn : 0 < n) (hl : l ≠ []) :
    chunks n l = l.take n :: chunks n (l.drop n) := by
  have hcount := divCeil_eq_succ hn (List.length_pos_iff.mpr hl)
  rw [chunks, hcount, List.range_succ_eq_map, List.map_cons, List.map_map, Nat.zero_mul,
    List.drop_zero, chunks, List.length_drop]
  congr 1
  refine List.map_congr_left fun i _ => ?_
  rw [Function.comp_apply, List.drop_drop, Nat.succ_mul, Nat.add_comm]

theorem chunks_of_length_le (hl : l ≠ []) (hle : l.length ≤ n) : chunks n l = [l] := by
  have hpos := List.length_pos_iff.mpr hl
  rw [chunks_eq_cons (by omega) hl, List.take_of_length_le hle, List.drop_of_length_le hle,
    chunks_nil (by omega)]

/-- The chunks make up the list. -/
theorem flatten_chunks (hn : 0 < n) (l : List α) : (chunks n l).flatten = l := by
  induction h : l.length using Nat.strongRecOn generalizing l with
  | _ k ih =>
    cases l with
    | nil => rw [chunks_nil hn, List.flatten_nil]
    | cons x l =>
      have hshort : ((x :: l).drop n).length < k := by
        rw [List.length_drop, h]
        simp only [List.length_cons] at h
        omega
      rw [chunks_eq_cons hn (List.cons_ne_nil x l), List.flatten_cons, ih _ hshort _ rfl,
        List.take_append_drop]

theorem ne_nil_of_mem_chunks (hn : 0 < n) (h : c ∈ chunks n l) : c ≠ [] := by
  obtain ⟨i, hi, rfl⟩ := List.mem_map.mp h
  have hinside : (i + 1) * n ≤ divCeil l.length n * n :=
    Nat.mul_le_mul_right _ (List.mem_range.mp hi)
  have hlt := divCeil_mul_lt hn l.length
  rw [Nat.add_mul] at hinside
  refine List.length_pos_iff.mp ?_
  rw [List.length_take, List.length_drop]
  omega

theorem length_le_of_mem_chunks (h : c ∈ chunks n l) : c.length ≤ n := by
  obtain ⟨i, -, rfl⟩ := List.mem_map.mp h
  exact List.length_take_le ..

/-- The chunks with their numbers. -/
theorem zipIdx_chunks (n : ℕ) (l : List α) : (chunks n l).zipIdx
    = (List.range (divCeil l.length n)).map fun i => ((l.drop (i * n)).take n, i) := by
  refine List.ext_getElem (by simp [chunks]) fun i hi hi' => ?_
  simp [chunks]

/-! ## Pieces of one length put together -/

theorem length_flatMap_range {f : ℕ → List α} (hf : ∀ i, (f i).length = n) (m : ℕ) :
    ((List.range m).flatMap f).length = m * n := by
  induction m with
  | zero => simp
  | succ m ih => simp [List.range_succ, ih, hf, Nat.succ_mul]

/-- Each piece is cut out again where it was put. -/
theorem chunk_flatMap_range {f : ℕ → List α} (hf : ∀ i, (f i).length = n) {i m : ℕ} (hi : i < m) :
    (((List.range m).flatMap f).drop (i * n)).take n = f i := by
  induction m with
  | zero => cases hi
  | succ m ih =>
    have hlen := length_flatMap_range hf m
    rw [List.range_succ, List.flatMap_append, List.flatMap_singleton]
    rcases Nat.lt_succ_iff_lt_or_eq.mp hi with hlt | rfl
    · have hle : (i + 1) * n ≤ m * n := Nat.mul_le_mul_right n hlt
      rw [Nat.succ_mul] at hle
      rw [List.drop_append_of_le_length (by omega), List.take_append_of_le_length (by
        rw [List.length_drop]
        omega)]
      exact ih hlt
    · rw [List.drop_left' hlen, List.take_of_length_le (Nat.le_of_eq (hf i))]

end Chunks
