import Mathlib.Tactic.Common

/-!
# Counters with a ceiling

A counter holds a number of at most `M`. A credit that would go above the ceiling stops
there, a debit is made only if the counter covers it. A list of entries is taken back
from its end, with a cut-off subtraction for each credit and a capped addition for each
debit.

Results:
1. `rewind_run_le`: taking back never leaves more than there was.
2. `rewind_run_eq_iff`: it leaves what there was exactly if no credit stops at the ceiling
   before the first credit of an empty counter.
3. `wrapped_sub_eq_iff`: the same question for a sequence number that wraps.
-/

namespace CappedCounter

inductive Entry
  | credit (r : ℕ)
  | debit (w : ℕ)
deriving DecidableEq

/-- The counter after one entry. -/
def act (M x : ℕ) : Entry → ℕ
  | .credit r => min (x + r) M
  | .debit w => x - w

/-- The entry taken back. -/
def unact (M y : ℕ) : Entry → ℕ
  | .credit r => y - r
  | .debit w => min (y + w) M

def run (M x : ℕ) (es : List Entry) : ℕ := es.foldl (act M) x

/-- All entries taken back, the last one first. -/
def rewind (M y : ℕ) (es : List Entry) : ℕ := es.foldr (fun e y => unact M y e) y

/-- The counter covers every debit. -/
def Covers (M : ℕ) : ℕ → List Entry → Prop
  | _, [] => True
  | x, .credit r :: es => Covers M (act M x (.credit r)) es
  | x, .debit w :: es => w ≤ x ∧ Covers M (x - w) es

/-- No credit stops at the ceiling before the first credit of an empty counter. -/
def Recoverable (M : ℕ) : ℕ → List Entry → Prop
  | _, [] => True
  | x, .credit r :: es => x = 0 ∨ x + r ≤ M ∧ Recoverable M (x + r) es
  | x, .debit w :: es => Recoverable M (x - w) es

variable {M x y : ℕ}

/-! ## Concatenation -/

@[simp] theorem run_nil : run M x [] = x := rfl

@[simp] theorem rewind_nil : rewind M y [] = y := rfl

theorem run_cons (e : Entry) (es : List Entry) : run M x (e :: es) = run M (act M x e) es := rfl

theorem rewind_cons (e : Entry) (es : List Entry) :
    rewind M y (e :: es) = unact M (rewind M y es) e := rfl

theorem run_append (es es' : List Entry) : run M x (es ++ es') = run M (run M x es) es' :=
  List.foldl_append

theorem rewind_append (es es' : List Entry) :
    rewind M y (es ++ es') = rewind M (rewind M y es') es :=
  List.foldr_append

theorem covers_append {es es' : List Entry} :
    Covers M x (es ++ es') ↔ Covers M x es ∧ Covers M (run M x es) es' := by
  induction es generalizing x with
  | nil => exact ⟨fun h => ⟨trivial, h⟩, fun h => h.2⟩
  | cons e es ih =>
    cases e with
    | credit r => exact ih
    | debit w =>
      rw [List.cons_append, Covers, ih, Covers, and_assoc]
      rfl

/-! ## Taking back -/

theorem act_le (hx : x ≤ M) (e : Entry) : act M x e ≤ M := by
  cases e with
  | credit r => exact Nat.min_le_right _ _
  | debit w => exact Nat.le_trans (Nat.sub_le _ _) hx

/-- Every entry keeps a shortfall or makes it larger. -/
theorem rewind_run_le (hx : x ≤ M) {es : List Entry} (h : Covers M x es) :
    rewind M (run M x es) es ≤ x := by
  induction es generalizing x with
  | nil => exact Nat.le_refl x
  | cons e es ih =>
    cases e with
    | credit r =>
      have hback := ih (act_le hx (.credit r)) h
      rw [run_cons, rewind_cons, unact]
      rw [act] at hback ⊢
      omega
    | debit w =>
      obtain ⟨hw, h⟩ := h
      have hback := ih (act_le hx (.debit w)) h
      rw [run_cons, rewind_cons, unact]
      rw [act] at hback ⊢
      omega

/-- **What is taken back is what was done exactly if no credit stops at the ceiling before
the first credit of an empty counter.** From an empty counter on, any shortfall is cut off
again. -/
theorem rewind_run_eq_iff (hx : x ≤ M) {es : List Entry} (h : Covers M x es) :
    rewind M (run M x es) es = x ↔ Recoverable M x es := by
  induction es generalizing x with
  | nil => exact iff_of_true rfl trivial
  | cons e es ih =>
    cases e with
    | credit r =>
      have hback := rewind_run_le (act_le hx (.credit r)) h
      have hiff := ih (act_le hx (.credit r)) h
      rw [run_cons, rewind_cons, unact, Recoverable]
      rw [act] at hback hiff ⊢
      generalize rewind M _ es = y at hback hiff ⊢
      rcases Nat.lt_or_ge M (x + r) with hlt | hle
      · -- stopped at the ceiling: less comes back than there was, unless that was nothing
        omega
      · rw [Nat.min_eq_left hle] at hback hiff
        rw [← hiff]
        omega
    | debit w =>
      obtain ⟨hw, h⟩ := h
      have hback := rewind_run_le (act_le hx (.debit w)) h
      have hiff := ih (act_le hx (.debit w)) h
      rw [run_cons, rewind_cons, unact, Recoverable]
      rw [act] at hback hiff ⊢
      generalize rewind M _ es = y at hback hiff ⊢
      rw [← hiff]
      omega

/-! ## Sequence numbers -/

/-- A number below `N` counted up `m` times, and down again without going below 0. -/
theorem wrapped_sub_eq_iff {s m N : ℕ} (hs : s < N) : (s + m) % N - m = s ↔ s = 0 ∨ s + m < N := by
  rcases Nat.lt_or_ge (s + m) N with hlt | hge
  · rw [Nat.mod_eq_of_lt hlt]
    omega
  · have hwrap : (s + m) % N ≤ s + m - N := by
      rw [Nat.mod_eq_sub_mod hge]
      exact Nat.mod_le _ _
    omega

end CappedCounter
