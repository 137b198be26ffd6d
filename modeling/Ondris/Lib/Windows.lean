import Mathlib.Data.Set.Subsingleton

/-!
# Sequences that rarely change

A sequence of which only the first `n` values count, looked at through every window of
`W` consecutive indices.

Results:
1. `eq_or_change`: where a sequence changes at most once between two indices, their values
   are equal or those of the two sides of that change.
2. `RarelyChanging.iff_steps`: over a reflexive relation, it is enough to look at the
   single steps.
-/

namespace Windows

variable {α : Type*}

/-- The indices of a stretch at which the next value is another one. -/
def changes (f : ℕ → α) (i j : ℕ) : Set ℕ := {k | i ≤ k ∧ k + 1 < j ∧ f k ≠ f (k + 1)}

/-- In every window the values change at most once, and `R` holds from each value to each
later one. -/
structure RarelyChanging (R : α → α → Prop) (W n : ℕ) (f : ℕ → α) : Prop where
  once : ∀ s, s + W ≤ n → (changes f s (s + W)).Subsingleton
  swing : ∀ s, s + W ≤ n → ∀ i j, s ≤ i → i ≤ j → j < s + W → R (f i) (f j)

theorem changes_mono {f : ℕ → α} {i i' j j' : ℕ} (hi : i' ≤ i) (hj : j ≤ j') :
    changes f i j ⊆ changes f i' j' := by
  rintro k ⟨hik, hkj, hne⟩
  exact ⟨Nat.le_trans hi hik, Nat.lt_of_lt_of_le hkj hj, hne⟩

/-- No change: the two ends are equal. -/
theorem eq_of_changes_empty {f : ℕ → α} {i d : ℕ} (h : changes f i (i + d + 1) = ∅) :
    f i = f (i + d) := by
  induction d with
  | zero => rfl
  | succ d ih =>
    have hsub : changes f i (i + d + 1) ⊆ changes f i (i + (d + 1) + 1) :=
      changes_mono (le_refl i) (by omega)
    rw [ih (Set.subset_eq_empty hsub h)]
    by_contra hne
    have hmem : i + d ∈ changes f i (i + (d + 1) + 1) := ⟨by omega, by omega, hne⟩
    rw [h] at hmem
    exact hmem

theorem eq_or_change {f : ℕ → α} {i j : ℕ} (hij : i ≤ j)
    (h : (changes f i (j + 1)).Subsingleton) :
    f i = f j ∨ ∃ k ∈ changes f i (j + 1), f i = f k ∧ f (k + 1) = f j := by
  rcases h.eq_empty_or_singleton with hempty | ⟨k, hk⟩
  · obtain ⟨d, rfl⟩ := Nat.exists_eq_add_of_le hij
    exact .inl (eq_of_changes_empty hempty)
  · -- no change before the only one, and none after it
    have hmem : k ∈ changes f i (j + 1) := by
      rw [hk]
      rfl
    obtain ⟨hik, hkj, -⟩ := id hmem
    have honly : ∀ m ∈ changes f i (j + 1), m = k := fun m hm => h hm hmem
    have hbefore : changes f i (k + 1) = ∅ := by
      refine Set.eq_empty_of_forall_notMem fun m hm => ?_
      have heq := honly m (changes_mono (le_refl i) (by omega) hm)
      have hlt := hm.2.1
      omega
    have hafter : changes f (k + 1) (j + 1) = ∅ := by
      refine Set.eq_empty_of_forall_notMem fun m hm => ?_
      have heq := honly m (changes_mono (by omega) (le_refl _) hm)
      have hle := hm.1
      omega
    obtain ⟨d, rfl⟩ := Nat.exists_eq_add_of_le hik
    obtain ⟨e, rfl⟩ := Nat.exists_eq_add_of_le (show i + d + 1 ≤ j by omega)
    exact .inr ⟨i + d, hmem, eq_of_changes_empty hbefore, eq_of_changes_empty hafter⟩

/-- Over a reflexive relation the swing of a window is that of its single steps. -/
theorem RarelyChanging.iff_steps {R : α → α → Prop} (hR : ∀ x, R x x) {W n : ℕ} {f : ℕ → α} :
    RarelyChanging R W n f ↔ (∀ s, s + W ≤ n → (changes f s (s + W)).Subsingleton) ∧
      ∀ s, s + W ≤ n → ∀ i, s ≤ i → i + 1 < s + W → R (f i) (f (i + 1)) := by
  constructor
  · intro h
    exact ⟨h.once, fun s hs i hi hlt => h.swing s hs i (i + 1) hi (Nat.le_succ i) hlt⟩
  · rintro ⟨honce, hstep⟩
    refine ⟨honce, fun s hs i j hi hij hj => ?_⟩
    have hsub : changes f i (j + 1) ⊆ changes f s (s + W) := changes_mono hi (by omega)
    rcases eq_or_change hij ((honce s hs).anti hsub) with heq | ⟨k, hk, hleft, hright⟩
    · rw [heq]
      exact hR (f j)
    · have hkj := hk.2.1
      have hik := hk.1
      rw [hleft, ← hright]
      exact hstep s hs k (by omega) (by omega)

end Windows
