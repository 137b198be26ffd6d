import Ondris.Difficulty

/-!
# The retarget rule

`next_difficulty` multiplies the difficulty by the ratio of the targeted to the observed
timespan. The observed timespan is cut to at least a quarter and at most four times the
targeted one, both as `u64` values, before the division.

Results:
1. `toNat_nextDifficulty`: the rule as arithmetic on natural numbers.
2. `nextDifficulty_respects_iff`: the inputs on which the rule keeps its factor within
   four, neither overflows nor truncates, and is monotone.
-/

namespace Ondris

/-! ## The two timespans -/

/-- `target_timespan`. -/
def targetTimespan (targetBlockTimeSecs window : UInt64) : UInt64 :=
  max (satMul targetBlockTimeSecs window) 1

/-- `actual`: the observed timespan, cut to the range of the targeted one. -/
def clampedTimespan (actualTimespanSecs targetTimespan : UInt64) : UInt64 :=
  max (min (max actualTimespanSecs (targetTimespan / 4)) (targetTimespan * 4)) 1

theorem nextDifficulty_eq (prev actual target window : UInt64) :
    nextDifficulty prev actual target window =
      max (UInt64.ofNat (prev.toNat * (targetTimespan target window).toNat /
        (clampedTimespan actual (targetTimespan target window)).toNat)) 1 := rfl

theorem one_le_clampedTimespan (actual span : UInt64) :
    1 ≤ (clampedTimespan actual span).toNat := by
  rw [clampedTimespan, UInt64.toNat_max]
  exact Nat.le_max_right _ _

theorem toNat_nextDifficulty (prev actual target window : UInt64) :
    (nextDifficulty prev actual target window).toNat =
      max (prev.toNat * (targetTimespan target window).toNat /
        (clampedTimespan actual (targetTimespan target window)).toNat % 2 ^ 64) 1 := by
  rw [nextDifficulty_eq, UInt64.toNat_max, UInt64.toNat_ofNat']
  rfl

/-- The targeted timespan as a number, with no bound on the product. -/
def timespanGoal (target window : UInt64) : ℕ := max 1 (target.toNat * window.toNat)

/-- The product saturates only far above the range in which it can be multiplied by 4. -/
theorem toNat_targetTimespan {target window : UInt64}
    (h : (targetTimespan target window).toNat * 4 < 2 ^ 64 ∨ timespanGoal target window * 4 < 2 ^ 64) :
    (targetTimespan target window).toNat = timespanGoal target window := by
  rw [targetTimespan, UInt64.toNat_max, timespanGoal, satMul] at *
  split at h
  · next hlt =>
    rw [if_pos hlt, UInt64.toNat_mul, Nat.mod_eq_of_lt hlt, Nat.max_comm]
    rfl
  · next hge =>
    exfalso
    have hone : (1 : UInt64).toNat = 1 := rfl
    rw [UInt64.toNat_ofNat', hone] at h
    omega

/-- Where four times the targeted timespan fits, the clamp is the one of the numbers. -/
theorem toNat_clampedTimespan {actual span : UInt64} (h : span.toNat * 4 < 2 ^ 64) :
    (clampedTimespan actual span).toNat =
      max (min (max actual.toNat (span.toNat / 4)) (span.toNat * 4)) 1 := by
  have hmul : (span * 4).toNat = span.toNat * 4 := by
    rw [UInt64.toNat_mul]
    exact Nat.mod_eq_of_lt h
  rw [clampedTimespan, UInt64.toNat_max, UInt64.toNat_min, UInt64.toNat_max, UInt64.toNat_div, hmul]
  rfl

/-! ## The documented contract -/

/-- What the rule promises at one input: no arithmetic operation leaves its type, the
factor is at most 4 either way, the quotient is exact inside the clamp, and more time or
a lower difficulty never gives a higher difficulty. -/
structure Respects (prev actual target window : UInt64) : Prop where
  noOverflow : (targetTimespan target window).toNat * 4 < 2 ^ 64 ∧
    prev.toNat * (targetTimespan target window).toNat < 2 ^ 128
  noTruncation : prev.toNat * (targetTimespan target window).toNat /
    (clampedTimespan actual (targetTimespan target window)).toNat < 2 ^ 64
  lower : max 1 (prev.toNat / 4) ≤ (nextDifficulty prev actual target window).toNat
  upper : (nextDifficulty prev actual target window).toNat ≤ min (4 * prev.toNat) (2 ^ 64 - 1)
  exact : timespanGoal target window ≤ 4 * actual.toNat →
    actual.toNat ≤ 4 * timespanGoal target window →
    max 1 (prev.toNat * timespanGoal target window / actual.toNat) < 2 ^ 64 →
    (nextDifficulty prev actual target window).toNat =
      max 1 (prev.toNat * timespanGoal target window / actual.toNat)
  antitone : ∀ later : UInt64, actual ≤ later →
    nextDifficulty prev later target window ≤ nextDifficulty prev actual target window
  monotone : ∀ lower : UInt64, 1 ≤ lower → lower ≤ prev →
    nextDifficulty lower actual target window ≤ nextDifficulty prev actual target window

/-- The inputs the rule is good for. The last field leaves out a timespan at the lower
end of the clamp, where the quarter is rounded down, for difficulties that show it. -/
structure RetargetInRange (prev actual target window : UInt64) : Prop where
  timespan : timespanGoal target window * 4 < 2 ^ 64
  quotient : prev.toNat * timespanGoal target window <
    2 ^ 64 * max 1 (max actual.toNat (timespanGoal target window / 4))
  quarter : 1 ≤ timespanGoal target window / 4 → actual.toNat ≤ timespanGoal target window / 4 →
    prev.toNat * (timespanGoal target window % 4) < timespanGoal target window / 4

variable {prev actual target window : UInt64}

/-- The value of the rule on numbers: prior difficulty, observed and targeted timespan. -/
def retargetValue (d a T : ℕ) : ℕ := max 1 (d * T / max 1 (min (max a (T / 4)) (4 * T)))

theorem le_retargetValue {d a T : ℕ} (hT : 1 ≤ T) : max 1 (d / 4) ≤ retargetValue d a T := by
  have hdiv : d / 4 ≤ d * T / max 1 (min (max a (T / 4)) (4 * T)) := by
    rw [Nat.le_div_iff_mul_le (by omega)]
    have hle : max 1 (min (max a (T / 4)) (4 * T)) ≤ 4 * T := by omega
    calc d / 4 * max 1 (min (max a (T / 4)) (4 * T))
        ≤ d / 4 * (4 * T) := Nat.mul_le_mul_left _ hle
      _ = d / 4 * 4 * T := by rw [Nat.mul_assoc]
      _ ≤ d * T := Nat.mul_le_mul_right T (Nat.div_mul_le_self d 4)
  exact max_le_max (le_refl 1) hdiv

/-- The factor 4 is kept unless the quarter was rounded down and the difficulty is large. -/
theorem retargetValue_le_iff {d a T : ℕ} (hd : 1 ≤ d) (hT : 1 ≤ T) :
    retargetValue d a T ≤ 4 * d ↔ (1 ≤ T / 4 → a ≤ T / 4 → d * (T % 4) < T / 4) := by
  have hone : 1 ≤ 4 * d := by omega
  rw [retargetValue, max_le_iff, and_iff_right hone, ← Nat.lt_succ_iff,
    Nat.div_lt_iff_lt_mul (by omega), Nat.succ_eq_add_one]
  have hsplit : d * T = 4 * (d * (T / 4)) + d * (T % 4) := by
    calc d * T = d * (4 * (T / 4) + T % 4) := by rw [Nat.div_add_mod]
      _ = 4 * (d * (T / 4)) + d * (T % 4) := by ring
  by_cases hlow : 1 ≤ T / 4 ∧ a ≤ T / 4
  · -- the divisor is the rounded quarter
    have hA : max 1 (min (max a (T / 4)) (4 * T)) = T / 4 := by omega
    have hexpand : (4 * d + 1) * (T / 4) = 4 * (d * (T / 4)) + T / 4 := by ring
    rw [hA, hexpand, hsplit]
    constructor
    · exact fun h _ _ => by omega
    · exact fun h => by have := h hlow.1 hlow.2; omega
  · -- the divisor is more than a quarter of the targeted timespan
    have hA : T < 4 * max 1 (min (max a (T / 4)) (4 * T)) := by omega
    have hlt : d * T < (4 * d + 1) * max 1 (min (max a (T / 4)) (4 * T)) := by
      calc d * T ≤ d * (4 * max 1 (min (max a (T / 4)) (4 * T))) := Nat.mul_le_mul_left d hA.le
        _ = 4 * d * max 1 (min (max a (T / 4)) (4 * T)) := by ring
        _ < (4 * d + 1) * max 1 (min (max a (T / 4)) (4 * T)) :=
            Nat.mul_lt_mul_of_pos_right (Nat.lt_succ_self _) (by omega)
    exact iff_of_true hlt fun hq ha => absurd ⟨hq, ha⟩ hlow

/-- Inside the clamp the observed timespan itself divides. -/
theorem retargetValue_of_inside {d a T : ℕ} (hT : 1 ≤ T) (hlow : T ≤ 4 * a) (hhigh : a ≤ 4 * T) :
    retargetValue d a T = max 1 (d * T / a) := by
  have hA : max 1 (min (max a (T / 4)) (4 * T)) = a := by omega
  rw [retargetValue, hA]

theorem retargetValue_antitone (d T : ℕ) {a a' : ℕ} (h : a ≤ a') :
    retargetValue d a' T ≤ retargetValue d a T := by
  have hA : max 1 (min (max a (T / 4)) (4 * T)) ≤ max 1 (min (max a' (T / 4)) (4 * T)) := by
    omega
  exact max_le_max (le_refl 1) (Nat.div_le_div_left hA (by omega))

theorem retargetValue_mono (a T : ℕ) {d d' : ℕ} (h : d ≤ d') :
    retargetValue d a T ≤ retargetValue d' a T :=
  max_le_max (le_refl 1) (Nat.div_le_div_right (Nat.mul_le_mul_right T h))

/-- The clamp's upper end plays no part in whether the quotient fits. -/
theorem quotient_lt_iff {d a T : ℕ} (hT : 1 ≤ T) (hd : d < 2 ^ 64) :
    d * T / max 1 (min (max a (T / 4)) (4 * T)) < 2 ^ 64 ↔
      d * T < 2 ^ 64 * max 1 (max a (T / 4)) := by
  rw [Nat.div_lt_iff_lt_mul (by omega)]
  rcases Nat.le_total (max a (T / 4)) (4 * T) with hle | hle
  · rw [Nat.min_eq_left hle]
  · have hlt : d * T < 2 ^ 64 * T := Nat.mul_lt_mul_of_pos_right hd hT
    rw [Nat.min_eq_right hle]
    constructor <;> intro _ <;> omega

/-! ## The code and the contract -/

theorem one_le_timespanGoal (target window : UInt64) : 1 ≤ timespanGoal target window :=
  Nat.le_max_left _ _

theorem toNat_clampedTimespan_goal (h : timespanGoal target window * 4 < 2 ^ 64) :
    (clampedTimespan actual (targetTimespan target window)).toNat =
      max 1 (min (max actual.toNat (timespanGoal target window / 4))
        (4 * timespanGoal target window)) := by
  have hT := toNat_targetTimespan (.inr h)
  rw [toNat_clampedTimespan (by rwa [hT]), hT, Nat.max_comm, Nat.mul_comm 4]

/-- Where nothing overflows and the quotient fits, the code computes the value. -/
theorem toNat_nextDifficulty_eq (h : timespanGoal target window * 4 < 2 ^ 64)
    (hq : prev.toNat * timespanGoal target window <
      2 ^ 64 * max 1 (max actual.toNat (timespanGoal target window / 4))) :
    (nextDifficulty prev actual target window).toNat =
      retargetValue prev.toNat actual.toNat (timespanGoal target window) := by
  have hlt := (quotient_lt_iff (one_le_timespanGoal target window) prev.toNat_lt).mpr hq
  rw [toNat_nextDifficulty, toNat_targetTimespan (.inr h), toNat_clampedTimespan_goal h,
    Nat.mod_eq_of_lt hlt, Nat.max_comm, retargetValue]

/-- The inputs with a quotient that fits are closed under more time and less difficulty. -/
theorem quotient_fits_of_le {prev' actual' : UInt64} (hp : prev' ≤ prev) (ha : actual ≤ actual')
    (hq : prev.toNat * timespanGoal target window <
      2 ^ 64 * max 1 (max actual.toNat (timespanGoal target window / 4))) :
    prev'.toNat * timespanGoal target window <
      2 ^ 64 * max 1 (max actual'.toNat (timespanGoal target window / 4)) := by
  have hp' := UInt64.le_iff_toNat_le.mp hp
  have ha' := UInt64.le_iff_toNat_le.mp ha
  calc prev'.toNat * timespanGoal target window
      ≤ prev.toNat * timespanGoal target window := Nat.mul_le_mul_right _ hp'
    _ < 2 ^ 64 * max 1 (max actual.toNat (timespanGoal target window / 4)) := hq
    _ ≤ 2 ^ 64 * max 1 (max actual'.toNat (timespanGoal target window / 4)) := by omega

/-- The product of two `u64` fits a `u128`. -/
theorem toNat_mul_lt (a b : UInt64) : a.toNat * b.toNat < 2 ^ 128 := by
  have ha := a.toNat_lt
  have hb := b.toNat_lt
  calc a.toNat * b.toNat < 2 ^ 64 * 2 ^ 64 := Nat.mul_lt_mul'' ha hb
    _ = 2 ^ 128 := by norm_num

/-- **The rule keeps its contract exactly on the inputs in range.** -/
theorem nextDifficulty_respects_iff (hprev : 1 ≤ prev) :
    Respects prev actual target window ↔ RetargetInRange prev actual target window := by
  have hd : 1 ≤ prev.toNat := UInt64.le_iff_toNat_le.mp hprev
  have hT := one_le_timespanGoal target window
  constructor
  · intro h
    have hgoal := toNat_targetTimespan (.inl h.noOverflow.1)
    have hspan : timespanGoal target window * 4 < 2 ^ 64 := by
      rw [← hgoal]
      exact h.noOverflow.1
    have hfits := h.noTruncation
    rw [hgoal, toNat_clampedTimespan_goal hspan, quotient_lt_iff hT prev.toNat_lt] at hfits
    have hupper := h.upper
    rw [toNat_nextDifficulty_eq hspan hfits, le_min_iff] at hupper
    exact ⟨hspan, hfits, (retargetValue_le_iff hd hT).mp hupper.1⟩
  · intro h
    have hgoal := toNat_targetTimespan (.inr h.timespan)
    have hvalue := toNat_nextDifficulty_eq h.timespan h.quotient
    refine ⟨⟨by rw [hgoal]; exact h.timespan, ?_⟩, ?_, ?_, ?_, fun hlow hhigh _ => ?_,
      fun later hle => ?_, fun lower _ hle => ?_⟩
    · exact toNat_mul_lt prev (targetTimespan target window)
    · rw [hgoal, toNat_clampedTimespan_goal h.timespan]
      exact (quotient_lt_iff hT prev.toNat_lt).mpr h.quotient
    · rw [hvalue]
      exact le_retargetValue hT
    · have hlt := (nextDifficulty prev actual target window).toNat_lt
      rw [hvalue] at hlt ⊢
      exact le_min ((retargetValue_le_iff hd hT).mpr h.quarter) (by omega)
    · rw [hvalue]
      exact retargetValue_of_inside hT hlow hhigh
    · have hfits := quotient_fits_of_le (UInt64.le_refl prev) hle h.quotient
      rw [UInt64.le_iff_toNat_le, hvalue, toNat_nextDifficulty_eq h.timespan hfits]
      exact retargetValue_antitone _ _ (UInt64.le_iff_toNat_le.mp hle)
    · have hfits := quotient_fits_of_le hle (UInt64.le_refl actual) h.quotient
      rw [UInt64.le_iff_toNat_le, hvalue, toNat_nextDifficulty_eq h.timespan hfits]
      exact retargetValue_mono _ _ (UInt64.le_iff_toNat_le.mp hle)

theorem nextDifficulty_respects_iff_normal :
    1 ≤ (1000 : UInt64) ∧
      (Respects 1000 900 30 60 ↔ RetargetInRange 1000 900 30 60) :=
  ⟨by decide, nextDifficulty_respects_iff (by decide)⟩

/-- A window of 7 seconds that took none: the quarter is 1 and the factor 7. -/
theorem not_respects_rounded_quarter : ¬ Respects 1000 0 7 1 := by
  intro h
  exact absurd h.upper (by decide)

/-- A factor of 4 on `2 ^ 62` leaves difficulty 1. -/
example : nextDifficulty 4611686018427387904 0 4 1 = 1 := by decide

end Ondris
