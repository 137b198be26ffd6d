import Ondris.Lib.LongDivision
import Ondris.Difficulty
import Ondris.Pow

/-!
# Targets

`target_for_difficulty` divides `MAX_TARGET` by the difficulty, byte by byte, and
`meets_target` compares byte strings.

Results:
1. `divideBeByU64_eq`: the loop of `divide_be_by_u64` is long division.
2. `target_exact`: the target is the exact quotient, so a hash meets it exactly if the
   hash times the difficulty is below `2 ^ 256`.
-/

namespace Ondris

open Encoding LongDivision

/-! ## The division -/

theorem divideBeByU64_eq (num : Bytes) (divisor : UInt64) :
    divideBeByU64 num divisor = quotients divisor.toNat num 0 := by
  have hgo : ∀ (num : Bytes) (r : ℕ), divideBeByU64.go divisor num r = quotients divisor.toNat num r := by
    intro num
    induction num with
    | nil => exact fun r => rfl
    | cons b bs ih =>
      intro r
      rw [divideBeByU64.go, quotients, dividends, List.map_cons, ih, quotients]
  exact hgo num 0

theorem targetForDifficulty_eq {d : UInt64} (hd : 1 ≤ d) :
    targetForDifficulty d = quotients d.toNat maxTarget 0 := by
  have hmax : max d 1 = d := by
    rw [← UInt64.toNat_inj, UInt64.toNat_max]
    exact Nat.max_eq_left (UInt64.le_iff_toNat_le.mp hd)
  rw [targetForDifficulty, hmax, divideBeByU64_eq]

theorem beNat_maxTarget : beNat maxTarget = 2 ^ 256 - 1 := by decide

theorem length_targetForDifficulty {d : UInt64} (hd : 1 ≤ d) :
    (targetForDifficulty d).length = 32 := by
  rw [targetForDifficulty_eq hd, length_quotients, maxTarget, List.length_replicate]

theorem beNat_targetForDifficulty {d : UInt64} (hd : 1 ≤ d) :
    beNat (targetForDifficulty d) = (2 ^ 256 - 1) / d.toNat := by
  have hpos : 0 < d.toNat := UInt64.le_iff_toNat_le.mp hd
  rw [targetForDifficulty_eq hd, beNat_quotients hpos hpos, beNat_maxTarget, Nat.zero_mul,
    Nat.zero_add]

/-! ## Hashes that meet a target -/

theorem meetsTarget_iff {x : Hash256} {d : UInt64} (hd : 1 ≤ d) :
    meetsTarget x (targetForDifficulty d) = true ↔ beNat x.asBytes * d.toNat ≤ 2 ^ 256 - 1 := by
  have hlen : x.asBytes.length = (targetForDifficulty d).length := by
    rw [x.length_asBytes, length_targetForDifficulty hd]
  rw [meetsTarget, decide_eq_true_iff, Hash256.toU256Be, le_iff_beNat_le hlen,
    beNat_targetForDifficulty hd, Nat.le_div_iff_mul_le (UInt64.le_iff_toNat_le.mp hd)]

/-- Every hash meets the target of difficulty 1. -/
theorem meetsTarget_one (x : Hash256) : meetsTarget x (targetForDifficulty 1) = true := by
  have hlt := beNat_lt x.asBytes
  rw [Hash256.length_asBytes] at hlt
  refine (meetsTarget_iff (by decide)).mpr ?_
  rw [show (1 : UInt64).toNat = 1 from rfl, Nat.mul_one]
  exact Nat.le_sub_one_of_lt hlt

/-- **The target of a difficulty is the exact quotient of `2 ^ 256 - 1`.** No digit is cut
to its byte, and no partial dividend leaves the range of a `u128`. -/
theorem target_exact {d : UInt64} (hd : 1 ≤ d) :
    (∀ x : Hash256, meetsTarget x (targetForDifficulty d) = true ↔
      beNat x.asBytes * d.toNat ≤ 2 ^ 256 - 1) ∧
    beNat (targetForDifficulty d) = (2 ^ 256 - 1) / d.toNat ∧
    targetForDifficulty d
      = (dividends d.toNat maxTarget 0).map (fun cur => (cur / d.toNat).toUInt8) ∧
    (∀ cur ∈ dividends d.toNat maxTarget 0, cur < 2 ^ 128 ∧ cur / d.toNat < 256) ∧
    ∀ d' : UInt64, d ≤ d' → targetForDifficulty d' ≤ targetForDifficulty d := by
  have hpos : 0 < d.toNat := UInt64.le_iff_toNat_le.mp hd
  refine ⟨fun x => meetsTarget_iff hd, beNat_targetForDifficulty hd, targetForDifficulty_eq hd,
    fun cur hcur => ?_, fun d' hle => ?_⟩
  · have hlt := dividend_lt hpos hpos cur hcur
    have hdlt := d.toNat_lt
    exact ⟨by omega, Nat.div_lt_of_lt_mul hlt⟩
  · have hd' : 1 ≤ d' := UInt64.le_trans hd hle
    rw [le_iff_beNat_le (by rw [length_targetForDifficulty hd', length_targetForDifficulty hd]),
      beNat_targetForDifficulty hd', beNat_targetForDifficulty hd]
    exact Nat.div_le_div_left (UInt64.le_iff_toNat_le.mp hle) hpos

theorem target_exact_thousand :
    (∀ x : Hash256, meetsTarget x (targetForDifficulty 1000) = true ↔
      beNat x.asBytes * (1000 : UInt64).toNat ≤ 2 ^ 256 - 1) ∧
    beNat (targetForDifficulty 1000) = (2 ^ 256 - 1) / (1000 : UInt64).toNat ∧
    targetForDifficulty 1000 = (dividends (1000 : UInt64).toNat maxTarget 0).map
      (fun cur => (cur / (1000 : UInt64).toNat).toUInt8) ∧
    (∀ cur ∈ dividends (1000 : UInt64).toNat maxTarget 0,
      cur < 2 ^ 128 ∧ cur / (1000 : UInt64).toNat < 256) ∧
    ∀ d' : UInt64, 1000 ≤ d' → targetForDifficulty d' ≤ targetForDifficulty 1000 :=
  target_exact (by decide)

end Ondris
