import Ondris.Primitives

/-!
# Difficulty

The target of a difficulty and the retarget rule, from `difficulty.rs`. `u128`
values are natural numbers where they cannot overflow; the product
`target_timespan * 4` is a `u64` and wraps.
-/

namespace Ondris

/-- `MAX_TARGET`, `2^256 - 1` in big-endian bytes. -/
def maxTarget : Bytes := List.replicate 32 0xff

/-- `divide_be_by_u64`: long division, most significant byte first. -/
def divideBeByU64 (num : Bytes) (divisor : UInt64) : Bytes :=
  go num 0
where
  go : Bytes → ℕ → Bytes
    | [], _ => []
    | b :: bs, remainder =>
      let cur := remainder * 256 + b.toNat
      (cur / divisor.toNat).toUInt8 :: go bs (cur % divisor.toNat)

def targetForDifficulty (difficulty : UInt64) : Bytes :=
  divideBeByU64 maxTarget (max difficulty 1)

/-- The difficulty after a window that took `actualTimespanSecs`. -/
def nextDifficulty (prevDifficulty actualTimespanSecs targetBlockTimeSecs window : UInt64) :
    UInt64 :=
  let targetTimespan := max (satMul targetBlockTimeSecs window) 1
  let actual := max (min (max actualTimespanSecs (targetTimespan / 4)) (targetTimespan * 4)) 1
  let newDiff := UInt64.ofNat (prevDifficulty.toNat * targetTimespan.toNat / actual.toNat)
  max newDiff 1

/-- Every retargeted difficulty is at least 1. -/
theorem one_le_nextDifficulty (prev actual target window : UInt64) :
    1 ≤ nextDifficulty prev actual target window := by
  rw [nextDifficulty, UInt64.le_iff_toNat_le, UInt64.toNat_max]
  exact Nat.le_max_right _ _

/-- A block's contribution to cumulative chain work. -/
def blockWork (difficulty : UInt64) : ℕ := difficulty.toNat

end Ondris
