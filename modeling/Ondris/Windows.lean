import Mathlib.Data.List.GetD
import Ondris.Lib.Windows
import Ondris.Extension
import Ondris.Retarget
import Ondris.Target

/-!
# Difficulty over a window

Every block after the first window has its difficulty corrected, from that of its parent
and from the time the last window took. The corrections of neighbouring blocks compound.

Results:
1. `difficulty_succ`: the difficulty of a block from the blocks below it on its branch.
2. `oncePerWindow_iff`: the branches on which the difficulty changes at most once in a
   window, and within a factor of 4, told by their timestamps.
-/

namespace Ondris

open Encoding LongDivision Windows

variable {K : Crates} {g : GenesisConfig} {st : ChainState} {c : Chain}

/-! ## Branches by height -/

/-- The block at a height of a branch listed from genesis up. -/
def blockAt (g : GenesisConfig) (bs : List Block) (i : ℕ) : Block := bs.getD i g.genesisBlock

def difficultyAt (g : GenesisConfig) (bs : List Block) (i : ℕ) : UInt64 :=
  (blockAt g bs i).header.difficulty

/-- The time the window that ends at a height took. -/
def observedTimespan (g : GenesisConfig) (bs : List Block) (i : ℕ) : UInt64 :=
  satSub (blockAt g bs i).header.timestamp (blockAt g bs (i - g.window.toNat)).header.timestamp

/-- The blocks of a branch, from genesis up. -/
def upward (l : BlockChain) : List Block := (l.map Prod.snd).reverse

theorem getElem?_upward_take {bs : List Block} {i k : ℕ} (hi : i < bs.length) (hk : k ≤ i) :
    (bs.take (i + 1)).reverse[k]? = some (blockAt g bs (i - k)) := by
  have hlen : (bs.take (i + 1)).length = i + 1 := List.length_take_of_le hi
  rw [List.getElem?_reverse (by omega), hlen, List.getElem?_take_of_lt (by omega), blockAt,
    List.getD_eq_getElem?_getD, show i + 1 - 1 - k = i - k by omega,
    List.getElem?_eq_getElem (by omega), Option.getD_some]

/-- The retarget rule on the blocks up to a height. -/
theorem retarget_take {bs : List Block} {i : ℕ} (hi : i < bs.length) :
    retarget g (bs.take (i + 1)).reverse =
      if g.window.toNat ≤ i then nextDifficulty (difficultyAt g bs i) (observedTimespan g bs i)
        g.targetBlockTimeSecs g.window
      else g.initialDifficulty := by
  split
  · next hle =>
    rw [retarget, List.head?_eq_getElem?, getElem?_upward_take hi (Nat.zero_le i),
      getElem?_upward_take hi hle]
    rfl
  · next hgt =>
    refine retarget_of_le ?_
    rw [List.length_reverse, List.length_take]
    omega

/-- Every block above genesis has the difficulty of the rule on the blocks below it. -/
theorem difficulty_eq_retarget (hs : WellStored K g st) {h : Hash256} {l : BlockChain}
    (hl : Branch K g st h l) {i : ℕ} (hi : i + 1 < (upward l).length) :
    difficultyAt g (upward l) (i + 1) = retarget g ((upward l).take (i + 1)).reverse := by
  induction hl with
  | root hg => simp [upward] at hi
  | @step h b l hne hb ht ih =>
    have hsplit : upward ((h, b) :: l) = upward l ++ [b] := by simp [upward]
    rw [hsplit, List.length_append, List.length_singleton] at hi
    rcases Nat.lt_or_ge (i + 1) (upward l).length with hlt | hge
    · rw [hsplit, difficultyAt, blockAt, List.getD_append _ _ _ _ hlt, List.take_append_of_le_length
        (by omega)]
      exact ih hlt
    · -- the block itself, on the whole branch of its parent
      have heq : i + 1 = (upward l).length := by omega
      obtain ⟨-, -, hok⟩ := (hs.branch_cons (.step hne hb ht)).resolve_left fun h => hne h.1
      rw [hsplit, difficultyAt, blockAt, List.getD_append_right _ _ _ _ hge, heq, Nat.sub_self,
        List.take_left', List.getD_cons_zero, hok.difficulty, upward, List.reverse_reverse]
      rfl

theorem difficulty_genesis (hs : WellStored K g st) {h : Hash256} {l : BlockChain}
    (hl : Branch K g st h l) : difficultyAt g (upward l) 0 = g.initialDifficulty := by
  obtain ⟨t, rfl⟩ := hs.genesis_prefix hl
  simp [difficultyAt, blockAt, upward, GenesisConfig.genesisBlock]

/-- One height further: nothing changes within the first window, then the rule is applied
at every block. -/
theorem difficulty_succ (hs : WellStored K g st) {h : Hash256} {l : BlockChain}
    (hl : Branch K g st h l) {i : ℕ} (hi : i + 1 < (upward l).length) :
    difficultyAt g (upward l) (i + 1) =
      if g.window.toNat ≤ i then nextDifficulty (difficultyAt g (upward l) i)
        (observedTimespan g (upward l) i) g.targetBlockTimeSecs g.window
      else difficultyAt g (upward l) i := by
  rw [difficulty_eq_retarget hs hl hi, retarget_take (by omega)]
  split
  · rfl
  · next hlow =>
    cases i with
    | zero => exact (difficulty_genesis hs hl).symm
    | succ i =>
      rw [difficulty_eq_retarget hs hl (by omega), retarget_take (by omega), if_neg (by omega)]

/-! ## One correction -/

/-- The later difficulty is within a factor of 4 of the earlier one, rounded down. -/
def WithinFour (d d' : UInt64) : Prop := d.toNat / 4 ≤ d'.toNat ∧ d'.toNat ≤ 4 * d.toNat

/-- The documented rule: in every window the difficulty changes at most once, and so by at
most a factor of 4. -/
def OncePerWindow (g : GenesisConfig) (bs : List Block) : Prop :=
  RarelyChanging WithinFour g.window.toNat bs.length (difficultyAt g bs)

/-- The numerator of the rule, cut to what a `u64` quotient by `A` can hold. -/
def cutProduct (d A T : ℕ) : ℕ := d * T % (2 ^ 64 * A)

/-- The correction of the difficulty `d` by the timespans `A` and `T` rounds to `d`. -/
def Keeps (d A T : ℕ) : Prop :=
  1 ≤ d ∧ d * A ≤ cutProduct d A T ∧ cutProduct d A T < (d + 1) * A ∨ d = 1 ∧ cutProduct d A T < A

/-- The correction stays within a factor of 4. -/
def Clamped (d A T : ℕ) : Prop :=
  1 ≤ d ∧ cutProduct d A T < (4 * d + 1) * A ∧ (d < 8 ∨ d / 4 * A ≤ cutProduct d A T)

variable {prev actual target window : UInt64}

/-- Truncation of the quotient is truncation of the numerator. -/
theorem toNat_nextDifficulty_cut :
    (nextDifficulty prev actual target window).toNat =
      max (cutProduct prev.toNat (clampedTimespan actual (targetTimespan target window)).toNat
        (targetTimespan target window).toNat /
          (clampedTimespan actual (targetTimespan target window)).toNat) 1 := by
  rw [toNat_nextDifficulty, cutProduct, Nat.mod_mul_left_div_self]

theorem nextDifficulty_eq_self_iff : nextDifficulty prev actual target window = prev ↔
    Keeps prev.toNat (clampedTimespan actual (targetTimespan target window)).toNat
      (targetTimespan target window).toNat := by
  have hpos := one_le_clampedTimespan actual (targetTimespan target window)
  rw [← UInt64.toNat_inj, toNat_nextDifficulty_cut, Keeps, ← Nat.le_div_iff_mul_le hpos,
    ← Nat.div_lt_iff_lt_mul hpos, ← Nat.div_eq_zero_iff_lt hpos]
  generalize cutProduct _ _ _ / _ = q
  omega

theorem withinFour_nextDifficulty_iff : WithinFour prev (nextDifficulty prev actual target window) ↔
    Clamped prev.toNat (clampedTimespan actual (targetTimespan target window)).toNat
      (targetTimespan target window).toNat := by
  have hpos := one_le_clampedTimespan actual (targetTimespan target window)
  rw [WithinFour, toNat_nextDifficulty_cut, Clamped, ← Nat.le_div_iff_mul_le hpos,
    ← Nat.div_lt_iff_lt_mul hpos]
  generalize cutProduct _ _ _ / _ = q
  omega

/-! ## The branches that keep the documented rule -/

/-- The observed timespan at a height, as the rule cuts it. -/
def cutTimespanAt (g : GenesisConfig) (bs : List Block) (i : ℕ) : ℕ :=
  (clampedTimespan (observedTimespan g bs i) (targetTimespan g.targetBlockTimeSecs g.window)).toNat

/-- At most one block of a window was found off the targeted time, to the precision of its
difficulty, and none so far off that the rounded clamp lets it through. -/
structure Paced (g : GenesisConfig) (bs : List Block) : Prop where
  once : ∀ s, s + g.window.toNat ≤ bs.length →
    {i | s ≤ i ∧ i + 1 < s + g.window.toNat ∧ g.window.toNat ≤ i ∧
      ¬ Keeps (difficultyAt g bs i).toNat (cutTimespanAt g bs i)
        (targetTimespan g.targetBlockTimeSecs g.window).toNat}.Subsingleton
  clamped : ∀ i, 2 ≤ g.window.toNat → g.window.toNat ≤ i → i + 1 < bs.length →
    Clamped (difficultyAt g bs i).toNat (cutTimespanAt g bs i)
      (targetTimespan g.targetBlockTimeSecs g.window).toNat

theorem withinFour_self (d : UInt64) : WithinFour d d := ⟨Nat.div_le_self _ _, by omega⟩

/-- Where the difficulty changes on a branch. -/
theorem difficulty_ne_iff (hs : WellStored K g st) {h : Hash256} {l : BlockChain}
    (hl : Branch K g st h l) {i : ℕ} (hi : i + 1 < (upward l).length) :
    difficultyAt g (upward l) i ≠ difficultyAt g (upward l) (i + 1) ↔ g.window.toNat ≤ i ∧
      ¬ Keeps (difficultyAt g (upward l) i).toNat (cutTimespanAt g (upward l) i)
        (targetTimespan g.targetBlockTimeSecs g.window).toNat := by
  rw [difficulty_succ hs hl hi]
  split
  · next hle =>
    rw [and_iff_right hle, cutTimespanAt, ← nextDifficulty_eq_self_iff, ne_comm, ne_eq]
  · next hgt => simp [hgt]

/-- How far it moves there. -/
theorem withinFour_succ_iff (hs : WellStored K g st) {h : Hash256} {l : BlockChain}
    (hl : Branch K g st h l) {i : ℕ} (hi : i + 1 < (upward l).length) :
    WithinFour (difficultyAt g (upward l) i) (difficultyAt g (upward l) (i + 1)) ↔
      (g.window.toNat ≤ i → Clamped (difficultyAt g (upward l) i).toNat
        (cutTimespanAt g (upward l) i) (targetTimespan g.targetBlockTimeSecs g.window).toNat) := by
  rw [difficulty_succ hs hl hi]
  split
  · next hle =>
    rw [withinFour_nextDifficulty_iff, cutTimespanAt]
    exact ⟨fun h _ => h, fun h => h hle⟩
  · next hgt => exact iff_of_true (withinFour_self _) fun hle => absurd hle hgt

theorem changes_difficulty (hs : WellStored K g st) {h : Hash256} {l : BlockChain}
    (hl : Branch K g st h l) {s j : ℕ} (hj : j ≤ (upward l).length) :
    changes (difficultyAt g (upward l)) s j = {i | s ≤ i ∧ i + 1 < j ∧ g.window.toNat ≤ i ∧
      ¬ Keeps (difficultyAt g (upward l) i).toNat (cutTimespanAt g (upward l) i)
        (targetTimespan g.targetBlockTimeSecs g.window).toNat} := by
  ext i
  refine and_congr_right fun _ => and_congr_right fun hlt => ?_
  exact difficulty_ne_iff hs hl (by omega)

theorem paced_iff (hs : WellStored K g st) {h : Hash256} {l : BlockChain}
    (hl : Branch K g st h l) : OncePerWindow g (upward l) ↔ Paced g (upward l) := by
  rw [OncePerWindow, RarelyChanging.iff_steps withinFour_self]
  constructor
  · rintro ⟨honce, hstep⟩
    refine ⟨fun s hs' => ?_, fun i htwo hle hi => ?_⟩
    · rw [← changes_difficulty hs hl hs']
      exact honce s hs'
    · -- the window that ends with the block
      have hwindow : i + 2 - g.window.toNat + g.window.toNat = i + 2 := by omega
      exact (withinFour_succ_iff hs hl hi).mp
        (hstep (i + 2 - g.window.toNat) (by omega) i (by omega) (by omega)) hle
  · intro hpaced
    refine ⟨fun s hs' => ?_, fun s hs' i hle hlt => ?_⟩
    · rw [changes_difficulty hs hl hs']
      exact hpaced.once s hs'
    · have hi : i + 1 < (upward l).length := by omega
      exact (withinFour_succ_iff hs hl hi).mpr fun hge => hpaced.clamped i (by omega) hge hi

/-- **The difficulty changes at most once in a window exactly on the paced branches.** -/
theorem oncePerWindow_iff (hc : (chainMachine K g).Reachable c) {h : Hash256} {l : BlockChain}
    (hl : Branch K g c.state h l) : OncePerWindow g (upward l) ↔ Paced g (upward l) :=
  paced_iff (chainInv hc).stored hl

/-! ## Blocks found in no time -/

/-- The small genesis with windows of 3 blocks. -/
def hastyGenesis : GenesisConfig := { smallGenesis with retargetWindow := 3, premine := [] }

/-- The empty block on a branch of which all blocks have one timestamp. -/
def hastyNext (l : BlockChain) : Block where
  header :=
    { height := UInt64.ofNat l.length
      prevHash := (l.head?.map Prod.fst).getD Hash256.zero
      txRoot := Hash256.zero
      timestamp := 0
      difficulty := retarget hastyGenesis (l.map Prod.snd)
      miner := ⟨List.Vector.replicate 20 0⟩
      nonce := UInt64.ofNat l.length }
  transactions := noTxs

/-- The branch of `n` such blocks. -/
def hastyBranch : ℕ → BlockChain
  | 0 => [(hastyGenesis.genesisHash smallCrates, hastyGenesis.genesisBlock)]
  | n + 1 => (nonceId (UInt64.ofNat (hastyBranch n).length), hastyNext (hastyBranch n)) ::
      hastyBranch n

def hastyBlocks (n : ℕ) : List Block := (List.range n).map fun i => hastyNext (hastyBranch i)

def hastyOpen : Chain :=
  ⟨ChainState.empty.writes (genesisWrites smallCrates hastyGenesis), hastyGenesis, none⟩

theorem init_hasty : (chainMachine smallCrates hastyGenesis).init hastyOpen := rfl

theorem length_hastyBranch (n : ℕ) : (hastyBranch n).length = n + 1 := by
  induction n with
  | zero => rfl
  | succ n ih => rw [hastyBranch, List.length_cons, ih]

/-- An identifier of the small crates meets every target of a small difficulty. -/
theorem meetsTarget_nonceId_le (n : UInt64) {d : UInt64} (hd : 1 ≤ d) (hle : d ≤ 16) :
    meetsTarget (nonceId n) (targetForDifficulty d) = true := by
  have hbytes : (nonceId n).asBytes = 4 :: (le64 n ++ List.replicate 23 0) := by
    rw [Hash256.asBytes, nonceId, toList_pad32 (by simp)]
    simp
  have hlt := beNat_lt (le64 n ++ List.replicate 23 0)
  have hd' : d.toNat ≤ 16 := UInt64.le_iff_toNat_le.mp hle
  rw [meetsTarget_iff hd, hbytes, beNat_cons]
  simp only [List.length_append, length_le64, List.length_replicate] at hlt ⊢
  generalize beNat _ = low at hlt ⊢
  have hfour : (4 : UInt8).toNat = 4 := rfl
  rw [hfour]
  have hmul : (4 * 256 ^ (8 + 23) + low) * d.toNat ≤ 5 * 256 ^ (8 + 23) * 16 :=
    Nat.mul_le_mul (by omega) hd'
  exact Nat.le_trans hmul (by norm_num)

theorem toNat_hastyHeight {n : ℕ} (hn : n < 5) :
    (UInt64.ofNat (hastyBranch n).length).toNat = n + 1 := by
  rw [length_hastyBranch, UInt64.toNat_ofNat', Nat.mod_eq_of_lt (by omega)]

theorem retarget_hasty : ∀ n < 5, 1 ≤ retarget hastyGenesis ((hastyBranch n).map Prod.snd) ∧
    retarget hastyGenesis ((hastyBranch n).map Prod.snd) ≤ 16 := by
  decide

theorem hastyNext_ok {n : ℕ} (hn : n < 5) : BlockOk smallCrates hastyGenesis
    ((hastyBranch n).map Prod.snd) (nonceId (UInt64.ofNat (hastyBranch n).length))
    (hastyNext (hastyBranch n)) where
  id := blockId_small _
  root := (merkleRoot_nil smallCrates).symm
  target := meetsTarget_nonceId_le _ (retarget_hasty n hn).1 (retarget_hasty n hn).2
  signed := fun tx htx => absurd htx (List.not_mem_nil)
  height := by rw [List.length_map, length_hastyBranch, ← toNat_hastyHeight hn]; rfl
  height_lt := by rw [List.length_map, length_hastyBranch, toNat_epochLength]; omega
  difficulty := rfl

/-- The first five of them become the tip, one after the other. -/
theorem hastyBranch_canonical {n : ℕ} (hn : n ≤ 5) :
    ∃ t, Canonical smallCrates hastyGenesis
        ((chainMachine smallCrates hastyGenesis).run hastyOpen (hastyBlocks n)).state
        (UInt64.ofNat n) t (hastyBranch n) ∧
      ∀ m : UInt64, n < m.toNat →
        ((chainMachine smallCrates hastyGenesis).run hastyOpen (hastyBlocks n)).state.blocks
          (nonceId m) = none := by
  induction n with
  | zero =>
    obtain ⟨-, hcan, honly⟩ := openDb_canonical init_hasty
    exact ⟨_, hcan, fun m _ => honly _ (nonceId_ne_genesisHash m)⟩
  | succ n ih =>
    obtain ⟨t, hcan, hfree⟩ := ih (by omega)
    have hinv : ChainInv smallCrates hastyGenesis
        ((chainMachine smallCrates hastyGenesis).run hastyOpen (hastyBlocks n)) :=
      chainInv (Machine.Reachable.run (.init init_hasty) _)
    have hrun : (chainMachine smallCrates hastyGenesis).run hastyOpen (hastyBlocks (n + 1))
        = ((chainMachine smallCrates hastyGenesis).run hastyOpen (hastyBlocks n)).submit smallCrates
          (hastyNext (hastyBranch n)) := Machine.run_map_range _ _ n
    generalize (chainMachine smallCrates hastyGenesis).run hastyOpen (hastyBlocks n) = c
      at hcan hfree hinv hrun
    have hid : blockId smallCrates (hastyNext (hastyBranch n))
        = nonceId (UInt64.ofNat (hastyBranch n).length) := blockId_small _
    have hword := toNat_hastyHeight hn
    have hprev : (hastyNext (hastyBranch n)).header.prevHash = t := by
      obtain ⟨b, l, -, hl⟩ := hcan.branch.head
      rw [hastyNext, hl]
      rfl
    have hok := hastyNext_ok hn
    rw [← hid] at hok
    have hnew : c.state.blocks (blockId smallCrates (hastyNext (hastyBranch n))) = none := by
      rw [hid]
      exact hfree _ (by omega)
    have hcan' := Canonical.extend_empty hinv hcan hprev hnew hok (retarget_hasty n hn).1 rfl
    have hheight : (hastyNext (hastyBranch n)).header.height = UInt64.ofNat (n + 1) := by
      rw [hastyNext, length_hastyBranch]
    rw [hrun, hastyBranch, ← hid]
    rw [hheight] at hcan'
    refine ⟨_, hcan', fun m hm => ?_⟩
    refine blocks_submit_of_ne hinv (hfree m (by omega)) ?_
    rw [hid]
    refine nonceId_ne fun heq => ?_
    rw [heq, hword] at hm
    omega

/-- One change within 3 blocks: the difficulties at heights 0 to 4 are 1, 1, 1, 1 and 4. -/
theorem paced_hasty : Paced hastyGenesis (upward (hastyBranch 4)) where
  once s hs := by
    have hwindow : hastyGenesis.window.toNat = 3 := rfl
    have hlen : (upward (hastyBranch 4)).length = 5 := rfl
    rintro i ⟨-, hi, hge, -⟩ j ⟨-, hj, hge', -⟩
    omega
  clamped i _ hge hi := by
    have hwindow : hastyGenesis.window.toNat = 3 := rfl
    have hlen : (upward (hastyBranch 4)).length = 5 := rfl
    obtain rfl : i = 3 := by omega
    unfold Clamped
    decide

theorem oncePerWindow_iff_hasty : ∃ c h, (chainMachine smallCrates hastyGenesis).Reachable c ∧
    Branch smallCrates hastyGenesis c.state h (hastyBranch 4) ∧
    OncePerWindow hastyGenesis (upward (hastyBranch 4)) := by
  obtain ⟨t, hcan, -⟩ := hastyBranch_canonical (n := 4) (by decide)
  have hreach := Machine.Reachable.run (.init init_hasty) (hastyBlocks 4)
  exact ⟨_, t, hreach, hcan.branch, (oncePerWindow_iff hreach hcan.branch).mpr paced_hasty⟩

/-- Two changes within 3 blocks: the difficulties at heights 3, 4 and 5 are 1, 4 and 16. -/
theorem not_oncePerWindow_hasty : ∃ c h l, (chainMachine smallCrates hastyGenesis).Reachable c ∧
    Branch smallCrates hastyGenesis c.state h l ∧ ¬ OncePerWindow hastyGenesis (upward l) := by
  obtain ⟨t, hcan, -⟩ := hastyBranch_canonical (n := 5) (le_refl 5)
  refine ⟨_, t, _, Machine.Reachable.run (.init init_hasty) _, hcan.branch, fun honce => ?_⟩
  have hthree : difficultyAt hastyGenesis (upward (hastyBranch 5)) 3
      ≠ difficultyAt hastyGenesis (upward (hastyBranch 5)) 4 := by decide
  have hfour : difficultyAt hastyGenesis (upward (hastyBranch 5)) 4
      ≠ difficultyAt hastyGenesis (upward (hastyBranch 5)) 5 := by decide
  have heq := honce.once 3 (by decide) ⟨le_refl 3, by decide, hthree⟩ ⟨by decide, by decide, hfour⟩
  cases heq

end Ondris
