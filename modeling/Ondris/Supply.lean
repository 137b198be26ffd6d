import Mathlib.Algebra.BigOperators.Intervals
import Ondris.Consensus

/-!
# Supply

Below the supply bound the balances add up to the premine and the block rewards,
less the fees, which nobody receives; the rewards are capped by the halving
schedule.

Results:
1. `rewardsUpTo_le`: the cap, for every height.
2. `supply_conserved`: the balances of every reachable chain.
-/

namespace Ondris

open Ledger

/-! ## Definitions -/

/-- The sum of the premine. -/
def GenesisConfig.premineTotal (g : GenesisConfig) : ℕ := (g.premine.map (·.amount.toNat)).sum

/-- The rewards of the heights from 1 to `height`. -/
def GenesisConfig.rewardsUpTo (g : GenesisConfig) (height : UInt64) : ℕ :=
  ∑ i ∈ Finset.Icc 1 height.toNat, (g.blockReward (UInt64.ofNat i)).toNat

/-- The sum of all balances. -/
def ChainState.totalBalance (st : ChainState) : ℕ := ∑ addr, (st.getAccount addr).balance.toNat

/-- The fees of a list of blocks. -/
def totalFees (blocks : List Block) : ℕ :=
  ((blocks.flatMap (·.transactions.val)).map (·.fee.toNat)).sum

variable {K : Crates} {g : GenesisConfig} {c : Chain} {st : ChainState}

/-! ## Rewards -/

/-- The geometric series of the halvings stays below twice its first interval. -/
theorem rewardsUpTo_le (g : GenesisConfig) (height : UInt64) :
    g.rewardsUpTo height ≤ 2 * g.initialReward.toNat * g.halvingInterval1.toNat := by
  have hseries := rewards_le g.initialReward.toNat g.halvingInterval1.toNat
    g.one_le_halvingInterval1 (height.toNat + 1)
  have hsum : g.rewardsUpTo height ≤ ∑ i ∈ Finset.range (height.toNat + 1),
      g.initialReward.toNat / 2 ^ (i / g.halvingInterval1.toNat) := by
    have hterm : ∀ i ∈ Finset.Icc 1 height.toNat, (g.blockReward (UInt64.ofNat i)).toNat
        = g.initialReward.toNat / 2 ^ (i / g.halvingInterval1.toNat) := by
      intro i hi
      have hlt := height.toNat_lt
      have hle := (Finset.mem_Icc.mp hi).2
      rw [toNat_blockReward, UInt64.toNat_ofNat_of_lt' (by
        have hsize : UInt64.size = 2 ^ 64 := rfl
        omega)]
    rw [GenesisConfig.rewardsUpTo, Finset.sum_congr rfl hterm]
    refine Finset.sum_le_sum_of_subset fun i hi => ?_
    have hle := (Finset.mem_Icc.mp hi).2
    exact Finset.mem_range.mpr (by omega)
  omega

/-- The rewards of a branch are those of its heights. -/
theorem branch_rewards_eq (hs : WellStored K g st) {h : Hash256} {l : BlockChain}
    (hl : Branch K g st h l) : (l.dropLast.map fun p => (p.2.page K g).reward).sum
      = ∑ i ∈ Finset.Icc 1 (l.length - 1), (g.blockReward (UInt64.ofNat i)).toNat := by
  induction hl with
  | root _ => rfl
  | @step h b l hne hb hl ih =>
    have hheight := hs.height_eq (.step hne hb hl)
    have hpos := hl.length_pos
    have hlast : l.length = l.length - 1 + 1 := by omega
    have hof : UInt64.ofNat l.length = b.header.height := by
      rw [← hheight, UInt64.ofNat_toNat]
    rw [List.dropLast_cons_of_ne_nil hl.ne_nil, List.map_cons, List.sum_cons, List.length_cons,
      Nat.add_sub_cancel, ih, Block.reward_page, hlast, Finset.sum_Icc_succ_top (by omega), ← hlast,
      hof, Nat.add_comm]

/-! ## Balances -/

/-- A reachable chain has a premine that parses. -/
theorem exists_premineParsed (hc : (chainMachine K g).Reachable c) :
    ∃ ps, g.premineParsed = .ok ps := by
  refine Machine.Reach.invariant (P := fun _ => ∃ ps, g.premineParsed = .ok ps)
    (fun c hinit => ?_) (fun _ _ _ _ ih => ih) hc
  obtain ⟨ws, hws, -⟩ := openDb_empty hinit
  obtain ⟨ps, hpre, -⟩ := initGenesis_cases hws
  exact ⟨ps, hpre⟩

theorem supply_openingLedger {ps : List (Address × UInt64)} (hpre : g.premineParsed = .ok ps) :
    supply g.openingLedger = g.premineTotal := by
  rw [GenesisConfig.openingLedger, supply_foldl_credit, hpre, Except.toOption, Option.getD_some,
    premineParsed_amounts hpre, supply_zero, Nat.zero_add, GenesisConfig.premineTotal]

theorem fees_page (b : Block) :
    fees (b.page K g).payments = (b.transactions.val.map (·.fee.toNat)).sum := by
  rw [fees, Block.page, List.map_map]
  rfl

theorem totalFees_eq (l : BlockChain) :
    ((branchPages K g l).map fun P => fees P.payments).sum
      = totalFees (l.dropLast.map Prod.snd).reverse := by
  rw [branchPages, totalFees, List.map_reverse, List.sum_reverse, List.map_map, List.map_flatMap,
    List.flatMap_def, List.sum_flatten, List.map_map, List.map_reverse, List.sum_reverse,
    List.map_map]
  congr 2
  funext p
  exact fees_page p.2

/-- **Supply conservation and cap.** -/
theorem supply_conserved (hbound : SupplyBound g) (hc : (chainMachine K g).Reachable c) :
    ∃ n t blocks, c.state.tip = some (n, t) ∧ CanonicalBlocks c.state blocks ∧
      c.state.totalBalance + totalFees blocks = g.premineTotal + g.rewardsUpTo n ∧
      (∀ height, g.rewardsUpTo height ≤ 2 * g.initialReward.toNat * g.halvingInterval1.toNat) ∧
      ∀ addr, (c.state.getAccount addr).balance.toNat
        ≤ g.premineTotal + 2 * g.initialReward.toNat * g.halvingInterval1.toNat := by
  have hinv := chainInv hc
  obtain ⟨n, t, l, hcan⟩ := hinv.canonical
  have hsupply := supply_replay (ledgerInv hbound hc n t l hcan).2
  have hlen : l.length - 1 = n.toNat := by
    have hheight := hcan.height
    omega
  have hrewards : ((branchPages K g l).map (·.reward)).sum = g.rewardsUpTo n := by
    rw [branchPages, List.map_reverse, List.sum_reverse, List.map_map, GenesisConfig.rewardsUpTo,
      ← hlen, ← branch_rewards_eq (K := K) hinv.stored hcan.branch]
    rfl
  obtain ⟨ps, hpre⟩ := exists_premineParsed hc
  rw [totalFees_eq, hrewards, supply_openingLedger hpre] at hsupply
  refine ⟨n, t, _, hcan.tip, hcan.canonicalBlocks, hsupply, rewardsUpTo_le g, fun addr => ?_⟩
  have hbal : (c.state.getAccount addr).balance.toNat ≤ supply c.state.ledger :=
    balance_le_supply c.state.ledger addr
  have hcap := rewardsUpTo_le g n
  omega

theorem supply_conserved_reorg : reorgChain₃.state.tip = some (2, nonceId 2) ∧
    ∃ n t blocks, reorgChain₃.state.tip = some (n, t) ∧
    CanonicalBlocks reorgChain₃.state blocks ∧
    reorgChain₃.state.totalBalance + totalFees blocks
      = reorgGenesis.premineTotal + reorgGenesis.rewardsUpTo n ∧
    (∀ height, reorgGenesis.rewardsUpTo height
      ≤ 2 * reorgGenesis.initialReward.toNat * reorgGenesis.halvingInterval1.toNat) ∧
    ∀ addr, (reorgChain₃.state.getAccount addr).balance.toNat ≤ reorgGenesis.premineTotal
      + 2 * reorgGenesis.initialReward.toNat * reorgGenesis.halvingInterval1.toNat :=
  ⟨reorgChain₃_canonical.tip, supply_conserved supplyBound_reorg reachable_reorg₃⟩

end Ondris
