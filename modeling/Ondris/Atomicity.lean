import Ondris.Extension

/-!
# Rejected submissions

`submit_block` stores a block before it simulates the reorganisation to it, so a
block rejected by the simulation stays stored.

Results:
1. `simulates_state`: what a chain answers depends on its store only, not on the
   dataset it keeps in memory.
2. `atomic_iff`: a rejected submission leaves no trace exactly when the block was
   not rejected by the simulation; `not_atomic_badNonce`: the trace is seen by
   the next submission.
3. `rejectedLate_iff_replay`: below the supply bound these are the blocks that
   outweigh the tip on a branch that does not replay.
-/

namespace Ondris

/-! ## Definitions -/

/-- A rejection of the block leaves the store as it was, and all later answers
are those of the chain that never saw the block. -/
def Atomic (K : Crates) (g : GenesisConfig) (c : Chain) (b : Block) : Prop :=
  ∀ e, (c.submitBlock K b).result = .error e → (c.submit K b).state = c.state ∧
    ∀ bs, (chainMachine K g).outputs (c.submit K b) bs = (chainMachine K g).outputs c bs

/-- The block is stored and outweighs the tip, but the simulation from the tip to
its branch fails. -/
def RejectedLate (K : Crates) (g : GenesisConfig) (c : Chain) (b : Block) : Prop :=
  ∃ n t lo lp a p s e, Canonical K g c.state n t lo ∧ Placement K g c.state lo b lp a p s ∧
    branchWork lo < branchWork ((blockId K b, b) :: lp) ∧ simulate K g c.state a p = .error e

variable {K : Crates} {g : GenesisConfig} {c d : Chain}

/-! ## Answers depend on the store only -/

/-- Chains with one store write and answer alike. -/
theorem submitBlock_congr (hc : ChainInv K g c) (hd : ChainInv K g d) (hst : c.state = d.state)
    (b : Block) : (c.submitBlock K b).result = (d.submitBlock K b).result ∧
      (c.submitBlock K b).writes = (d.submitBlock K b).writes := by
  unfold Chain.submitBlock
  rw [hc.genesis, hd.genesis, hst]
  rcases Nat.lt_or_ge b.header.height.toNat epochLength.toNat with hlow | hhigh
  · rw [datasetForHeight_low hc hlow, datasetForHeight_low hd hlow]
    split
    · exact ⟨rfl, rfl⟩
    · exact ⟨rfl, rfl⟩
  · rw [datasetForHeight_high hc hhigh, datasetForHeight_high hd hhigh]
    split
    · exact ⟨rfl, rfl⟩
    · exact ⟨rfl, rfl⟩

/-- One store simulates itself under any dataset in memory. -/
theorem simulates_state : (chainMachine K g).Simulates
    fun c d => ChainInv K g c ∧ ChainInv K g d ∧ c.state = d.state where
  out c d b h := (submitBlock_congr h.1 h.2.1 h.2.2 b).1
  step c d b h := by
    obtain ⟨hc, hd, hst⟩ := h
    refine ⟨hc.submit b, hd.submit b, ?_⟩
    show c.state.writes _ = d.state.writes _
    rw [hst, (submitBlock_congr hc hd hst b).2]

/-! ## Atomicity -/

/-- What a block rejected by the simulation leaves behind. -/
theorem RejectedLate.submit (hc : ChainInv K g c) {b : Block} (hb : RejectedLate K g c b) :
    (∃ e, (c.submitBlock K b).result = .error e) ∧
      c.state.blocks (blockId K b) = none ∧
      (c.submit K b).state.blocks (blockId K b) = some b := by
  obtain ⟨n, t, lo, lp, a, p, s, e, hcan, hpl, hwork, hsim⟩ := hb
  have heq := submitBlock_storable hc hcan hpl
  rw [storeOutcome, if_pos hwork, hsim] at heq
  refine ⟨⟨e, by rw [heq]⟩, hpl.new, ?_⟩
  have hstate : (c.submit K b).state = c.state.writes (c.submitBlock K b).writes := rfl
  rw [hstate, heq]
  simp only
  rw [blocks_store, Function.update_self]

/-- A block that is rejected otherwise is not written. -/
theorem state_of_error (hc : ChainInv K g c) {b : Block} (hb : ¬ RejectedLate K g c b)
    {e : ChainError} (he : (c.submitBlock K b).result = .error e) :
    (c.submit K b).state = c.state := by
  obtain ⟨n, t, lo, hcan⟩ := hc.canonical
  have hstate : (c.submit K b).state = c.state.writes (c.submitBlock K b).writes := rfl
  by_cases hst : Storable K g c.state b
  · obtain ⟨lp, a, p, s, hpl⟩ := Placement.exists hc.stored hcan hst
    rw [submitBlock_storable hc hcan hpl, storeOutcome] at he
    by_cases hwork : branchWork lo < branchWork ((blockId K b, b) :: lp)
    · rw [if_pos hwork] at he
      cases hsim : simulate K g c.state a p with
      -- the one error after the first write
      | error e' => exact absurd ⟨n, t, lo, lp, a, p, s, e', hcan, hpl, hwork, hsim⟩ hb
      | ok overlay =>
        rw [hsim] at he
        cases he
    · rw [if_neg hwork] at he
      cases he
  · rw [hstate, submitBlock_unstorable hc hst]
    rfl

/-- **A rejection is atomic exactly when it does not come from the simulation.** -/
theorem atomic_iff (hc : (chainMachine K g).Reachable c) (b : Block) :
    Atomic K g c b ↔ ¬ RejectedLate K g c b := by
  have hinv := chainInv hc
  constructor
  · intro hatomic hlate
    obtain ⟨⟨e, he⟩, hnone, hsome⟩ := hlate.submit hinv
    rw [(hatomic e he).1, hnone] at hsome
    cases hsome
  · intro hlate e he
    have hst := state_of_error hinv hlate he
    exact ⟨hst, fun bs => simulates_state.outputs_eq ⟨hinv.submit b, hinv, hst⟩ bs⟩

/-- Below the supply bound the simulation fails exactly when the branch of the block
does not replay. -/
theorem rejectedLate_iff_replay (hbound : SupplyBound g) (hc : (chainMachine K g).Reachable c)
    (b : Block) : RejectedLate K g c b ↔ ∃ n t lo lp a p s, Canonical K g c.state n t lo ∧
      Placement K g c.state lo b lp a p s ∧ branchWork lo < branchWork ((blockId K b, b) :: lp) ∧
      branchLedger K g ((blockId K b, b) :: lp) = none := by
  have hinv := chainInv hc
  have hledger := ledgerInv hbound hc
  constructor
  · rintro ⟨n, t, lo, lp, a, p, s, e, hcan, hpl, hwork, hsim⟩
    have hreplay := hpl.simulate_ledger hinv hledger hcan (hpl.hasRoom hbound hinv.stored)
    rw [hsim] at hreplay
    exact ⟨n, t, lo, lp, a, p, s, hcan, hpl, hwork, hreplay.symm⟩
  · rintro ⟨n, t, lo, lp, a, p, s, hcan, hpl, hwork, hnone⟩
    have hreplay := hpl.simulate_ledger hinv hledger hcan (hpl.hasRoom hbound hinv.stored)
    rw [hnone] at hreplay
    cases hsim : simulate K g c.state a p with
    | error e => exact ⟨n, t, lo, lp, a, p, s, e, hcan, hpl, hwork, hsim⟩
    | ok overlay =>
      rw [hsim] at hreplay
      cases hreplay

/-- A block that is known is not looked at again. -/
theorem submitBlock_known (hc : ChainInv K g c) {b : Block} (hzero : b.header.height ≠ 0)
    (hlow : b.header.height.toNat < epochLength.toNat)
    (hknown : (c.state.blocks (blockId K b)).isSome) :
    (c.submitBlock K b).result = .ok .alreadyKnown := by
  have hblock : c.state.hasBlock (b.header.id K (epochZeroDataset K)) = true := hknown
  have hcheck : checkBlock K g c.state (epochZeroDataset K) b = .ok (.done .alreadyKnown) := by
    simp only [checkBlock, hblock, if_true]
  rw [submitBlock_of_done hc hzero hlow hcheck]

/-- A second genesis block is rejected and leaves no trace. -/
theorem atomic_secondGenesis :
    (smallChain.submitBlock smallCrates smallGenesis.genesisBlock).result = .error .secondGenesis ∧
      Atomic smallCrates smallGenesis smallChain smallGenesis.genesisBlock := by
  refine ⟨rfl, (atomic_iff reachable_small smallGenesis.genesisBlock).mpr ?_⟩
  rintro ⟨n, t, lo, lp, a, p, s, e, -, hpl, -⟩
  exact hpl.storable.height_ne_zero rfl

/-- A block on genesis whose transaction is out of sequence. -/
def badNonce : Block := sampleBlock [sampleTx 5] (by decide)

theorem badNonce_ok : BlockOk smallCrates smallGenesis [smallGenesis.genesisBlock]
    (blockId smallCrates badNonce) badNonce where
  id := rfl
  root := rfl
  target := by
    rw [blockId_small]
    exact meetsTarget_nonceId _
  signed := by decide
  height := by decide
  height_lt := by decide
  difficulty := by decide

/-- The block is known after its rejection, and reported so. -/
theorem not_atomic_badNonce : (chainMachine smallCrates smallGenesis).Reachable smallOpen ∧
    (∃ e, (smallOpen.submitBlock smallCrates badNonce).result = .error e) ∧
    ((smallOpen.submit smallCrates badNonce).submitBlock smallCrates badNonce).result
      = .ok .alreadyKnown ∧
    ¬ Atomic smallCrates smallGenesis smallOpen badNonce := by
  obtain ⟨hcan, honly⟩ := canonical_smallOpen
  have hinv := chainInv (.init init_small)
  have hnew : smallOpen.state.blocks (blockId smallCrates badNonce) = none := by
    rw [blockId_small]
    exact honly _ (nonceId_ne_genesisHash _)
  have happ : applyBlock smallCrates smallGenesis smallOpen.state ∅ (blockId smallCrates badNonce)
      badNonce = .error (.invalidTxNonce (blockId smallCrates badNonce) 1) := by
    have hacc : getAcc smallOpen.state ∅ ((sampleTx 5).sender smallCrates)
        = smallOpen.state.getAccount ((sampleTx 5).sender smallCrates) := rfl
    have hne : (sampleTx 5).accountNonce
        ≠ (smallOpen.state.getAccount ((sampleTx 5).sender smallCrates)).nonce := by
      rw [nonce_smallOpen]
      decide
    have htxs : badNonce.transactions.val = [sampleTx 5] := rfl
    rw [applyBlock, htxs, applyTxs, applyTx, hacc, if_pos hne]
    rfl
  have hone : (1 : UInt64) ≤ badNonce.header.difficulty := UInt64.le_refl 1
  have hsubmit := submitBlock_extension hinv hcan rfl hnew badNonce_ok hone
  rw [happ] at hsubmit
  have hresult : (smallOpen.submitBlock smallCrates badNonce).result
      = .error (.invalidTxNonce (blockId smallCrates badNonce) 1) := by rw [hsubmit]
  have hstored : (smallOpen.submit smallCrates badNonce).state.blocks (blockId smallCrates badNonce)
      = some badNonce := by
    have hstate : (smallOpen.submit smallCrates badNonce).state
        = smallOpen.state.writes (smallOpen.submitBlock smallCrates badNonce).writes := rfl
    rw [hstate, hsubmit, blocks_store, Function.update_self]
  refine ⟨.init init_small, ⟨_, hresult⟩, ?_, fun hatomic => ?_⟩
  · refine submitBlock_known (hinv.submit badNonce) (by decide) (by decide) ?_
    rw [hstored]
    rfl
  · rw [(hatomic _ hresult).1, hnew] at hstored
    cases hstored

end Ondris
