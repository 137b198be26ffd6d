import Ondris.Propagation

/-!
# The ledger of a node

Accounts and fork choice over whole runs of a node: blocks that peers and miners hand in,
with the orphans that they wake, calls, rebroadcasts and restarts.

Results:
1. `replayed_reachable`: the accounts are the replay of the canonical chain, and no valid
   branch that is stored has more work.
2. `node_ledger`: a later tip has more work, or nothing has changed.
-/

namespace Ondris

open Ledger

/-- The accounts are the replay of the canonical chain, which is the heaviest valid one. -/
structure Replayed (K : Crates) (g : GenesisConfig) (st : ChainState) : Prop where
  ledger : LedgerInv K g st
  heaviest : Heaviest K g st

variable {K : Crates} {g : GenesisConfig} {node : Node} {st st' : ChainState}

theorem Replayed.congr (h : Replayed K g st) (hcore : st'.core = st.core) : Replayed K g st' :=
  ⟨h.ledger.congr hcore, h.heaviest.congr hcore⟩

/-- A call of `submit_block`, with what the node makes of its outcome. -/
theorem Replayed.retry (hbound : SupplyBound g) (hc : ChainInv K g node.chain)
    (h : Replayed K g node.chain.state) (b : Block) :
    Replayed K g (node.retry K b).1.chain.state := by
  have hroom := roomFor_of_bound hbound hc b
  have hsubmit : Replayed K g (node.chain.submit K b).state :=
    ⟨h.ledger.submit hc hroom, h.heaviest.submit hc h.ledger hroom⟩
  exact hsubmit.congr (core_retry node b)

/-- A block and all the orphans that it wakes. -/
theorem Replayed.accept (hbound : SupplyBound g) (hc : ChainInv K g node.chain)
    (h : Replayed K g node.chain.state) (b : Block) :
    Replayed K g (node.acceptAndBroadcast K b).1.chain.state := by
  obtain ⟨-, hend⟩ := (node.loop_acceptAndBroadcast b).invariant (Q := fun _ => True)
    (I := fun m _ _ => ChainInv K g m.chain ∧ Replayed K g m.chain.state)
    (fun m i _ _ _ ⟨hinv, hm⟩ => ⟨hinv.retry i, hm.retry hbound hinv i⟩)
    (fun m k _ hm => hm) (fun _ _ => trivial) ⟨hc, h⟩
  exact hend

theorem Replayed.step (hbound : SupplyBound g) (hinv : NodeInv K g node)
    (h : Replayed K g node.chain.state) (i : NodeInput) :
    Replayed K g ((nodeMachine K g).step node i).chain.state := by
  rcases node_sent_cases hinv i with ⟨b, -, hstep⟩ | ⟨hquiet, -⟩ | ⟨hquiet, -⟩
  · rw [hstep]
    exact h.accept hbound hinv.chain b
  · exact h.congr hquiet.core
  · exact h.congr hquiet.core

theorem replayed_reachable (hbound : SupplyBound g) (hn : (nodeMachine K g).Reachable node) :
    Replayed K g node.chain.state := by
  refine Machine.Reach.invariant (P := fun node => Replayed K g node.chain.state)
    (fun node hinit => ?_) (fun node i hr _ ih => ih.step hbound (nodeInv hr) i) hn
  obtain ⟨c, hc, rfl⟩ := hinit
  exact ⟨ledgerInv hbound (.init hc), heaviest hbound (.init hc)⟩

/-- **A node follows the heaviest valid branch.** At every point of every run of a node its
accounts are the replay of the branch of its tip, and no valid branch that is stored has more
work. From there on branches stay stored, and either the tip and the accounts are the same as
before or the new tip has more work: a tip that was left is never the tip again. -/
theorem node_ledger (hbound : SupplyBound g) (hn : (nodeMachine K g).Reachable node)
    (is : List NodeInput) {m : Node} (hm : m = (nodeMachine K g).run node is) :
    ∃ n t l n' t' l', Canonical K g node.chain.state n t l ∧ Canonical K g m.chain.state n' t' l' ∧
      branchLedger K g l' = some m.chain.state.ledger ∧
      (∀ h b, Branch K g m.chain.state h b → (branchLedger K g b).isSome →
        branchWork b ≤ branchWork l') ∧
      (∀ h b, Branch K g node.chain.state h b → Branch K g m.chain.state h b) ∧
      (m.chain.state.tip = node.chain.state.tip ∧ m.chain.state.ledger = node.chain.state.ledger ∨
        branchWork l < branchWork l') := by
  have hinv := nodeInv hn
  have hadv := advances_run hinv is
  have hreplayed := replayed_reachable hbound (hn.run is)
  rw [← hm] at hadv hreplayed
  obtain ⟨n, t, l, hcan⟩ := hinv.chain.canonical
  obtain ⟨n', t', l', hcan'⟩ := hadv.inv.chain.canonical
  refine ⟨n, t, l, n', t', l', hcan, hcan', (hreplayed.ledger n' t' l' hcan').2,
    hreplayed.heaviest n' t' l' hcan', hadv.later.branches, ?_⟩
  rcases hadv.later.tip with ⟨htip, haccounts⟩ | hmore
  · refine .inl ⟨htip, funext fun addr => ?_⟩
    rw [ChainState.ledger, ChainState.ledger, ChainState.getAccount, ChainState.getAccount,
      haccounts]
  · exact .inr (hmore n t l n' t' l' hcan hcan')

/-- A block of the node's miner, a restart, and the block once more. -/
theorem node_ledger_small : ∃ n t l n' t' l', Canonical smallCrates smallGenesis smallNode.chain.state n t l ∧
    Canonical smallCrates smallGenesis ((nodeMachine smallCrates smallGenesis).run smallNode
      [.submitBlock forkB1, .restart, .event (.newBlock forkB1)]).chain.state n' t' l' ∧
    branchWork l ≤ branchWork l' := by
  obtain ⟨n, t, l, n', t', l', hcan, hcan', -, hheaviest, hbranches, -⟩ :=
    node_ledger supplyBound_small (.init init_smallNode)
      [.submitBlock forkB1, .restart, .event (.newBlock forkB1)] rfl
  refine ⟨n, t, l, n', t', l', hcan, hcan', hheaviest t l (hbranches t l hcan.branch) ?_⟩
  rw [((replayed_reachable supplyBound_small (.init init_smallNode)).ledger n t l hcan).2]
  rfl

end Ondris
