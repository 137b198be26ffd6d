import Ondris.Instance

/-!
# What holds of every reachable chain

Results:
1. `ledger_eq_replay`: below the supply bound the accounts are the replay of the
   premine and of the canonical blocks in height order.
2. `store_representation`: the height index is the parent chain of the tip, and
   every stored block is well formed on its own branch.
3. `fork_choice`: below the supply bound the tip has the most work of all stored
   branches that replay, and moves only to more work.
-/

namespace Ondris

open Ledger

/-! ## Definitions -/

/-- The canonical blocks from height 1 to the tip, as the height index gives them. -/
def CanonicalBlocks (st : ChainState) (blocks : List Block) : Prop :=
  ∃ n t, st.tip = some (n, t) ∧ blocks.length = n.toNat ∧
    ∀ i, 1 ≤ i → i ≤ n → st.getBlockByHeight i = blocks[i.toNat - 1]?

/-- The height index is the parent chain of the tip `t` at height `n`. -/
structure IndexRep (K : Crates) (g : GenesisConfig) (st : ChainState) (n : UInt64) (t : Hash256) :
    Prop where
  tip : st.tip = some (n, t)
  domain : ∀ i, (st.heights i).isSome ↔ i ≤ n
  top : st.heights n = some t
  bottom : st.heights 0 = some (g.genesisHash K)
  genesis : st.blocks (g.genesisHash K) = some g.genesisBlock
  chained : ∀ i h, st.heights i = some h → ∃ b, st.blocks h = some b ∧ b.header.height = i ∧
    (i ≠ 0 → st.heights (i - 1) = some b.header.prevHash)

/-- The block `b` stored under `h` is well formed on its own branch. -/
structure StoredRep (K : Crates) (g : GenesisConfig) (st : ChainState) (h : Hash256) (b : Block) :
    Prop where
  id : blockId K b = h
  target : meetsTarget h (targetForDifficulty b.header.difficulty) = true
  root : b.header.txRoot = b.computeTxRoot K
  signed : ∀ tx ∈ b.transactions.val, tx.isSignatureValid K = true
  parent : ∃ q, st.blocks b.header.prevHash = some q ∧
    q.header.height.toNat + 1 = b.header.height.toNat
  branch : ∃ l, Branch K g st h ((h, b) :: l) ∧ b.header.difficulty = retarget g (l.map Prod.snd) ∧
    st.chainwork h
      = some (b.header.difficulty.toNat + (l.map fun p => p.2.header.difficulty.toNat).sum)

variable {K : Crates} {g : GenesisConfig} {c : Chain}

/-! ## The canonical chain -/

/-- The entry at height `i` of a list kept top first has `i` entries below it. -/
theorem getElem?_reverse_eq_some_iff {α : Type} {l : List α} {i : ℕ} {x : α} :
    l.reverse[i]? = some x ↔ ∃ pre s, l = pre ++ x :: s ∧ s.length = i := by
  constructor
  · intro h
    obtain ⟨hi, hx⟩ := List.getElem?_eq_some_iff.mp h
    refine ⟨(l.reverse.drop (i + 1)).reverse, (l.reverse.take i).reverse, ?_, ?_⟩
    · have hsplit : l.reverse = l.reverse.take i ++ x :: l.reverse.drop (i + 1) := by
        rw [← hx, ← List.drop_eq_getElem_cons hi, List.take_append_drop]
      have hback := congrArg List.reverse hsplit
      simpa using hback
    · rw [List.length_reverse, List.length_take]
      omega
  · rintro ⟨pre, s, rfl, rfl⟩
    simp

theorem Canonical.canonicalBlocks {st : ChainState} {n : UInt64} {t : Hash256} {l : BlockChain}
    (hcan : Canonical K g st n t l) : CanonicalBlocks st (l.dropLast.map Prod.snd).reverse := by
  have hlen := hcan.height
  refine ⟨n, t, hcan.tip, by simp; omega, fun i hi hin => ?_⟩
  rw [UInt64.le_iff_toNat_le] at hi hin
  have hone : (1 : UInt64).toNat = 1 := rfl
  rw [hcan.getBlockByHeight]
  obtain ⟨p, q, rfl⟩ : ∃ p q, l = p ++ [q] :=
    ⟨l.dropLast, l.getLast hcan.branch.ne_nil, (List.dropLast_append_getLast _).symm⟩
  have hsucc : i.toNat = i.toNat - 1 + 1 := by omega
  rw [List.dropLast_concat, List.reverse_append, List.reverse_singleton, List.singleton_append,
    List.map_cons, hsucc, List.getElem?_cons_succ, List.map_reverse, Nat.add_sub_cancel]

/-- **The ledger is the replay of the canonical chain.** -/
theorem ledger_eq_replay (hbound : SupplyBound g) (hc : (chainMachine K g).Reachable c) :
    ∃ blocks, CanonicalBlocks c.state blocks ∧
      replay g.openingLedger (blocks.map (·.page K g)) = some c.state.ledger := by
  obtain ⟨n, t, l, hcan⟩ := (chainInv hc).canonical
  refine ⟨_, hcan.canonicalBlocks, ?_⟩
  have hledger := (ledgerInv hbound hc n t l hcan).2
  rw [branchLedger, branchPages] at hledger
  rw [List.map_reverse, List.map_map]
  exact hledger

theorem ledger_eq_replay_reorg : reorgChain₃.state.tip = some (2, nonceId 2) ∧
    ∃ blocks, CanonicalBlocks reorgChain₃.state blocks ∧
      replay reorgGenesis.openingLedger (blocks.map (·.page smallCrates reorgGenesis))
        = some reorgChain₃.state.ledger :=
  ⟨reorgChain₃_canonical.tip, ledger_eq_replay supplyBound_reorg reachable_reorg₃⟩

/-! ## The store -/

theorem Canonical.indexRep {st : ChainState} (hs : WellStored K g st) {n : UInt64} {t : Hash256}
    {l : BlockChain} (hcan : Canonical K g st n t l) : IndexRep K g st n t where
  tip := hcan.tip
  domain i := by
    have hlen := hcan.height
    rw [hcan.index, UInt64.le_iff_toNat_le]
    simp only [isSome_getElem?, List.length_map, List.length_reverse]
    omega
  top := by
    obtain ⟨b, s, -, rfl⟩ := hcan.branch.head
    have hlen := hcan.height
    have htop : n.toNat = s.length := by
      rw [List.length_cons] at hlen
      omega
    have hget : ((t, b) :: s).reverse[s.length]? = some (t, b) :=
      getElem?_reverse_eq_some_iff.mpr ⟨[], s, rfl, rfl⟩
    rw [hcan.index, List.getElem?_map, htop, hget]
    rfl
  bottom := by
    obtain ⟨s, rfl⟩ := hs.genesis_prefix hcan.branch
    rw [hcan.index]
    simp
  genesis := hs.genesis
  chained i h hi := by
    rw [hcan.index, List.getElem?_map, Option.map_eq_some_iff] at hi
    obtain ⟨⟨k, b⟩, hp, rfl⟩ := hi
    obtain ⟨pre, s, rfl, hlen⟩ := getElem?_reverse_eq_some_iff.mp hp
    have hbr : Branch K g st k ((k, b) :: s) := hcan.branch.of_append
    have hheight : b.header.height = i := UInt64.toNat_inj.mp ((hs.height_eq hbr).trans hlen)
    refine ⟨b, hcan.branch.mem_get (by simp), hheight, fun hne => ?_⟩
    -- below it on the branch lies the block that the index has one height lower
    cases s with
    | nil => exact absurd (UInt64.toNat_inj.mp hlen.symm) hne
    | cons q s =>
      obtain ⟨-, -, hprev, -⟩ := hbr.next
      have hpred : (i - 1).toNat = s.length := by
        have hone : (1 : UInt64).toNat = 1 := rfl
        rw [List.length_cons] at hlen
        rw [toNat_sub_of_le (by omega), hone]
        omega
      have hget : (pre ++ (k, b) :: q :: s).reverse[s.length]? = some q :=
        getElem?_reverse_eq_some_iff.mpr ⟨pre ++ [(k, b)], s, by simp, rfl⟩
      rw [hcan.index, List.getElem?_map, hpred, hget, hprev]
      rfl

theorem WellStored.storedRep {st : ChainState} (hs : WellStored K g st) {h : Hash256} {b : Block}
    (hb : st.blocks h = some b) (hne : h ≠ g.genesisHash K) : StoredRep K g st h b := by
  obtain ⟨l, hl, hok⟩ := hs.stored h b hb hne
  obtain ⟨q, s, hq, rfl⟩ := hl.head
  have hbr := Lineage.step hne hb hl
  refine ⟨hok.id, hok.target, hok.root, hok.signed, ⟨q, hq, ?_⟩, _, hbr, hok.difficulty, ?_⟩
  · rw [hs.height_eq hl, hok.height, List.length_map, List.length_cons]
  · rw [hs.work h _ hbr, branchWork_cons]
    rfl

/-- **Store representation invariant.** -/
theorem store_representation (hc : (chainMachine K g).Reachable c) :
    (∃ n t, IndexRep K g c.state n t) ∧
      ∀ h b, c.state.blocks h = some b → h ≠ g.genesisHash K → StoredRep K g c.state h b := by
  have hinv := chainInv hc
  obtain ⟨n, t, l, hcan⟩ := hinv.canonical
  exact ⟨⟨n, t, hcan.indexRep hinv.stored⟩, fun h b => hinv.stored.storedRep⟩

theorem store_representation_reorg : reorgChain₃.state.tip = some (2, nonceId 2) ∧
    (∃ n t, IndexRep smallCrates reorgGenesis reorgChain₃.state n t) ∧
      ∀ h b, reorgChain₃.state.blocks h = some b → h ≠ reorgGenesis.genesisHash smallCrates →
        StoredRep smallCrates reorgGenesis reorgChain₃.state h b :=
  ⟨reorgChain₃_canonical.tip, store_representation reachable_reorg₃⟩

/-! ## Fork choice -/

/-- **Fork choice is heaviest valid branch.** -/
theorem fork_choice (hbound : SupplyBound g) (hc : (chainMachine K g).Reachable c) :
    ∃ n t l w, c.state.tip = some (n, t) ∧ Branch K g c.state t l ∧
      (branchLedger K g l).isSome ∧ c.state.getChainwork t = some w ∧
      (∀ h l', Branch K g c.state h l' → (branchLedger K g l').isSome →
        ∃ w', c.state.getChainwork h = some w' ∧ w' ≤ w) ∧
      ∀ b n' t', (c.submit K b).state.tip = some (n', t') → (n', t') ≠ (n, t) →
        ∃ w', (c.submit K b).state.getChainwork t' = some w' ∧ w < w' := by
  have hinv := chainInv hc
  obtain ⟨n, t, lo, hcan⟩ := hinv.canonical
  refine ⟨n, t, lo, branchWork lo, hcan.tip, hcan.branch, ?_, hinv.stored.work t lo hcan.branch,
    fun h l' hl' hvalid => ?_, fun b n' t' htip hne => ?_⟩
  · rw [(ledgerInv hbound hc n t lo hcan).2]
    rfl
  · exact ⟨_, hinv.stored.work h l' hl', heaviest hbound hc n t lo hcan h l' hl' hvalid⟩
  · have hinv' := hinv.submit b
    rcases submit_cases hinv hcan b with ⟨-, hst⟩ | ⟨lp, a, p, s, hpl, ⟨-, hst⟩ | ⟨o, hw, -, hst⟩⟩
    · rw [hst, hcan.tip] at htip
      exact absurd (Option.some.inj htip).symm hne
    · rw [hst, (hpl.canonical_stored hcan).tip] at htip
      exact absurd (Option.some.inj htip).symm hne
    · have hcan' := hpl.canonical hinv.stored hcan o
      rw [hst, hcan'.tip] at htip
      obtain ⟨rfl, rfl⟩ := Prod.mk.inj (Option.some.inj htip)
      rw [← hst] at hcan'
      exact ⟨_, hinv'.stored.work _ _ hcan'.branch, hw⟩

theorem fork_choice_reorg : reorgChain₃.state.tip = some (2, nonceId 2) ∧
    ∃ n t l w, reorgChain₃.state.tip = some (n, t) ∧
    Branch smallCrates reorgGenesis reorgChain₃.state t l ∧
    (branchLedger smallCrates reorgGenesis l).isSome ∧
    reorgChain₃.state.getChainwork t = some w ∧
    (∀ h l', Branch smallCrates reorgGenesis reorgChain₃.state h l' →
      (branchLedger smallCrates reorgGenesis l').isSome →
      ∃ w', reorgChain₃.state.getChainwork h = some w' ∧ w' ≤ w) ∧
    ∀ b n' t', (reorgChain₃.submit smallCrates b).state.tip = some (n', t') → (n', t') ≠ (n, t) →
      ∃ w', (reorgChain₃.submit smallCrates b).state.getChainwork t' = some w' ∧ w < w' :=
  ⟨reorgChain₃_canonical.tip, fork_choice supplyBound_reorg reachable_reorg₃⟩

end Ondris
