import Ondris.Commitment

/-!
# Extending the chain

Templates on the canonical tip and blocks that extend it.

Results:
1. `workTemplate_eq`: below the epoch boundary a template carries the difficulty
   that the checks of its block expect.
2. `retarget_paths_agree`: the template and the check of its block compute one
   difficulty, whatever was reorganised before.
3. `submitBlock_extension`: a well-formed block on the tip is accepted exactly when
   the apply loop accepts its transactions.
4. `extensible_iff`: a reachable chain can be extended exactly while the next
   height is in epoch 0; `extensible_small`: at height 2047 it cannot.
-/

namespace Ondris

open Encoding

/-! ## Definitions -/

def Block.withNonce (b : Block) (nonce : UInt64) : Block :=
  ⟨{ b.header with nonce }, b.transactions⟩

/-- The hash has no collision among genesis, the stored blocks and the block `b`,
and the text of genesis is not what a proof of work hashes. -/
structure NoCollision (K : Crates) (g : GenesisConfig) (st : ChainState) (dataset : Dataset)
    (b : Block) : Prop where
  free : CollisionFree K ({g.genesisText} ∪
    { x | ∃ h s, st.blocks h = some s ∧ x ∈ hashInputs K dataset s } ∪ hashInputs K dataset b)
  genesis : g.genesisText ∉ powInputs K dataset b.header

/-- The chain with tip height `n` can be extended by every miner at every time:
there is a dataset and a template, and every nonce that meets the target completes
it to a block that is accepted. -/
structure Extensible (K : Crates) (g : GenesisConfig) (c : Chain) (n : UInt64) : Prop where
  dataset : ∃ dataset, (c.datasetForHeight K (n + 1)).1 = .ok dataset
  template : ∀ miner now, ∃ b dataset, (c.workTemplate K miner now noTxs).1 = .ok (b, dataset)
  mined : ∀ miner now b dataset cache, c.workTemplate K miner now noTxs = (.ok (b, dataset), cache) →
    ∀ nonce, NoCollision K g c.state dataset (b.withNonce nonce) →
      meetsTarget ((b.withNonce nonce).header.id K dataset)
        (targetForDifficulty (b.withNonce nonce).header.difficulty) = true →
      ∃ hash reorged requeue,
        (Chain.submitBlock K ⟨c.state, c.genesis, cache⟩ (b.withNonce nonce)).result
          = .ok (.accepted hash (n + 1) reorged requeue)

variable {K : Crates} {g : GenesisConfig} {c : Chain}

/-! ## Templates -/

theorem one_le_retarget (hdiff : 1 ≤ g.initialDifficulty) (branch : List Block) :
    1 ≤ retarget g branch := by
  unfold retarget
  split
  · exact one_le_nextDifficulty _ _ _ _
  · exact hdiff

theorem Canonical.next_toNat {st : ChainState} (hs : WellStored K g st) {n : UInt64} {t : Hash256}
    {l : BlockChain} (hcan : Canonical K g st n t l) : (n + 1).toNat = l.length := by
  have hlen := hs.length_le hcan.branch
  have hheight := hcan.height
  rw [toNat_epochLength] at hlen
  rw [toNat_add_one_of_lt (by omega), hheight]

/-- The template's difficulty is the retarget rule on the branch of the tip. -/
theorem computeNextDifficulty_eq (hc : ChainInv K g c) {n : UInt64} {t : Hash256} {l : BlockChain}
    (hcan : Canonical K g c.state n t l) :
    c.computeNextDifficulty (n + 1) = .ok (retarget g (l.map Prod.snd)) := by
  have hnext := hcan.next_toNat hc.stored
  have hheight := hcan.height
  have hback : n + 1 - 1 = n - 0 := by
    simp
  have hzero : (0 : UInt64).toNat = 0 := rfl
  unfold Chain.computeNextDifficulty
  simp only [hc.genesis, UInt64.le_iff_toNat_le, hnext, hback]
  split
  · next hle =>
    rw [retarget_of_le (by simpa using hle)]
  · next hgt =>
    have hsub : n - 0 - g.window = n - g.window := by simp
    have htip := hcan.getBlockByHeight_sub (j := 0) (by omega)
    have hstart := hcan.getBlockByHeight_sub (j := g.window) (by omega)
    obtain ⟨top, s, -, rfl⟩ := hcan.branch.head
    have hlt : g.window.toNat < (((t, top) :: s).map Prod.snd).length := by
      rw [List.length_map]
      omega
    rw [hzero, List.map_cons, List.getElem?_cons_zero] at htip
    rw [List.getElem?_eq_getElem hlt] at hstart
    simp only [htip, hsub, hstart, retarget, List.getElem?_eq_getElem hlt]
    rfl

/-- **The two retarget paths agree.** The height index below the tip and the parent
links of the tip lead to one window start. -/
theorem retarget_paths_agree (hc : (chainMachine K g).Reachable c) :
    ∃ n t b difficulty, c.state.tip = some (n, t) ∧ c.state.getBlock t = some b ∧
      b.header.height = n ∧ c.computeNextDifficulty (n + 1) = .ok difficulty ∧
      expectedDifficultyAfter c.genesis c.state b = .ok difficulty := by
  have hinv := chainInv hc
  obtain ⟨n, t, l, hcan⟩ := hinv.canonical
  have hnext := computeNextDifficulty_eq hinv hcan
  have hlen := hcan.height
  obtain ⟨b, s, hb, rfl⟩ := hcan.branch.head
  have hheight := hinv.stored.height_eq hcan.branch
  refine ⟨n, t, b, _, hcan.tip, hb, UInt64.toNat_inj.mp ?_, hnext, ?_⟩
  · rw [List.length_cons] at hlen
    omega
  · rw [hinv.genesis]
    exact expectedDifficultyAfter_eq hinv.stored hcan.branch

theorem retarget_paths_agree_reorg : reorgChain₃.state.tip = some (2, nonceId 2) ∧
    reorgGenesis.window = 1 ∧ ∃ n t b difficulty, reorgChain₃.state.tip = some (n, t) ∧
    reorgChain₃.state.getBlock t = some b ∧ b.header.height = n ∧
    reorgChain₃.computeNextDifficulty (n + 1) = .ok difficulty ∧
    expectedDifficultyAfter reorgChain₃.genesis reorgChain₃.state b = .ok difficulty :=
  ⟨reorgChain₃_canonical.tip, rfl, retarget_paths_agree reachable_reorg₃⟩

theorem workTemplate_eq (hc : ChainInv K g c) {n : UInt64} {t : Hash256} {l : BlockChain}
    (hcan : Canonical K g c.state n t l) (hlow : n.toNat + 1 < epochLength.toNat)
    (miner : Address) (now : UInt64) (txs : TxVec) :
    c.workTemplate K miner now txs =
      (.ok (⟨{ height := n + 1, prevHash := t, txRoot := merkleRoot K (txs.val.map (·.hash K))
               timestamp := now, difficulty := retarget g (l.map Prod.snd), miner, nonce := 0 },
          txs⟩, epochZeroDataset K), some (0, epochZeroDataset K)) := by
  have hnext : (n + 1).toNat < epochLength.toNat := by
    rw [hcan.next_toNat hc.stored, ← hcan.height]
    exact hlow
  unfold Chain.workTemplate
  simp only [hcan.tip, datasetForHeight_low hc hnext, computeNextDifficulty_eq hc hcan]

/-! ## Blocks on the tip -/

/-- What `submit_block` does with a well-formed block on the tip. -/
theorem submitBlock_extension (hc : ChainInv K g c) {n : UInt64} {t : Hash256} {l : BlockChain}
    (hcan : Canonical K g c.state n t l) {b : Block} (hprev : b.header.prevHash = t)
    (hnew : c.state.blocks (blockId K b) = none)
    (hok : BlockOk K g (l.map Prod.snd) (blockId K b) b) (hdiff : 1 ≤ b.header.difficulty) :
    c.submitBlock K b = match applyBlock K g c.state ∅ (blockId K b) b with
      | .error e => ⟨.error e, storeWrites (blockId K b) b (branchWork ((blockId K b, b) :: l)),
          some (0, epochZeroDataset K)⟩
      | .ok overlay => ⟨.ok (.accepted (blockId K b) b.header.height false []),
          storeWrites (blockId K b) b (branchWork ((blockId K b, b) :: l)) ++
            (commitOf overlay [] [(blockId K b, b)] (blockId K b) b.header.height).writes,
          some (0, epochZeroDataset K)⟩ := by
  have hpl := Placement.of_tip hcan hprev hnew hok
  have hwork : branchWork l < branchWork ((blockId K b, b) :: l) := branchWork_lt_cons hdiff l
  rw [submitBlock_storable hc hcan hpl, storeOutcome]
  simp only [if_pos hwork, simulate, undoBlocks, List.foldl_nil, List.reverse_singleton, applyBlocks]
  cases happ : applyBlock K g c.state ∅ (blockId K b) b with
  | error e => rfl
  | ok overlay => simp [hprev, requeueOf]

/-- An accepted block on the tip becomes the tip. -/
theorem Canonical.extend (hc : ChainInv K g c) {n : UInt64} {t : Hash256} {l : BlockChain}
    (hcan : Canonical K g c.state n t l) {b : Block} (hprev : b.header.prevHash = t)
    (hnew : c.state.blocks (blockId K b) = none)
    (hok : BlockOk K g (l.map Prod.snd) (blockId K b) b) (hdiff : 1 ≤ b.header.difficulty)
    {overlay : Overlay} (happ : applyBlock K g c.state ∅ (blockId K b) b = .ok overlay) :
    Canonical K g (c.submit K b).state b.header.height (blockId K b) ((blockId K b, b) :: l) := by
  have hsim : simulate K g c.state [] [(blockId K b, b)] = .ok overlay := by
    rw [simulate, List.reverse_singleton, undoBlocks, List.foldl_nil, applyBlocks, happ]
    rfl
  exact (submitBlock_overtakes hc hcan (Placement.of_tip hcan hprev hnew hok)
    (branchWork_lt_cons hdiff l) hsim).2

/-- A block without transactions always passes the apply loop. -/
theorem applyBlock_empty (st : ChainState) (hash : Hash256) {overlay : Overlay} {b : Block}
    (hempty : b.transactions.val = []) :
    ∃ overlay', applyBlock K g st overlay hash b = .ok overlay' := by
  rw [applyBlock, hempty]
  exact ⟨_, rfl⟩

/-- An empty block on the tip becomes the tip. -/
theorem Canonical.extend_empty (hc : ChainInv K g c) {n : UInt64} {t : Hash256} {l : BlockChain}
    (hcan : Canonical K g c.state n t l) {b : Block} (hprev : b.header.prevHash = t)
    (hnew : c.state.blocks (blockId K b) = none)
    (hok : BlockOk K g (l.map Prod.snd) (blockId K b) b) (hdiff : 1 ≤ b.header.difficulty)
    (hempty : b.transactions.val = []) :
    Canonical K g (c.submit K b).state b.header.height (blockId K b) ((blockId K b, b) :: l) := by
  obtain ⟨overlay, happ⟩ := applyBlock_empty (K := K) (g := g) c.state (blockId K b) hempty
  exact hcan.extend hc hprev hnew hok hdiff happ

theorem applyBlocks_empty {st : ChainState} {overlay : Overlay} {bs : BlockChain}
    (hempty : ∀ p ∈ bs, p.2.transactions.val = []) :
    ∃ overlay', applyBlocks K g st overlay bs = .ok overlay' := by
  induction bs generalizing overlay with
  | nil => exact ⟨overlay, rfl⟩
  | cons p bs ih =>
    obtain ⟨next, hnext⟩ : ∃ next, applyBlock K g st overlay p.1 p.2 = .ok next :=
      applyBlock_empty st p.1 (hempty p List.mem_cons_self)
    obtain ⟨overlay', hrest⟩ := ih fun q hq => hempty q (List.mem_cons_of_mem _ hq)
    rw [applyBlocks, hnext]
    exact ⟨overlay', hrest⟩

/-- A block whose branch has more work, the blocks to apply all without transactions. -/
theorem submit_overtakes (hc : ChainInv K g c) {n : UInt64} {t : Hash256}
    {lo lp a p s : BlockChain} (hcan : Canonical K g c.state n t lo) {b : Block}
    (hpl : Placement K g c.state lo b lp a p s)
    (hwork : branchWork lo < branchWork ((blockId K b, b) :: lp))
    (hempty : ∀ q ∈ p, q.2.transactions.val = []) :
    (c.submitBlock K b).result = .ok (.accepted (blockId K b) b.header.height
        (t ≠ b.header.prevHash) (requeueOf K a p.reverse)) ∧
      Canonical K g (c.submit K b).state b.header.height (blockId K b) ((blockId K b, b) :: lp) := by
  obtain ⟨overlay, hsim⟩ : ∃ overlay, simulate K g c.state a p = .ok overlay :=
    applyBlocks_empty fun q hq => hempty q (List.mem_reverse.mp hq)
  exact submitBlock_overtakes hc hcan hpl hwork hsim

/-- A template block that meets its target is well formed on the tip. -/
theorem BlockOk.of_template (hs : WellStored K g c.state) {n : UInt64} {t : Hash256}
    {l : BlockChain} (hcan : Canonical K g c.state n t l)
    (hlow : n.toNat + 1 < epochLength.toNat) {b : Block} (hheight : b.header.height = n + 1)
    (hdiff : b.header.difficulty = retarget g (l.map Prod.snd))
    (hroot : b.header.txRoot = b.computeTxRoot K)
    (hsigned : ∀ tx ∈ b.transactions.val, tx.isSignatureValid K = true)
    (hmeets : meetsTarget (blockId K b) (targetForDifficulty b.header.difficulty) = true) :
    BlockOk K g (l.map Prod.snd) (blockId K b) b where
  id := rfl
  root := hroot
  target := hmeets
  signed := hsigned
  height := by rw [hheight, hcan.next_toNat hs, List.length_map]
  height_lt := by
    rw [List.length_map, ← hcan.height]
    exact hlow
  difficulty := hdiff

/-! ## Children of the tip -/

/-- Every stored child of the tip has transactions: an empty one would have been
accepted. -/
def NoEmptyChild (K : Crates) (g : GenesisConfig) (st : ChainState) : Prop :=
  ∀ n t, st.tip = some (n, t) → ∀ h b, st.blocks h = some b → h ≠ g.genesisHash K →
    b.header.prevHash = t → b.transactions.val ≠ []

theorem NoEmptyChild.submit (hc : ChainInv K g c) (hdiff : 1 ≤ g.initialDifficulty)
    (hchild : NoEmptyChild K g c.state) (b : Block) : NoEmptyChild K g (c.submit K b).state := by
  obtain ⟨n, t, lo, hcan⟩ := hc.canonical
  intro n' t' htip h x hx hne hprev hempty
  have hx' := submit_blocks_cases hc hx
  rcases submit_cases hc hcan b with ⟨-, hst⟩ | ⟨lp, a, p, s, hpl, ⟨hlow, hst⟩ | ⟨o, -, -, hst⟩⟩
  · rw [hst] at htip hx
    exact hchild n' t' htip h x hx hne hprev hempty
  · rw [hst, (hpl.canonical_stored hcan).tip] at htip
    obtain ⟨rfl, rfl⟩ := Prod.mk.inj (Option.some.inj htip)
    rcases hx' with hold | ⟨rfl, rfl⟩
    · exact hchild n t hcan.tip h x hold hne hprev hempty
    · -- an empty block on the tip outweighs it and passes the simulation
      have hlp := hpl.parent
      rw [hprev] at hlp
      obtain rfl := hcan.branch.unique hlp
      have hge := one_le_retarget hdiff (lo.map Prod.snd)
      rw [← hpl.ok.difficulty] at hge
      have hpl' := Placement.of_tip hcan hprev hpl.new hpl.ok
      obtain ⟨rfl, rfl, -⟩ := hpl.fork.unique hpl'.fork
      obtain ⟨overlay, happ⟩ := applyBlock_empty (K := K) (g := g) c.state (blockId K x) hempty
      rcases hlow with hle | ⟨e, hsim⟩
      · exact absurd (branchWork_lt_cons hge lo) (Nat.not_lt.mpr hle)
      · rw [simulate, List.reverse_singleton, undoBlocks, List.foldl_nil, applyBlocks, happ] at hsim
        cases hsim
  · rw [hst, (hpl.canonical hc.stored hcan o).tip] at htip
    obtain ⟨-, rfl⟩ := Prod.mk.inj (Option.some.inj htip)
    -- the new tip was not stored before, so it has no child yet
    rcases hx' with hold | ⟨rfl, rfl⟩
    · have hparent := hc.stored.parent_isSome hold hne
      rw [hprev, hpl.new] at hparent
      cases hparent
    · have hparent := hpl.parent.get_isSome
      rw [hprev, hpl.new] at hparent
      cases hparent

theorem noEmptyChild (hdiff : 1 ≤ g.initialDifficulty) (hc : (chainMachine K g).Reachable c) :
    NoEmptyChild K g c.state := by
  refine Machine.Reach.invariant (P := fun c => NoEmptyChild K g c.state) (fun c hinit => ?_)
    (fun c b hr _ ih => ih.submit (chainInv hr) hdiff b) hc
  intro n t _ h x hx hne
  rw [(openDb_canonical hinit).2.2 h hne] at hx
  cases hx

/-! ## Extensibility -/

/-- A block whose identifier collides with no stored one is not stored if every
stored child of its parent differs from it in having transactions. -/
theorem unknown_of_noCollision (hs : WellStored K g c.state) {n : UInt64} {t : Hash256}
    (htip : c.state.tip = some (n, t)) (hchild : NoEmptyChild K g c.state) {b : Block}
    (hfree : NoCollision K g c.state (epochZeroDataset K) b) (hprev : b.header.prevHash = t)
    (hroot : b.header.txRoot = Hash256.zero) : c.state.blocks (blockId K b) = none := by
  by_contra hknown
  obtain ⟨x, hx⟩ := Option.ne_none_iff_exists'.mp hknown
  have hne : blockId K b ≠ g.genesisHash K := by
    intro heq
    rw [blockId, BlockHeader.id, ondrisHash_eq] at heq
    have htext := hfree.free.inj (.inr (.inl (.inr rfl))) (.inl (.inl rfl)) heq
    exact hfree.genesis (.inr htext.symm)
  obtain ⟨lx, -, hxok⟩ := hs.stored _ x hx hne
  have hheader : x.header = b.header := by
    refine header_eq_of_id_eq (hfree.free.mono ?_) hxok.id
    rintro y (hy | hy)
    · exact .inl (.inr ⟨_, x, hx, .inl hy⟩)
    · exact .inr (.inl hy)
  refine hchild n t htip _ x hx hne (by rw [hheader, hprev]) ?_
  by_contra hsome
  refine root_ne_zero (hfree.free.mono fun y hy => .inl (.inr ⟨_, x, hx, .inr hy⟩)) hsome ?_
  rw [← hroot, ← hheader]
  exact hxok.root.symm

/-- **The chain can be extended exactly while the next height is in epoch 0.** -/
theorem extensible_iff (hdiff : 1 ≤ g.initialDifficulty) (hc : (chainMachine K g).Reachable c)
    {n : UInt64} {t : Hash256} (htip : c.state.tip = some (n, t)) :
    Extensible K g c n ↔ n.toNat + 1 < epochLength.toNat := by
  have hinv := chainInv hc
  obtain ⟨n', t', l, hcan⟩ := hinv.canonical
  obtain ⟨rfl, rfl⟩ := Prod.mk.inj (Option.some.inj (hcan.tip.symm.trans htip))
  have hnext := hcan.next_toNat hinv.stored
  have hheight := hcan.height
  constructor
  · -- beyond epoch 0 there is no dataset
    intro hext
    by_contra hhigh
    obtain ⟨dataset, hds⟩ := hext.dataset
    rw [datasetForHeight_high hinv (by omega)] at hds
    cases hds
  · intro hlow
    refine ⟨⟨epochZeroDataset K, ?_⟩, fun miner now => ?_, ?_⟩
    · rw [datasetForHeight_low hinv (by omega)]
    · rw [workTemplate_eq hinv hcan hlow]
      exact ⟨_, _, rfl⟩
    · -- the mined template is a new block on the tip that has no transactions
      intro miner now b dataset cache htemplate nonce hfree hmeets
      rw [workTemplate_eq hinv hcan hlow] at htemplate
      simp only [Prod.mk.injEq, Except.ok.injEq] at htemplate
      obtain ⟨⟨rfl, rfl⟩, rfl⟩ := htemplate
      have hinv' : ChainInv K g ⟨c.state, c.genesis, some (0, epochZeroDataset K)⟩ :=
        ⟨hinv.genesis, .inr rfl, hinv.stored, hinv.canonical⟩
      generalize hb : Block.withNonce _ nonce = b at hfree hmeets ⊢
      have htxs : b.transactions = noTxs := by rw [← hb]; rfl
      have hempty : b.transactions.val = [] := by rw [htxs]; rfl
      have hprev : b.header.prevHash = t' := by rw [← hb]; rfl
      have hheight : b.header.height = n' + 1 := by rw [← hb]; rfl
      have hretarget : b.header.difficulty = retarget g (l.map Prod.snd) := by rw [← hb]; rfl
      have hroot : b.header.txRoot = Hash256.zero := by rw [← hb]; exact merkleRoot_nil K
      have hone : 1 ≤ b.header.difficulty := by
        rw [hretarget]
        exact one_le_retarget hdiff _
      have hnew := unknown_of_noCollision hinv.stored hcan.tip (noEmptyChild hdiff hc) hfree hprev
        hroot
      have hok := BlockOk.of_template hinv.stored hcan hlow hheight hretarget
        (by rw [hroot, Block.computeTxRoot, hempty, List.map_nil, merkleRoot_nil])
        (by simp [hempty]) hmeets
      obtain ⟨overlay, happ⟩ := applyBlock_empty (K := K) (g := g) c.state (blockId K b) hempty
      rw [submitBlock_extension hinv' hcan hprev hnew hok hone, happ, hheight]
      exact ⟨_, _, _, rfl⟩

theorem extensible_open : Extensible smallCrates smallGenesis smallOpen 0 :=
  (extensible_iff (by decide) (.init init_small) (t := smallGenesis.genesisHash smallCrates)
    rfl).mpr (by decide)

/-- The tip of the small chain of `n` empty blocks. -/
def smallTip (n : ℕ) : Hash256 :=
  if n = 0 then smallGenesis.genesisHash smallCrates else nonceId (UInt64.ofNat n)

/-- The empty block after `n` others, whose nonce is its height. -/
def smallNext (n : ℕ) : Block :=
  emptyBlock (UInt64.ofNat (n + 1)) (smallTip n) (UInt64.ofNat (n + 1))

/-- The small chain of `n` empty blocks. -/
def smallBlocks (n : ℕ) : List Block := (List.range n).map smallNext

theorem toNat_small {m : ℕ} (hm : m ≤ 2048) : (UInt64.ofNat m).toNat = m := by
  rw [UInt64.toNat_ofNat', Nat.mod_eq_of_lt (by omega)]

/-- The next block of the small chain is well formed on a branch of the right length. -/
theorem smallNext_ok {n : ℕ} (hn : n + 1 < 2048) {branch : List Block}
    (hlen : n + 1 = branch.length) : BlockOk smallCrates smallGenesis branch
      (nonceId (UInt64.ofNat (n + 1))) (smallNext n) := by
  refine emptyBlock_ok _ _ ?_ ?_
  · rw [toNat_small (by omega), hlen]
  · rw [← hlen]
    exact hn

/-- Every empty block of the small chain becomes the tip. -/
theorem smallBlocks_canonical {n : ℕ} (hn : n < 2048) :
    ∃ l, Canonical smallCrates smallGenesis
        ((chainMachine smallCrates smallGenesis).run smallOpen (smallBlocks n)).state
        (UInt64.ofNat n) (smallTip n) l ∧
      ∀ h b, ((chainMachine smallCrates smallGenesis).run smallOpen (smallBlocks n)).state.blocks h
          = some b → h = smallGenesis.genesisHash smallCrates ∨ ∃ m, 1 ≤ m ∧ m ≤ n ∧
            h = nonceId (UInt64.ofNat m) := by
  induction n with
  | zero =>
    obtain ⟨hcan, honly⟩ := canonical_smallOpen
    refine ⟨_, hcan, fun h b hb => ?_⟩
    by_contra hne
    rw [not_or] at hne
    have hnone := honly h hne.1
    rw [show smallOpen.state.blocks h = some b from hb] at hnone
    cases hnone
  | succ n ih =>
    obtain ⟨l, hcan, honly⟩ := ih (by omega)
    have hinv : ChainInv smallCrates smallGenesis
        ((chainMachine smallCrates smallGenesis).run smallOpen (smallBlocks n)) :=
      chainInv (Machine.Reachable.run (.init init_small) _)
    have hrun : (chainMachine smallCrates smallGenesis).run smallOpen (smallBlocks (n + 1))
        = ((chainMachine smallCrates smallGenesis).run smallOpen (smallBlocks n)).submit smallCrates
          (smallNext n) := Machine.run_map_range _ _ n
    generalize (chainMachine smallCrates smallGenesis).run smallOpen (smallBlocks n) = c
      at hcan honly hinv hrun
    have hid : blockId smallCrates (smallNext n) = nonceId (UInt64.ofNat (n + 1)) := blockId_small _
    have htip : smallTip (n + 1) = nonceId (UInt64.ofNat (n + 1)) := rfl
    have hlen : n + 1 = l.length := by
      rw [← hcan.height, toNat_small (by omega)]
    have hnew : c.state.blocks (nonceId (UInt64.ofNat (n + 1))) = none := by
      by_contra hsome
      obtain ⟨b, hb⟩ := Option.ne_none_iff_exists'.mp hsome
      rcases honly _ b hb with heq | ⟨m, -, hm, heq⟩
      · exact nonceId_ne_genesisHash _ heq
      · have hnat := congrArg UInt64.toNat (nonceId_injective heq)
        rw [toNat_small (by omega), toNat_small (by omega)] at hnat
        omega
    have hok := smallNext_ok hn (hlen.trans (List.length_map Prod.snd).symm)
    rw [← hid] at hnew hok
    have hone : (1 : UInt64) ≤ (smallNext n).header.difficulty := UInt64.le_refl 1
    have hcan' := Canonical.extend_empty hinv hcan rfl hnew hok hone rfl
    rw [hrun, htip]
    rw [hid] at hcan'
    refine ⟨_, hcan', fun h b hb => ?_⟩
    rcases submit_blocks_cases hinv hb with hold | ⟨rfl, -⟩
    · rcases honly h b hold with heq | ⟨m, hpos, hm, heq⟩
      · exact .inl heq
      · exact .inr ⟨m, hpos, by omega, heq⟩
    · exact .inr ⟨n + 1, by omega, Nat.le_refl _, hid⟩

/-- At height 2047 the chain cannot be extended. -/
theorem not_extensible_small : ∃ c t, (chainMachine smallCrates smallGenesis).Reachable c ∧
    1 ≤ smallGenesis.initialDifficulty ∧ c.state.tip = some (2047, t) ∧
    ¬ Extensible smallCrates smallGenesis c 2047 := by
  obtain ⟨l, hcan, -⟩ := smallBlocks_canonical (n := 2047) (by decide)
  have hreach : (chainMachine smallCrates smallGenesis).Reachable
      ((chainMachine smallCrates smallGenesis).run smallOpen (smallBlocks 2047)) :=
    Machine.Reachable.run (.init init_small) _
  refine ⟨_, _, hreach, by decide, hcan.tip, fun hext => ?_⟩
  obtain ⟨dataset, hds⟩ := hext.dataset
  rw [datasetForHeight_high (chainInv hreach) (by decide)] at hds
  cases hds

end Ondris
