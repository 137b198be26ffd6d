import Ondris.Store

/-!
# What a submission does

`ChainInv` is the invariant of `Chain`: the store is well formed, the height
index lists the branch of the tip, and the dataset in memory, if any, is that of
epoch 0. Under it every submission is one of a few cases.

Results:
1. `datasetForHeight_low`, `datasetForHeight_high`: datasets exist for the
   heights of epoch 0 and for no other.
2. `submitBlock_unstorable`: a block that is not storable is not written.
3. `submitBlock_storable`: a storable block is stored, and overtakes the tip
   exactly when its branch has more work and the simulation accepts it.
4. `ChainInv.submit`: the invariant is kept.
-/

namespace Ondris

/-! ## The invariant -/

structure ChainInv (K : Crates) (g : GenesisConfig) (c : Chain) : Prop where
  genesis : c.genesis = g
  cache : c.datasetCache = none ∨ c.datasetCache = some (0, epochZeroDataset K)
  stored : WellStored K g c.state
  canonical : ∃ n t l, Canonical K g c.state n t l

/-- The simulation of a reorganisation: the blocks `a` undone, the blocks `b`,
tip first as well, applied. -/
def simulate (K : Crates) (g : GenesisConfig) (st : ChainState) (a b : BlockChain) :
    Except ChainError Overlay :=
  applyBlocks K g st (undoBlocks K g st ∅ a) b.reverse

/-- What `submit_block` does with a storable block once its branch `ln` is known:
`lo` is the branch of the tip `t`, and both part as `a` and `b`. -/
def storeOutcome (K : Crates) (g : GenesisConfig) (st : ChainState) (t : Hash256)
    (lo ln a b : BlockChain) (block : Block) : Submission :=
  let hash := blockId K block
  let stored := storeWrites hash block (branchWork ln)
  let cache := some (0, epochZeroDataset K)
  if branchWork lo < branchWork ln then
    match simulate K g st a b with
    | .error e => ⟨.error e, stored, cache⟩
    | .ok overlay =>
      ⟨.ok (.accepted hash block.header.height (t ≠ block.header.prevHash) (requeueOf K a b.reverse)),
        stored ++ (commitOf overlay a b.reverse hash block.header.height).writes, cache⟩
  else ⟨.ok (.sideBranch hash block.header.height), stored, cache⟩

variable {K : Crates} {g : GenesisConfig} {c : Chain}

/-! ## Datasets -/

theorem toNat_epochLength : epochLength.toNat = 2048 := rfl

/-- In epoch 0 the store is not read. -/
theorem datasetForHeight_of_cache
    (hcache : c.datasetCache = none ∨ c.datasetCache = some (0, epochZeroDataset K)) {height : UInt64}
    (hlow : height.toNat < epochLength.toNat) :
    c.datasetForHeight K height = (.ok (epochZeroDataset K), some (0, epochZeroDataset K)) := by
  have hepoch : epochOf height = 0 := by
    rw [epochOf, ← UInt64.toNat_inj, UInt64.toNat_div, Nat.div_eq_of_lt hlow]
    rfl
  unfold Chain.datasetForHeight
  rcases hcache with hcache | hcache
  · simp [hcache, hepoch, epochZeroDataset]
  · simp [hcache, hepoch]

theorem datasetForHeight_low (hc : ChainInv K g c) {height : UInt64}
    (hlow : height.toNat < epochLength.toNat) :
    c.datasetForHeight K height = (.ok (epochZeroDataset K), some (0, epochZeroDataset K)) :=
  datasetForHeight_of_cache hc.cache hlow

/-- From height 2048 on the block at the epoch boundary would be needed, which is
never stored. -/
theorem datasetForHeight_high (hc : ChainInv K g c) {height : UInt64}
    (hhigh : epochLength.toNat ≤ height.toNat) :
    c.datasetForHeight K height
      = (.error (.epochBoundaryMissing (epochOf height * epochLength)), c.datasetCache) := by
  -- the boundary of a later epoch is above every stored height
  have hdiv : 1 ≤ height.toNat / 2048 := (Nat.one_le_div_iff (by decide)).mpr hhigh
  have hepoch : (epochOf height).toNat = height.toNat / 2048 := UInt64.toNat_div _ _
  have hne : epochOf height ≠ 0 := by
    intro h
    rw [h] at hepoch
    simp only [UInt64.toNat_zero] at hepoch
    omega
  have hboundary : 2048 ≤ (epochOf height * epochLength).toNat := by
    have hle := Nat.div_mul_le_self height.toNat 2048
    have hlt := height.toNat_lt
    rw [UInt64.toNat_mul, hepoch, toNat_epochLength, Nat.mod_eq_of_lt (by omega)]
    omega
  obtain ⟨n, t, l, hcan⟩ := hc.canonical
  have hlen := hc.stored.length_le hcan.branch
  have hnone : c.state.heights (epochOf height * epochLength) = none := by
    rw [hcan.index, List.getElem?_eq_none]
    rw [toNat_epochLength] at hlen
    rw [List.length_map, List.length_reverse]
    omega
  unfold Chain.datasetForHeight
  rcases hc.cache with hcache | hcache
  · simp [hcache, hne, ChainState.getHashByHeight, hnone]
  · simp [hcache, hne, hne.symm, ChainState.getHashByHeight, hnone]

/-! ## Blocks that are not stored -/

theorem Storable.height_lt {st : ChainState} {b : Block} (h : Storable K g st b) :
    b.header.height.toNat < epochLength.toNat := by
  obtain ⟨-, l, -, hok⟩ := h
  exact hok.low

theorem Storable.height_ne_zero {st : ChainState} {b : Block} (h : Storable K g st b) :
    b.header.height ≠ 0 := by
  obtain ⟨-, l, hl, hok⟩ := h
  exact hok.height_ne_zero (List.length_pos_iff.mp hl.length_pos)

/-- A call that ends with its checks. -/
theorem submitBlock_of_done (hc : ChainInv K g c) {b : Block} (hzero : b.header.height ≠ 0)
    (hlow : b.header.height.toNat < epochLength.toNat) {outcome : SubmitOutcome}
    (hcheck : checkBlock K g c.state (epochZeroDataset K) b = .ok (.done outcome)) :
    c.submitBlock K b = ⟨.ok outcome, [], some (0, epochZeroDataset K)⟩ := by
  unfold Chain.submitBlock
  rw [if_neg hzero, datasetForHeight_low hc hlow, hc.genesis]
  simp only [hcheck]

/-- A call that fails in its checks. -/
theorem submitBlock_of_error (hc : ChainInv K g c) {b : Block} (hzero : b.header.height ≠ 0)
    (hlow : b.header.height.toNat < epochLength.toNat) {e : ChainError}
    (hcheck : checkBlock K g c.state (epochZeroDataset K) b = .error e) :
    c.submitBlock K b = ⟨.error e, [], some (0, epochZeroDataset K)⟩ := by
  unfold Chain.submitBlock
  rw [if_neg hzero, datasetForHeight_low hc hlow, hc.genesis]
  simp only [hcheck]

/-- A block that is not storable fails, or is done with after its checks. -/
theorem submitBlock_unstorable_cases (hc : ChainInv K g c) {b : Block}
    (hb : ¬ Storable K g c.state b) : (c.submitBlock K b).writes = [] ∧
      ((∃ e, (c.submitBlock K b).result = .error e) ∨
        ∃ outcome, checkBlock K g c.state (epochZeroDataset K) b = .ok (.done outcome) ∧
          (c.submitBlock K b).result = .ok outcome) := by
  by_cases hzero : b.header.height = 0
  · rw [Chain.submitBlock, if_pos hzero]
    exact ⟨rfl, .inl ⟨_, rfl⟩⟩
  rcases Nat.lt_or_ge b.header.height.toNat epochLength.toNat with hlow | hhigh
  · cases hcheck : checkBlock K g c.state (epochZeroDataset K) b with
    | error e =>
      rw [submitBlock_of_error hc hzero hlow hcheck]
      exact ⟨rfl, .inl ⟨e, rfl⟩⟩
    | ok checked =>
      cases checked with
      | done outcome =>
        rw [submitBlock_of_done hc hzero hlow hcheck]
        exact ⟨rfl, .inr ⟨outcome, rfl, rfl⟩⟩
      | store h w =>
        obtain ⟨rfl, hnone, l, hl, hok, -⟩ :=
          (checkBlock_eq_store_iff hc.stored hlow).mp hcheck
        exact absurd ⟨hnone, l, hl, hok⟩ hb
  · -- there is no dataset beyond epoch 0
    rw [Chain.submitBlock, if_neg hzero, datasetForHeight_high hc hhigh]
    exact ⟨rfl, .inl ⟨_, rfl⟩⟩

/-- A block that is not storable is not written. -/
theorem submitBlock_unstorable (hc : ChainInv K g c) {b : Block}
    (hb : ¬ Storable K g c.state b) : (c.submitBlock K b).writes = [] :=
  (submitBlock_unstorable_cases hc hb).1

/-! ## Blocks that are stored -/

section Accounts

variable {st st' : ChainState} (h : st'.accounts = st.accounts)
include h

theorem getAcc_congr : getAcc st' = getAcc st := by
  funext overlay addr
  simp only [getAcc, ChainState.getAccount, h]

theorem undoBlocks_congr (a : BlockChain) : undoBlocks K g st' ∅ a = undoBlocks K g st ∅ a := by
  have htx : undoTx K st' = undoTx K st := by
    funext overlay tx
    simp only [undoTx, getAcc_congr h]
  have hblock : undoBlock K g st' = undoBlock K g st := by
    funext overlay b
    simp only [undoBlock, getAcc_congr h, htx]
  rw [undoBlocks, undoBlocks, hblock]

theorem applyTxs_congr (hash : Hash256) (height : UInt64) (overlay : Overlay)
    (txs : List Transaction) :
    applyTxs K st' hash height overlay txs = applyTxs K st hash height overlay txs := by
  induction txs generalizing overlay with
  | nil => rfl
  | cons tx txs ih =>
    have htx : applyTx K st' hash height overlay tx = applyTx K st hash height overlay tx := by
      simp only [applyTx, getAcc_congr h]
    simp only [applyTxs, htx, ih]

theorem applyBlocks_congr (overlay : Overlay) (b : BlockChain) :
    applyBlocks K g st' overlay b = applyBlocks K g st overlay b := by
  induction b generalizing overlay with
  | nil => rfl
  | cons p b ih => simp only [applyBlocks, applyBlock, applyTxs_congr h, getAcc_congr h, ih]

/-- The simulation reads nothing but accounts. -/
theorem simulate_congr (a b : BlockChain) : simulate K g st' a b = simulate K g st a b := by
  rw [simulate, simulate, undoBlocks_congr h, applyBlocks_congr h]

end Accounts

/-- The place of a storable block: the branch `lp` of its parent, and its fork
from the branch `lo` of the tip. -/
structure Placement (K : Crates) (g : GenesisConfig) (st : ChainState) (lo : BlockChain)
    (b : Block) (lp a p s : BlockChain) : Prop where
  new : st.blocks (blockId K b) = none
  parent : Branch K g st b.header.prevHash lp
  ok : BlockOk K g (lp.map Prod.snd) (blockId K b) b
  fork : Fork lo ((blockId K b, b) :: lp) a p s

theorem Placement.storable {st : ChainState} {lo lp a p s : BlockChain} {b : Block}
    (h : Placement K g st lo b lp a p s) : Storable K g st b :=
  ⟨h.new, lp, h.parent, h.ok⟩

/-- The place of a well-formed block on the tip: nothing is undone. -/
theorem Placement.of_tip {st : ChainState} {n : UInt64} {t : Hash256} {l : BlockChain}
    (hcan : Canonical K g st n t l) {b : Block} (hprev : b.header.prevHash = t)
    (hnew : st.blocks (blockId K b) = none) (hok : BlockOk K g (l.map Prod.snd) (blockId K b) b) :
    Placement K g st l b l [] [(blockId K b, b)] l := by
  have hparent : Branch K g st b.header.prevHash l := by
    rw [hprev]
    exact hcan.branch
  exact ⟨hnew, hparent, hok, rfl, rfl, hcan.branch.ne_nil, by simp⟩

/-- The store once the block is in it. -/
def stateWith (K : Crates) (st : ChainState) (b : Block) (lp : BlockChain) : ChainState :=
  st.writes (storeWrites (blockId K b) b (branchWork ((blockId K b, b) :: lp)))

theorem Placement.exists (hs : WellStored K g c.state) {n : UInt64} {t : Hash256}
    {lo : BlockChain} (hcan : Canonical K g c.state n t lo) {b : Block}
    (hb : Storable K g c.state b) : ∃ lp a p s, Placement K g c.state lo b lp a p s := by
  obtain ⟨hnew, lp, hlp, hok⟩ := hb
  have hcan' := hcan.store hnew b (branchWork ((blockId K b, b) :: lp))
  have hself := Branch.store_self hs hnew hlp (branchWork ((blockId K b, b) :: lp))
  obtain ⟨a, p, s, hf, -⟩ := forkPaths_eq (hs.store hnew hlp hok) hcan'.branch hself
  exact ⟨lp, a, p, s, hnew, hlp, hok, hf⟩

/-- A storable block is stored, and overtakes the tip exactly when its branch has
more work and the simulation accepts it. -/
theorem submitBlock_storable (hc : ChainInv K g c) {n : UInt64} {t : Hash256}
    {lo lp a p s : BlockChain} (hcan : Canonical K g c.state n t lo) {b : Block}
    (hpl : Placement K g c.state lo b lp a p s) :
    c.submitBlock K b = storeOutcome K g c.state t lo ((blockId K b, b) :: lp) a p b := by
  obtain ⟨hnew, hlp, hok, hf⟩ := hpl
  have hstorable : Storable K g c.state b := ⟨hnew, lp, hlp, hok⟩
  -- `fork_paths` runs after the block is stored, so on the store with the block
  have hs' := hc.stored.store hnew hlp hok
  have hcan' := hcan.store hnew b (branchWork ((blockId K b, b) :: lp))
  have hself := Branch.store_self hc.stored hnew hlp (branchWork ((blockId K b, b) :: lp))
  obtain ⟨a', p', s', hf', hpaths⟩ := forkPaths_eq hs' hcan'.branch hself
  obtain ⟨rfl, rfl, -⟩ := hf.unique hf'
  have hcheck : checkBlock K g c.state (epochZeroDataset K) b
      = .ok (.store (blockId K b) (branchWork ((blockId K b, b) :: lp))) := by
    rw [checkBlock_eq_store_iff hc.stored hstorable.height_lt, branchWork_cons]
    exact ⟨rfl, hnew, lp, hlp, hok, Nat.add_comm _ _⟩
  have hwork : (c.state.writes (storeWrites (blockId K b) b
      (branchWork ((blockId K b, b) :: lp)))).getChainwork t = some (branchWork lo) :=
    hs'.work t lo hcan'.branch
  have haccounts : (c.state.writes (storeWrites (blockId K b) b
      (branchWork ((blockId K b, b) :: lp)))).accounts = c.state.accounts := rfl
  have hsim := simulate_congr (K := K) (g := g) haccounts a p
  unfold Chain.submitBlock
  rw [if_neg hstorable.height_ne_zero, datasetForHeight_low hc hstorable.height_lt, hc.genesis]
  simp only [hcheck]
  rw [← storeWrites]
  simp only [hcan'.tip, hwork, reconsiderTip, hpaths, storeOutcome]
  rw [← simulate, hsim]
  split
  · cases simulate K g c.state a p with
    | error e => rfl
    | ok overlay => rfl
  · rfl

/-- What a call writes: nothing, the block, or the block and the move of the tip. -/
theorem submitBlock_writes (hc : ChainInv K g c) {n : UInt64} {t : Hash256} {lo : BlockChain}
    (hcan : Canonical K g c.state n t lo) (b : Block) :
    (¬ Storable K g c.state b ∧ (c.submitBlock K b).writes = []) ∨
    ∃ lp a p s, Placement K g c.state lo b lp a p s ∧
      ((branchWork ((blockId K b, b) :: lp) ≤ branchWork lo ∨
          ∃ e, simulate K g c.state a p = .error e) ∧
        (c.submitBlock K b).writes
          = storeWrites (blockId K b) b (branchWork ((blockId K b, b) :: lp)) ∨
      ∃ overlay, branchWork lo < branchWork ((blockId K b, b) :: lp) ∧
        simulate K g c.state a p = .ok overlay ∧
        (c.submitBlock K b).writes
          = storeWrites (blockId K b) b (branchWork ((blockId K b, b) :: lp)) ++
            (commitOf overlay a p.reverse (blockId K b) b.header.height).writes) := by
  by_cases hb : Storable K g c.state b
  · obtain ⟨lp, a, p, s, hpl⟩ := Placement.exists hc.stored hcan hb
    refine .inr ⟨lp, a, p, s, hpl, ?_⟩
    rw [submitBlock_storable hc hcan hpl, storeOutcome]
    by_cases hwork : branchWork lo < branchWork ((blockId K b, b) :: lp)
    · rw [if_pos hwork]
      cases hsim : simulate K g c.state a p with
      | error e => exact .inl ⟨.inr ⟨e, rfl⟩, rfl⟩
      | ok overlay => exact .inr ⟨overlay, hwork, rfl, rfl⟩
    · rw [if_neg hwork]
      exact .inl ⟨.inl (Nat.le_of_not_lt hwork), rfl⟩
  · refine .inl ⟨hb, ?_⟩
    rw [submitBlock_unstorable hc hb]

/-- The cases of a submission, by the store it leaves. -/
theorem submit_cases (hc : ChainInv K g c) {n : UInt64} {t : Hash256} {lo : BlockChain}
    (hcan : Canonical K g c.state n t lo) (b : Block) :
    (¬ Storable K g c.state b ∧ (c.submit K b).state = c.state) ∨
    ∃ lp a p s, Placement K g c.state lo b lp a p s ∧
      ((branchWork ((blockId K b, b) :: lp) ≤ branchWork lo ∨
          ∃ e, simulate K g c.state a p = .error e) ∧
        (c.submit K b).state = stateWith K c.state b lp ∨
      ∃ overlay, branchWork lo < branchWork ((blockId K b, b) :: lp) ∧
        simulate K g c.state a p = .ok overlay ∧
        (c.submit K b).state = (stateWith K c.state b lp).writes
          (commitOf overlay a p.reverse (blockId K b) b.header.height).writes) := by
  have hstate : (c.submit K b).state = c.state.writes (c.submitBlock K b).writes := rfl
  rcases submitBlock_writes hc hcan b with
    ⟨hb, hws⟩ | ⟨lp, a, p, s, hpl, ⟨hstays, hws⟩ | ⟨overlay, hwork, hsim, hws⟩⟩
  · refine .inl ⟨hb, ?_⟩
    rw [hstate, hws]
    rfl
  · refine .inr ⟨lp, a, p, s, hpl, .inl ⟨hstays, ?_⟩⟩
    rw [hstate, hws]
    rfl
  · refine .inr ⟨lp, a, p, s, hpl, .inr ⟨overlay, hwork, hsim, ?_⟩⟩
    rw [hstate, hws]
    exact ChainState.writes_append _ _ _

/-! ## The invariant is kept -/

theorem Placement.wellStored {st : ChainState} (hs : WellStored K g st) {lo lp a p s : BlockChain}
    {b : Block} (h : Placement K g st lo b lp a p s) : WellStored K g (stateWith K st b lp) :=
  hs.store h.new h.parent h.ok

theorem Placement.branch {st : ChainState} (hs : WellStored K g st) {lo lp a p s : BlockChain}
    {b : Block} (h : Placement K g st lo b lp a p s) :
    Branch K g (stateWith K st b lp) (blockId K b) ((blockId K b, b) :: lp) :=
  Branch.store_self hs h.new h.parent _

/-- The canonical chain stays while the block is only stored. -/
theorem Placement.canonical_stored {st : ChainState} {n : UInt64} {t : Hash256}
    {lo lp a p s : BlockChain} (hcan : Canonical K g st n t lo) {b : Block}
    (h : Placement K g st lo b lp a p s) : Canonical K g (stateWith K st b lp) n t lo :=
  hcan.store h.new b _

/-- The canonical chain after an accepted block is the branch of the block. -/
theorem Placement.canonical {st : ChainState} (hs : WellStored K g st) {n : UInt64} {t : Hash256}
    {lo lp a p s : BlockChain} (hcan : Canonical K g st n t lo) {b : Block}
    (h : Placement K g st lo b lp a p s) (overlay : Overlay) :
    Canonical K g ((stateWith K st b lp).writes
        (commitOf overlay a p.reverse (blockId K b) b.header.height).writes)
      b.header.height (blockId K b) ((blockId K b, b) :: lp) := by
  have hheight : b.header.height.toNat + 1 = ((blockId K b, b) :: lp).length := by
    rw [h.ok.height, List.length_map, List.length_cons]
  exact Canonical.commit (h.wellStored hs) (h.canonical_stored hcan) (h.branch hs) h.fork rfl rfl rfl
    hheight

/-- A block that overtakes the tip is accepted, and its branch is the canonical chain. -/
theorem submitBlock_overtakes (hc : ChainInv K g c) {n : UInt64} {t : Hash256}
    {lo lp a p s : BlockChain} (hcan : Canonical K g c.state n t lo) {b : Block}
    (hpl : Placement K g c.state lo b lp a p s)
    (hwork : branchWork lo < branchWork ((blockId K b, b) :: lp)) {overlay : Overlay}
    (hsim : simulate K g c.state a p = .ok overlay) :
    (c.submitBlock K b).result = .ok (.accepted (blockId K b) b.header.height
        (t ≠ b.header.prevHash) (requeueOf K a p.reverse)) ∧
      Canonical K g (c.submit K b).state b.header.height (blockId K b) ((blockId K b, b) :: lp) := by
  have hsub := submitBlock_storable hc hcan hpl
  rw [storeOutcome, if_pos hwork, hsim] at hsub
  have hst : (c.submit K b).state = (stateWith K c.state b lp).writes
      (commitOf overlay a p.reverse (blockId K b) b.header.height).writes := by
    rw [Chain.submit, hsub]
    exact ChainState.writes_append _ _ _
  rw [hsub, hst]
  exact ⟨rfl, hpl.canonical hc.stored hcan overlay⟩

/-- A block whose branch has no more work than the tip. -/
theorem submit_side (hc : ChainInv K g c) {n : UInt64} {t : Hash256} {lo lp a p s : BlockChain}
    (hcan : Canonical K g c.state n t lo) {b : Block} (hpl : Placement K g c.state lo b lp a p s)
    (hwork : branchWork ((blockId K b, b) :: lp) ≤ branchWork lo) :
    (c.submitBlock K b).result = .ok (.sideBranch (blockId K b) b.header.height) ∧
      Canonical K g (c.submit K b).state n t lo ∧
      Branch K g (c.submit K b).state (blockId K b) ((blockId K b, b) :: lp) := by
  have hsub := submitBlock_storable hc hcan hpl
  rw [storeOutcome, if_neg (Nat.not_lt.mpr hwork)] at hsub
  have hst : (c.submit K b).state = stateWith K c.state b lp := by
    rw [Chain.submit, hsub]
    rfl
  rw [hsub, hst]
  exact ⟨rfl, hpl.canonical_stored hcan, hpl.branch hc.stored⟩

/-- The dataset kept in memory is the one the dataset lookup left there. -/
theorem submitBlock_cache_eq (c : Chain) (b : Block) : (c.submitBlock K b).cache
    = if b.header.height = 0 then c.datasetCache else (c.datasetForHeight K b.header.height).2 := by
  unfold Chain.submitBlock
  split
  · rfl
  · rcases c.datasetForHeight K b.header.height with ⟨e | ds, cache⟩
    · rfl
    · simp only
      rcases checkBlock K c.genesis c.state ds b with e | (outcome | ⟨h, w⟩)
      · rfl
      · rfl
      · simp only
        split
        · rfl
        · split
          · rfl
          · split
            · split <;> rfl
            · rfl

theorem submitBlock_cache (hc : ChainInv K g c) (b : Block) :
    (c.submitBlock K b).cache = none ∨
      (c.submitBlock K b).cache = some (0, epochZeroDataset K) := by
  rw [submitBlock_cache_eq]
  split
  · exact hc.cache
  · rcases Nat.lt_or_ge b.header.height.toNat epochLength.toNat with hlow | hhigh
    · rw [datasetForHeight_low hc hlow]
      exact .inr rfl
    · rw [datasetForHeight_high hc hhigh]
      exact hc.cache

theorem ChainInv.submit (hc : ChainInv K g c) (b : Block) : ChainInv K g (c.submit K b) := by
  obtain ⟨n, t, lo, hcan⟩ := hc.canonical
  have hparts : WellStored K g (c.submit K b).state ∧
      ∃ n t l, Canonical K g (c.submit K b).state n t l := by
    rcases submit_cases hc hcan b with ⟨-, hst⟩ | ⟨lp, a, p, s, hpl, ⟨-, hst⟩ | ⟨o, -, -, hst⟩⟩
    · rw [hst]
      exact ⟨hc.stored, n, t, lo, hcan⟩
    · rw [hst]
      exact ⟨hpl.wellStored hc.stored, n, t, lo, hpl.canonical_stored hcan⟩
    · rw [hst]
      exact ⟨(hpl.wellStored hc.stored).commit _, _, _, _, hpl.canonical hc.stored hcan o⟩
  exact ⟨hc.genesis, submitBlock_cache hc b, hparts.1, hparts.2⟩

/-! ## What stays and what is added -/

/-- Only the submitted block can be new in the store. -/
theorem submit_blocks_cases (hc : ChainInv K g c) {b x : Block} {h : Hash256}
    (hx : (c.submit K b).state.blocks h = some x) :
    c.state.blocks h = some x ∨ (h = blockId K b ∧ x = b) := by
  obtain ⟨n, t, lo, hcan⟩ := hc.canonical
  have hstore : ∀ lp, (stateWith K c.state b lp).blocks h = some x →
      c.state.blocks h = some x ∨ (h = blockId K b ∧ x = b) := by
    intro lp hx
    by_cases hk : h = blockId K b
    · subst hk
      rw [stateWith, blocks_store, Function.update_self] at hx
      exact .inr ⟨rfl, (Option.some.inj hx).symm⟩
    · rw [stateWith, blocks_store_of_ne hk] at hx
      exact .inl hx
  rcases submit_cases hc hcan b with ⟨-, hst⟩ | ⟨lp, a, p, s, -, ⟨-, hst⟩ | ⟨o, -, -, hst⟩⟩
  · rw [hst] at hx
    exact .inl hx
  · rw [hst] at hx
    exact hstore lp hx
  · rw [hst, (commit_frame _).1] at hx
    exact hstore lp hx

theorem blocks_submit_of_ne (hc : ChainInv K g c) {b : Block} {h : Hash256}
    (hnew : c.state.blocks h = none) (hne : h ≠ blockId K b) :
    (c.submit K b).state.blocks h = none := by
  cases hx : (c.submit K b).state.blocks h with
  | none => rfl
  | some x =>
    rcases submit_blocks_cases hc hx with hold | ⟨heq, -⟩
    · rw [hnew] at hold
      cases hold
    · exact absurd heq hne

/-- Stored blocks stay, with their branches. -/
theorem Branch.submit (hc : ChainInv K g c) {h : Hash256} {l : BlockChain}
    (hl : Branch K g c.state h l) (b : Block) : Branch K g (c.submit K b).state h l := by
  obtain ⟨n, t, lo, hcan⟩ := hc.canonical
  rcases submit_cases hc hcan b with ⟨-, hst⟩ | ⟨lp, a, p, s, hpl, ⟨-, hst⟩ | ⟨o, -, -, hst⟩⟩
  · rwa [hst]
  · rw [hst]
    exact hl.store hpl.new b _
  · rw [hst]
    exact (hl.store hpl.new b _).commit _

/-- A storable block is stored on top of its parent's branch. -/
theorem Storable.branch_submit (hc : ChainInv K g c) {b : Block} (hb : Storable K g c.state b)
    {l : BlockChain} (hl : Branch K g c.state b.header.prevHash l) :
    Branch K g (c.submit K b).state (blockId K b) ((blockId K b, b) :: l) := by
  obtain ⟨n, t, lo, hcan⟩ := hc.canonical
  rcases submit_cases hc hcan b with ⟨hnot, -⟩ | ⟨lp, a, p, s, hpl, ⟨-, hst⟩ | ⟨o, -, -, hst⟩⟩
  · exact absurd hb hnot
  · obtain rfl := hl.unique hpl.parent
    rw [hst]
    exact hpl.branch hc.stored
  · obtain rfl := hl.unique hpl.parent
    rw [hst]
    exact (hpl.branch hc.stored).commit _

end Ondris
