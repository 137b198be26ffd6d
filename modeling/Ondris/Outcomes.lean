import Ondris.Mempool
import Ondris.Readers

/-!
# Outcomes

What the answers of `fork_paths` and `submit_block` say about the store.

Results:
1. `forkPaths_exact`: the fork paths of two stored blocks are their own parts above their
   lowest common ancestor.
2. `outcomes_mean`: each outcome of `submit_block` comes with the change of the store that
   it names, and the list to requeue is the difference of the two chains.
3. `orphan_iff`: the mined blocks with an unknown parent that are reported as orphans.
-/

namespace Ondris

variable {K : Crates} {g : GenesisConfig} {c : Chain} {st : ChainState}

/-! ## Definitions -/

/-- `k` is on the way from `h` down to genesis, `h` included. -/
def Ancestor (K : Crates) (g : GenesisConfig) (st : ChainState) (k h : Hash256) : Prop :=
  ∃ l, Branch K g st h l ∧ k ∈ l.map Prod.fst

/-- The paths from `a` and from `b` to their lowest common ancestor, without it: `undo`
from `a` down, `apply` up to `b`. -/
structure ForkPaths (K : Crates) (g : GenesisConfig) (st : ChainState) (a b : Hash256)
    (undo apply : BlockChain) : Prop where
  paths : ∃ fork rest, Branch K g st a (undo ++ fork :: rest) ∧
    Branch K g st b (apply.reverse ++ fork :: rest) ∧
    ∀ k, Ancestor K g st k a ∧ Ancestor K g st k b ↔ Ancestor K g st k fork.1
  disjoint : ∀ k ∈ undo.map Prod.fst, k ∉ apply.map Prod.fst
  undo_eq_nil : undo = [] ↔ Ancestor K g st a b
  apply_eq_nil : apply = [] ↔ Ancestor K g st b a

/-- The transactions of a list of blocks. -/
def chainTxs (blocks : List Block) : List Transaction := blocks.flatMap (·.transactions.val)

/-- The transactions of the canonical chains before and after a call hash differently. -/
def DistinctAcross (K : Crates) (c : Chain) (b : Block) : Prop :=
  ∀ old new, CanonicalBlocks c.state old → CanonicalBlocks (c.submit K b).state new →
    Set.InjOn (Hash256.hash K) {x | ∃ tx ∈ chainTxs old ++ chainTxs new, x = tx.toJson}

/-- What each outcome of a submission says. -/
structure OutcomesMean (K : Crates) (g : GenesisConfig) (c : Chain) (b : Block) : Prop where
  alreadyKnown : (c.submitBlock K b).result = .ok .alreadyKnown → (c.submit K b).state = c.state
  orphan : ∀ missing, (c.submitBlock K b).result = .ok (.orphan missing) →
    (c.submit K b).state = c.state
  sideBranch : ∀ hash height, (c.submitBlock K b).result = .ok (.sideBranch hash height) →
    hash = blockId K b ∧ height = b.header.height ∧ c.state.blocks hash = none ∧
      ∃ l, Branch K g (c.submit K b).state hash l ∧ (c.submit K b).state =
        { c.state with
          blocks := Function.update c.state.blocks hash (some b)
          chainwork := Function.update c.state.chainwork hash (some (branchWork l)) }
  accepted : ∀ hash height reorged requeue,
    (c.submitBlock K b).result = .ok (.accepted hash height reorged requeue) →
    hash = blockId K b ∧ height = b.header.height ∧
      (c.submit K b).state.tip = some (height, hash) ∧
      (c.submit K b).state.blocks hash = some b ∧
      (c.submit K b).state.heights height = some hash ∧ requeue.Nodup ∧
      ∃ old new, CanonicalBlocks c.state old ∧ CanonicalBlocks (c.submit K b).state new ∧
        ∀ tx, tx ∈ requeue ↔ tx ∈ chainTxs old ∧ tx ∉ chainTxs new

/-- The identifier of the block meets its target under the dataset of its epoch, seeded
by some block if the epoch is not the first. -/
def Mined (K : Crates) (b : Block) : Prop :=
  ∃ boundary : Option Hash256, (boundary = none ↔ epochOf b.header.height = 0) ∧
    meetsTarget (b.header.id K (Dataset.generate K (epochOf b.header.height)
      (epochSeed K boundary))) (targetForDifficulty b.header.difficulty) = true

/-! ## Fork paths -/

theorem ancestor_of_branch {h k : Hash256} {l : BlockChain} (hl : Branch K g st h l) :
    Ancestor K g st k h ↔ k ∈ l.map Prod.fst := by
  constructor
  · rintro ⟨l', hl', hk⟩
    rwa [hl'.unique hl] at hk
  · exact fun hk => ⟨l, hl, hk⟩

/-- A part of its own is empty exactly if the other branch contains the whole. -/
theorem Fork.own_empty_iff {lo ln a b s : BlockChain} (hf : Fork lo ln a b s) {h : Hash256}
    (hl : Branch K g st h lo) : a = [] ↔ h ∈ ln.map Prod.fst := by
  obtain ⟨x, t, -, hlo⟩ := hl.head
  have hold : a ++ s = (h, x) :: t := hf.old.symm.trans hlo
  rw [hf.new]
  cases a with
  | nil =>
    rw [List.nil_append] at hold
    simp [hold]
  | cons q a =>
    obtain ⟨rfl, -⟩ := List.cons.inj hold
    have hnodup := hl.nodup
    rw [hf.old, List.map_append, List.nodup_append] at hnodup
    refine iff_of_false (List.cons_ne_nil _ _) fun hmem => ?_
    rw [List.map_append, List.mem_append] at hmem
    rcases hmem with hb | hs
    · exact hf.disjoint h List.mem_cons_self hb
    · exact hnodup.2.2 h List.mem_cons_self h hs rfl

/-- **The fork paths of two stored blocks are the parts of their branches above their
lowest common ancestor.** -/
theorem forkPaths_exact (hc : (chainMachine K g).Reachable c) {a b : Hash256}
    (ha : (c.state.blocks a).isSome) (hb : (c.state.blocks b).isSome) :
    ∃ undo apply, forkPaths c.state a b = .ok (undo, apply) ∧
      ForkPaths K g c.state a b undo apply := by
  have hs := (chainInv hc).stored
  obtain ⟨x, hx⟩ := Option.isSome_iff_exists.mp ha
  obtain ⟨y, hy⟩ := Option.isSome_iff_exists.mp hb
  obtain ⟨la, hla⟩ := hs.exists_branch hx
  obtain ⟨lb, hlb⟩ := hs.exists_branch hy
  obtain ⟨p, q, s, hf, hpaths⟩ := forkPaths_eq hs hla hlb
  have hf' : Fork ((b, y) :: lb) ((a, x) :: la) q p s :=
    ⟨hf.new, hf.old, hf.common, fun k hq hp => hf.disjoint k hp hq⟩
  have hempty := hf.own_empty_iff hla
  have hempty' := hf'.own_empty_iff hlb
  rw [← ancestor_of_branch hlb] at hempty
  rw [← ancestor_of_branch hla] at hempty'
  rw [hf.old] at hla
  rw [hf.new] at hlb
  obtain ⟨fork, rest, rfl⟩ := List.exists_cons_of_ne_nil hf.common
  have hfork : Branch K g c.state fork.1 (fork :: rest) := hla.of_append
  refine ⟨p, q.reverse, hpaths, ⟨fork, rest, hla, by rwa [List.reverse_reverse], fun k => ?_⟩, ?_,
    hempty, by rwa [List.reverse_eq_nil_iff]⟩
  · -- what is on both branches is on the common part
    rw [ancestor_of_branch hla, ancestor_of_branch hlb, ancestor_of_branch hfork]
    simp only [List.map_append, List.mem_append]
    constructor
    · rintro ⟨hp | hs, hq | hs'⟩
      · exact absurd hq (hf.disjoint k hp)
      · exact hs'
      · exact hs
      · exact hs
    · exact fun hs => ⟨.inr hs, .inr hs⟩
  · simpa only [List.map_reverse, List.mem_reverse] using hf.disjoint

/-- Two blocks on genesis. -/
theorem forkPaths_exact_siblings : ∃ undo apply,
    forkPaths reorgChain₂.state (nonceId 0) (nonceId 1) = .ok (undo, apply) ∧
      ForkPaths smallCrates reorgGenesis reorgChain₂.state (nonceId 0) (nonceId 1) undo apply :=
  forkPaths_exact reachable_reorg₂ reorgChain₂_canonical.1.branch.get_isSome
    reorgChain₂_canonical.2.1.get_isSome

/-! ## What an outcome says -/

theorem requeueOf_eq (a p : BlockChain) : requeueOf K a p =
    (blockTxs a).filter fun tx => tx.hash K ∉ (blockTxs p).map (·.hash K) := by
  rw [requeueOf, blockTxs, blockTxs, List.filter_flatMap, List.map_flatMap]

theorem blockTxs_perm_reverse (l : BlockChain) : (blockTxs l.reverse).Perm (blockTxs l) :=
  (List.reverse_perm l).flatMap_right _

/-- The canonical blocks have the transactions of the branch of the tip. -/
theorem mem_chainTxs {n : UInt64} {t : Hash256} {l : BlockChain} (hs : WellStored K g st)
    (hcan : Canonical K g st n t l) {tx : Transaction} :
    tx ∈ chainTxs (l.dropLast.map Prod.snd).reverse ↔ tx ∈ blockTxs l := by
  rw [chainTxs, hs.flatMap_transactions hcan.branch, mem_blockTxs_reverse]

/-- The list to requeue is the difference of the two chains, without repetition. -/
theorem requeueOf_difference {n : UInt64} {t : Hash256} {lo ln a p s : BlockChain}
    (hnonces : NonceInv K g st) (hcan : Canonical K g st n t lo) (hfork : Fork lo ln a p s)
    (hfree : Set.InjOn (Hash256.hash K)
      {x | ∃ tx, (tx ∈ blockTxs lo ∨ tx ∈ blockTxs ln) ∧ x = tx.toJson}) :
    (requeueOf K a p.reverse).Nodup ∧
      ∀ tx, tx ∈ requeueOf K a p.reverse ↔ tx ∈ blockTxs lo ∧ tx ∉ blockTxs ln := by
  obtain rfl := hfork.old
  obtain rfl := hfork.new
  have hmem : ∀ (l : BlockChain) (tx : Transaction),
      tx ∈ blockTxs (l ++ s) ↔ tx ∈ blockTxs l ∨ tx ∈ blockTxs s := by
    intro l tx
    rw [blockTxs_append, List.mem_append]
  constructor
  · have hnodup := (blockTxs_perm_reverse _).nodup_iff.mp (hnonces n t _ hcan).1.nodup
    rw [blockTxs_append] at hnodup
    rw [requeueOf_eq]
    exact (List.nodup_append.mp hnodup).1.filter _
  · intro tx
    rw [mem_requeueOf, hmem, hmem]
    constructor
    · rintro ⟨hundone, hnot⟩
      refine ⟨.inl hundone, ?_⟩
      rintro (happlied | hcommon)
      · exact hnot (List.mem_map_of_mem (mem_blockTxs_reverse.mpr happlied))
      · exact hnonces.disjoint hcan hundone hcommon
    · rintro ⟨hold, hnew⟩
      have hundone : tx ∈ blockTxs a := hold.resolve_right fun hcommon => hnew (.inr hcommon)
      refine ⟨hundone, fun hhash => ?_⟩
      -- an applied transaction with the same hash would be the same one
      obtain ⟨tx', htx', heq⟩ := List.mem_map.mp hhash
      have happlied : tx' ∈ blockTxs p := mem_blockTxs_reverse.mp htx'
      have hjson : tx'.toJson = tx.toJson :=
        hfree ⟨tx', .inr ((hmem p tx').mpr (.inl happlied)), rfl⟩
          ⟨tx, .inl ((hmem a tx).mpr (.inl hundone)), rfl⟩ heq
      obtain rfl := toJson_injective hjson
      exact hnew (.inl happlied)

theorem OutcomesMean.of_unstorable (hc : ChainInv K g c) {b : Block}
    (hb : ¬ Storable K g c.state b) : OutcomesMean K g c b := by
  have hst := state_submit_unstorable hc hb
  refine ⟨fun _ => hst, fun _ _ => hst, fun hash height hres => ?_,
    fun hash height reorged requeue hres => ?_⟩
  · rcases submitBlock_unstorable_result hc hb with ⟨e, h⟩ | h | h <;> rw [h] at hres <;> cases hres
  · rcases submitBlock_unstorable_result hc hb with ⟨e, h⟩ | h | h <;> rw [h] at hres <;> cases hres

theorem OutcomesMean.of_stored (hc : ChainInv K g c) {n : UInt64} {t : Hash256}
    {lo lp a p s : BlockChain} (hcan : Canonical K g c.state n t lo) {b : Block}
    (hpl : Placement K g c.state lo b lp a p s)
    (hover : ¬ (branchWork lo < branchWork ((blockId K b, b) :: lp) ∧
      ∃ overlay, simulate K g c.state a p = .ok overlay)) : OutcomesMean K g c b := by
  obtain ⟨hst, hresult⟩ := submitBlock_stored hc hcan hpl hover
  refine ⟨fun hres => ?_, fun _ hres => ?_, fun hash height hres => ?_,
    fun hash height reorged requeue hres => ?_⟩
  · rcases hresult with ⟨e, h⟩ | h <;> rw [h] at hres <;> cases hres
  · rcases hresult with ⟨e, h⟩ | h <;> rw [h] at hres <;> cases hres
  · rcases hresult with ⟨e, h⟩ | h
    · rw [h] at hres
      cases hres
    · rw [h] at hres
      obtain ⟨rfl, rfl⟩ := SubmitOutcome.sideBranch.inj (Except.ok.inj hres)
      refine ⟨rfl, rfl, hpl.new, (blockId K b, b) :: lp, ?_, hst⟩
      rw [hst]
      exact hpl.branch hc.stored
  · rcases hresult with ⟨e, h⟩ | h <;> rw [h] at hres <;> cases hres

theorem OutcomesMean.of_overtaking (hc : ChainInv K g c) (hnonces : NonceInv K g c.state)
    {n : UInt64} {t : Hash256} {lo lp a p s : BlockChain} (hcan : Canonical K g c.state n t lo)
    {b : Block} (hpl : Placement K g c.state lo b lp a p s)
    (hwork : branchWork lo < branchWork ((blockId K b, b) :: lp)) {overlay : Overlay}
    (hsim : simulate K g c.state a p = .ok overlay) (hfree : DistinctAcross K c b) :
    OutcomesMean K g c b := by
  obtain ⟨hresult, hcan'⟩ := submitBlock_overtakes hc hcan hpl hwork hsim
  have hs' := (hc.submit b).stored
  refine ⟨fun hres => ?_, fun _ hres => ?_, fun hash height hres => ?_,
    fun hash height reorged requeue hres => ?_⟩
  · rw [hresult] at hres
    cases hres
  · rw [hresult] at hres
    cases hres
  · rw [hresult] at hres
    cases hres
  · rw [hresult] at hres
    obtain ⟨rfl, rfl, -, rfl⟩ := SubmitOutcome.accepted.inj (Except.ok.inj hres)
    have hinj := hfree _ _ hcan.canonicalBlocks hcan'.canonicalBlocks
    obtain ⟨hnodup, hmem⟩ := requeueOf_difference hnonces hcan hpl.fork (hinj.mono (by
      rintro x ⟨tx, htx, rfl⟩
      refine ⟨tx, List.mem_append.mpr ?_, rfl⟩
      rwa [mem_chainTxs hc.stored hcan, mem_chainTxs hs' hcan']))
    obtain ⟨x, l, hx, hl⟩ := hcan'.branch.head
    obtain ⟨heq, -⟩ := List.cons.inj hl
    obtain rfl : b = x := congrArg Prod.snd heq
    refine ⟨rfl, rfl, hcan'.tip, hx, ?_, hnodup, _, _, hcan.canonicalBlocks, hcan'.canonicalBlocks,
      fun tx => ?_⟩
    · rw [hcan'.index, List.reverse_cons, List.map_append,
        List.getElem?_append_right (by simp [hpl.ok.height])]
      simp [hpl.ok.height]
    · rw [hmem, mem_chainTxs hc.stored hcan, mem_chainTxs hs' hcan']

/-- **Each outcome of `submit_block` comes with the change of the store that it names.** -/
theorem outcomes_mean (hc : (chainMachine K g).Reachable c) {b : Block}
    (hfree : DistinctAcross K c b) : OutcomesMean K g c b := by
  have hinv := chainInv hc
  obtain ⟨n, t, lo, hcan⟩ := hinv.canonical
  by_cases hb : Storable K g c.state b
  · obtain ⟨lp, a, p, s, hpl⟩ := Placement.exists hinv.stored hcan hb
    by_cases hover : branchWork lo < branchWork ((blockId K b, b) :: lp) ∧
        ∃ overlay, simulate K g c.state a p = .ok overlay
    · obtain ⟨hwork, overlay, hsim⟩ := hover
      exact .of_overtaking hinv (nonceInv hc) hcan hpl hwork hsim hfree
    · exact .of_stored hinv hcan hpl hover
  · exact .of_unstorable hinv hb

/-- The block that moves the tip to another branch: the transaction of the old tip comes back,
that of the new branch with the same nonce stays. -/
theorem outcomes_mean_reorg :
    (reorgChain₂.submitBlock smallCrates reorgC).result
        = .ok (.accepted (nonceId 2) 2 true [sampleTx 0]) ∧
      OutcomesMean smallCrates reorgGenesis reorgChain₂ reorgC := by
  refine ⟨submit_reorgC.1, outcomes_mean reachable_reorg₂ fun old new hold hnew => ?_⟩
  obtain rfl := hold.unique reorgChain₂_canonical.1.canonicalBlocks
  obtain rfl := hnew.unique reorgChain₃_canonical.canonicalBlocks
  have hnodup : ((chainTxs [reorgA] ++ chainTxs [reorgB, reorgC]).map
      (·.hash smallCrates)).Nodup := by decide +kernel
  rintro x ⟨tx, htx, rfl⟩ y ⟨ty, hty, rfl⟩ heq
  rw [List.inj_on_of_nodup_map hnodup htx hty heq]

/-! ## Unknown parents -/

/-- **A mined block with an unknown parent is an orphan exactly if it is of the first
epoch and not known.** -/
theorem orphan_iff (hc : (chainMachine K g).Reachable c) {b : Block}
    (hzero : 1 ≤ b.header.height) (hroot : b.header.txRoot = b.computeTxRoot K)
    (hsigned : ∀ tx ∈ b.transactions.val, tx.isSignatureValid K = true)
    (hparent : c.state.blocks b.header.prevHash = none) (hmined : Mined K b) :
    ((c.submitBlock K b).result = .ok (.orphan b.header.prevHash) ∧
      (c.submit K b).state = c.state) ↔
    b.header.height < epochLength ∧ c.state.blocks (blockId K b) = none := by
  have hinv := chainInv hc
  have hne : b.header.height ≠ 0 := by
    intro heq
    rw [heq] at hzero
    exact absurd hzero (by decide)
  rw [UInt64.lt_iff_toNat_lt]
  constructor
  · rintro ⟨hres, -⟩
    rcases Nat.lt_or_ge b.header.height.toNat epochLength.toNat with hlow | hhigh
    · refine ⟨hlow, ?_⟩
      by_contra hknown
      rw [submitBlock_known hinv hne hlow (Option.isSome_iff_ne_none.mpr hknown)] at hres
      cases hres
    · -- the dataset of a later epoch is not found, whatever the parent
      rw [Chain.submitBlock, if_neg hne, datasetForHeight_high hinv hhigh] at hres
      cases hres
  · rintro ⟨hlow, hnew⟩
    obtain ⟨boundary, hboundary, hmeets⟩ := hmined
    have hepoch : epochOf b.header.height = 0 := by
      rw [epochOf, ← UInt64.toNat_inj, UInt64.toNat_div]
      exact Nat.div_eq_of_lt hlow
    rw [hepoch, hboundary.mpr hepoch] at hmeets
    refine ⟨submitBlock_orphan hinv hne hlow hnew hroot hmeets hsigned hparent, ?_⟩
    refine state_submit_unstorable hinv ?_
    rintro ⟨-, l, hl, -⟩
    have hsome := hl.get_isSome
    rw [hparent] at hsome
    cases hsome

theorem mined_emptyBlock (height : UInt64) (prevHash : Hash256) (nonce : UInt64) :
    Mined smallCrates (emptyBlock height prevHash nonce) := by
  have hmeets : ∀ dataset, meetsTarget ((emptyBlock height prevHash nonce).header.id smallCrates
      dataset) (targetForDifficulty 1) = true := by
    intro dataset
    rw [id_small]
    exact meetsTarget_nonceId nonce
  by_cases hepoch : epochOf height = 0
  · exact ⟨none, iff_of_true rfl hepoch, hmeets _⟩
  · exact ⟨some Hash256.zero, iff_of_false (Option.some_ne_none _) hepoch, hmeets _⟩

theorem blocks_smallOpen (n : UInt64) : smallOpen.state.blocks (nonceId n) = none :=
  canonical_smallOpen.2 _ (nonceId_ne_genesisHash n)

theorem orphan_iff_small :
    ((smallOpen.submitBlock smallCrates (emptyBlock 7 (nonceId 1) 2)).result
        = .ok (.orphan (nonceId 1)) ∧
      (smallOpen.submit smallCrates (emptyBlock 7 (nonceId 1) 2)).state = smallOpen.state) ↔
    (7 : UInt64) < epochLength ∧
      smallOpen.state.blocks (blockId smallCrates (emptyBlock 7 (nonceId 1) 2)) = none :=
  orphan_iff (.init init_small) (by decide) (merkleRoot_nil smallCrates).symm
    (fun tx htx => absurd htx List.not_mem_nil) (blocks_smallOpen 1) (mined_emptyBlock _ _ _)

/-- A mined block of the second epoch with an unknown parent is an error. -/
theorem not_orphan_second_epoch : ∃ c b, (chainMachine smallCrates smallGenesis).Reachable c ∧
    1 ≤ b.header.height ∧ b.header.txRoot = b.computeTxRoot smallCrates ∧
    (∀ tx ∈ b.transactions.val, tx.isSignatureValid smallCrates = true) ∧
    c.state.blocks b.header.prevHash = none ∧ Mined smallCrates b ∧
    c.state.blocks (blockId smallCrates b) = none ∧
    (c.submitBlock smallCrates b).result = .error (.epochBoundaryMissing 2048) := by
  have hinv : ChainInv smallCrates smallGenesis smallOpen := chainInv (.init init_small)
  refine ⟨smallOpen, emptyBlock 3000 (nonceId 1) 2, .init init_small, by decide,
    (merkleRoot_nil smallCrates).symm, fun tx htx => absurd htx List.not_mem_nil,
    blocks_smallOpen 1, mined_emptyBlock _ _ _, ?_, ?_⟩
  · rw [blockId_small]
    exact blocks_smallOpen 2
  · rw [Chain.submitBlock, if_neg (by decide), datasetForHeight_high hinv (by decide)]
    rfl

end Ondris
