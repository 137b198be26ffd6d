import Ondris.Sequence
import Ondris.Template

/-!
# The mempool and the canonical chain

`handle_outcome` takes the transactions of an accepted block out of the mempool and
puts back those that the move displaced. Nothing else takes a transaction out, and
`submit_tx` and the `NewTransaction` handler put in whatever is signed.

Results:
1. `TakesOver.submit`, `submit_stays`: what a call of `submit_block` does to the
   canonical chain.
2. `unconfirmed_retry_iff`: a call keeps confirmed transactions out of the mempool exactly
   if the blocks it makes canonical besides its own hold no pending transaction.
3. `mempool_unconfirmed`: so do runs of such calls in which no confirmed transaction is
   handed in again. `mempool_confirmed_again`: one that is stays pending.
-/

namespace Ondris

/-! ## Definitions -/

/-- The keys of the mempool. -/
def ChainState.pending (st : ChainState) : List Hash256 := st.mempool.map Prod.fst

/-- A canonical block has a transaction with this hash. -/
def Confirmed (K : Crates) (st : ChainState) (hash : Hash256) : Prop :=
  ∃ blocks, CanonicalBlocks st blocks ∧ ∃ tx ∈ blocks.flatMap (·.transactions.val), tx.hash K = hash

/-- The block is stored on the branch `lp`, and that becomes the canonical chain. -/
def TakesOver (K : Crates) (g : GenesisConfig) (st : ChainState) (b : Block) (lp : BlockChain) :
    Prop :=
  ∃ n t lo a p s, Canonical K g st n t lo ∧ Placement K g st lo b lp a p s ∧
    branchWork lo < branchWork ((blockId K b, b) :: lp) ∧
    ∃ overlay, simulate K g st a p = .ok overlay

/-- If the block takes over, no transaction of the blocks below it is pending, unless the
block has it as well. -/
def CleanCall (K : Crates) (g : GenesisConfig) (st : ChainState) (b : Block) : Prop :=
  ∀ lp, TakesOver K g st b lp → ∀ tx ∈ blockTxs lp, tx.hash K ∈ st.pending →
    tx.hash K ∈ b.transactions.val.map (·.hash K)

/-- Different transactions of the canonical chain have different hashes. -/
def DistinctHashes (K : Crates) (g : GenesisConfig) (st : ChainState) : Prop :=
  ∀ n t l, Canonical K g st n t l → ∀ tx ∈ blockTxs l, ∀ tx' ∈ blockTxs l,
    tx.hash K = tx'.hash K → tx = tx'

/-- No pending transaction is confirmed. -/
def Unconfirmed (K : Crates) (st : ChainState) : Prop := ∀ hash ∈ st.pending, ¬ Confirmed K st hash

/-- A transaction is handed in only while it is not confirmed, and the calls that follow
from a block are clean. -/
structure CleanInput (K : Crates) (g : GenesisConfig) (node : Node) (i : NodeInput) : Prop where
  tx : ∀ tx, i.handedIn = some tx → tx.isSignatureValid K = true →
    ¬ Confirmed K node.chain.state (tx.hash K)
  block : ∀ b, i.delivered = some b → ∀ call ∈ node.calls K b,
    CleanCall K g call.1.chain.state call.2 ∧ DistinctHashes K g call.1.chain.state

variable {K : Crates} {g : GenesisConfig} {c : Chain} {node : Node} {st : ChainState}

/-! ## Keys of the mempool -/

theorem Mempool.mem_keys_insert {hash key : Hash256} {tx : Transaction} {pool : Mempool} :
    key ∈ (pool.insert hash tx).map Prod.fst ↔ key = hash ∨ key ∈ pool.map Prod.fst := by
  induction pool with
  | nil => simp [Mempool.insert]
  | cons e pool ih =>
    unfold Mempool.insert
    split
    · next heq =>
      rw [List.map_cons, List.map_cons, List.mem_cons, List.mem_cons, ← heq]
      simp
    · split
      · rw [List.map_cons, List.mem_cons]
      · rw [List.map_cons, List.mem_cons, ih, List.map_cons, List.mem_cons]
        exact or_left_comm

theorem Mempool.mem_insert_self (hash : Hash256) (tx : Transaction) (pool : Mempool) :
    (hash, tx) ∈ pool.insert hash tx := by
  induction pool with
  | nil => exact List.mem_singleton.mpr rfl
  | cons e pool ih =>
    unfold Mempool.insert
    split
    · exact List.mem_cons_self
    · split
      · exact List.mem_cons_self
      · exact List.mem_cons_of_mem _ ih

/-- A new key goes between two entries of the mempool. -/
theorem Mempool.insert_eq {hash : Hash256} {pool : Mempool} (h : hash ∉ pool.map Prod.fst)
    (tx : Transaction) : ∃ before after, pool = before ++ after ∧
      pool.insert hash tx = before ++ (hash, tx) :: after := by
  induction pool with
  | nil => exact ⟨[], [], rfl, rfl⟩
  | cons e pool ih =>
    rw [List.map_cons, List.mem_cons, not_or] at h
    unfold Mempool.insert
    rw [if_neg h.1]
    split
    · exact ⟨[], e :: pool, rfl, rfl⟩
    · obtain ⟨before, after, heq, hinsert⟩ := ih h.2
      refine ⟨e :: before, after, ?_, ?_⟩
      · rw [heq, List.cons_append]
      · rw [hinsert, List.cons_append]

theorem Mempool.mem_keys_remove {hash key : Hash256} {pool : Mempool} :
    key ∈ (pool.remove hash).map Prod.fst ↔ key ∈ pool.map Prod.fst ∧ key ≠ hash := by
  simp only [Mempool.remove, List.mem_map, List.mem_filter, decide_eq_true_eq]
  constructor
  · rintro ⟨e, ⟨he, hne⟩, rfl⟩
    exact ⟨⟨e, he, rfl⟩, hne⟩
  · rintro ⟨⟨e, he, rfl⟩, hne⟩
    exact ⟨e, ⟨he, hne⟩, rfl⟩

theorem pending_removes (txs : List Transaction) {key : Hash256} :
    key ∈ (st.writes (txs.map fun tx => .mempoolRemove (tx.hash K))).pending ↔
      key ∈ st.pending ∧ key ∉ txs.map (·.hash K) := by
  induction txs generalizing st with
  | nil => simp
  | cons tx txs ih =>
    have hhead : key ∈ (st.write (.mempoolRemove (tx.hash K))).pending ↔
        key ∈ st.pending ∧ key ≠ tx.hash K := Mempool.mem_keys_remove
    rw [List.map_cons, ChainState.writes_cons, ih, hhead, List.map_cons, List.mem_cons, not_or,
      and_assoc]

theorem pending_inserts (txs : List Transaction) {key : Hash256} :
    key ∈ (st.writes (txs.map fun tx => .mempoolInsert (tx.hash K) tx)).pending ↔
      key ∈ st.pending ∨ key ∈ txs.map (·.hash K) := by
  induction txs generalizing st with
  | nil => simp
  | cons tx txs ih =>
    have hhead : key ∈ (st.write (.mempoolInsert (tx.hash K) tx)).pending ↔
        key = tx.hash K ∨ key ∈ st.pending := Mempool.mem_keys_insert
    rw [List.map_cons, ChainState.writes_cons, ih, hhead, List.map_cons, List.mem_cons,
      or_comm (a := key = _), or_assoc]

/-- What is pending once `handle_outcome` has run for an accepted block. -/
theorem pending_mempoolWrites (b : Block) (requeue : List Transaction) {key : Hash256} :
    key ∈ (st.writes (Node.mempoolWrites K b requeue)).pending ↔
      (key ∈ st.pending ∧ key ∉ b.transactions.val.map (·.hash K)) ∨
        key ∈ requeue.map (·.hash K) := by
  rw [Node.mempoolWrites, ChainState.writes_append, pending_inserts, pending_removes]

theorem mem_requeueOf {a p : BlockChain} {tx : Transaction} :
    tx ∈ requeueOf K a p ↔ tx ∈ blockTxs a ∧ tx.hash K ∉ (blockTxs p).map (·.hash K) := by
  simp only [requeueOf, blockTxs, List.mem_flatMap, List.mem_filter, decide_eq_true_eq,
    List.map_flatMap]
  constructor
  · rintro ⟨q, hq, htx, hnot⟩
    exact ⟨⟨q, hq, htx⟩, hnot⟩
  · rintro ⟨⟨q, hq, htx⟩, hnot⟩
    exact ⟨q, hq, htx, hnot⟩

/-! ## Confirmed transactions -/

theorem CanonicalBlocks.unique {blocks blocks' : List Block} (h : CanonicalBlocks st blocks)
    (h' : CanonicalBlocks st blocks') : blocks = blocks' := by
  obtain ⟨n, t, htip, hlen, hget⟩ := h
  obtain ⟨n', t', htip', hlen', hget'⟩ := h'
  obtain ⟨rfl, rfl⟩ := Prod.mk.inj (Option.some.inj (htip.symm.trans htip'))
  refine List.ext_getElem? fun i => ?_
  rcases Nat.lt_or_ge i n.toNat with hi | hi
  · have hlt := n.toNat_lt
    have hnext : i + 1 < UInt64.size := by
      show i + 1 < 2 ^ 64
      omega
    have hnat : (UInt64.ofNat (i + 1)).toNat = i + 1 := UInt64.toNat_ofNat_of_lt' hnext
    have hone : 1 ≤ UInt64.ofNat (i + 1) := by
      rw [UInt64.le_iff_toNat_le, hnat]
      exact Nat.succ_pos i
    have hle : UInt64.ofNat (i + 1) ≤ n := by
      rw [UInt64.le_iff_toNat_le, hnat]
      exact hi
    have hfst := hget _ hone hle
    have hsnd := hget' _ hone hle
    rw [hnat, Nat.add_sub_cancel] at hfst hsnd
    exact hfst.symm.trans hsnd
  · rw [List.getElem?_eq_none (hlen ▸ hi), List.getElem?_eq_none (hlen' ▸ hi)]

theorem mem_blockTxs_reverse {l : BlockChain} {tx : Transaction} :
    tx ∈ blockTxs l.reverse ↔ tx ∈ blockTxs l := by
  simp [blockTxs]

theorem confirmed_iff (hs : WellStored K g st) {n : UInt64} {t : Hash256} {l : BlockChain}
    (hcan : Canonical K g st n t l) {hash : Hash256} :
    Confirmed K st hash ↔ hash ∈ (blockTxs l).map (·.hash K) := by
  have hall : ∀ tx, tx ∈ (l.dropLast.map Prod.snd).reverse.flatMap (·.transactions.val) ↔
      tx ∈ blockTxs l := by
    intro tx
    rw [hs.flatMap_transactions hcan.branch, mem_blockTxs_reverse]
  constructor
  · rintro ⟨blocks, hblocks, tx, htx, rfl⟩
    rw [hblocks.unique hcan.canonicalBlocks, hall] at htx
    exact List.mem_map_of_mem htx
  · intro h
    obtain ⟨tx, htx, rfl⟩ := List.mem_map.mp h
    exact ⟨_, hcan.canonicalBlocks, tx, (hall tx).mpr htx, rfl⟩

/-! ## One call of `submit_block` -/

theorem TakesOver.placement {b : Block} {lp : BlockChain} (h : TakesOver K g st b lp) {n : UInt64}
    {t : Hash256} {lo : BlockChain} (hcan : Canonical K g st n t lo) :
    ∃ a p s, Placement K g st lo b lp a p s ∧
      branchWork lo < branchWork ((blockId K b, b) :: lp) ∧
      ∃ overlay, simulate K g st a p = .ok overlay := by
  obtain ⟨n', t', lo', a, p, s, hcan', hpl, hover⟩ := h
  obtain ⟨-, -, rfl⟩ := hcan'.unique hcan
  exact ⟨a, p, s, hpl, hover⟩

/-- A block takes over on one branch only. -/
theorem TakesOver.unique {b : Block} {lp lp' : BlockChain} (h : TakesOver K g st b lp)
    (h' : TakesOver K g st b lp') : lp' = lp := by
  obtain ⟨n, t, lo, a, p, s, hcan, hpl, -⟩ := h
  obtain ⟨a', p', s', hpl', -⟩ := h'.placement hcan
  exact hpl'.parent.unique hpl.parent

/-- A block that takes over is accepted, and its branch is the canonical chain. -/
theorem TakesOver.submit (hc : ChainInv K g c) {b : Block} {lp : BlockChain}
    (h : TakesOver K g c.state b lp) {n : UInt64} {t : Hash256} {lo : BlockChain}
    (hcan : Canonical K g c.state n t lo) :
    ∃ a p s reorged, Fork lo ((blockId K b, b) :: lp) a p s ∧
      (c.submitBlock K b).result
        = .ok (.accepted (blockId K b) b.header.height reorged (requeueOf K a p.reverse)) ∧
      Canonical K g (c.submit K b).state b.header.height (blockId K b) ((blockId K b, b) :: lp) := by
  obtain ⟨a, p, s, hpl, hwork, overlay, hsim⟩ := h.placement hcan
  obtain ⟨hres, hcan'⟩ := submitBlock_overtakes hc hcan hpl hwork hsim
  exact ⟨a, p, s, _, hpl.fork, hres, hcan'⟩

/-- A block that does not take over is not accepted, and the canonical chain stays. -/
theorem submit_stays (hc : ChainInv K g c) {b : Block} (h : ∀ lp, ¬ TakesOver K g c.state b lp)
    {n : UInt64} {t : Hash256} {lo : BlockChain} (hcan : Canonical K g c.state n t lo) :
    (∀ hash height reorged requeue,
      (c.submitBlock K b).result ≠ .ok (.accepted hash height reorged requeue)) ∧
    Canonical K g (c.submit K b).state n t lo := by
  refine ⟨fun hash height reorged requeue hacc => ?_, ?_⟩
  · obtain ⟨lp, a, p, s, hpl, hover, -⟩ := accepted_cases hc hcan hacc
    exact h lp ⟨n, t, lo, a, p, s, hcan, hpl, hover⟩
  · rcases submit_cases hc hcan b with ⟨-, hst⟩ | ⟨lp, a, p, s, hpl, ⟨-, hst⟩ | ⟨o, hwork, hsim, hst⟩⟩
    · rw [hst]
      exact hcan
    · rw [hst]
      exact hpl.canonical_stored hcan
    · exact absurd ⟨n, t, lo, a, p, s, hcan, hpl, hwork, o, hsim⟩ (h lp)

/-! ## One call of the node -/

theorem NonceInv.congr {st' : ChainState} (h : NonceInv K g st) (hcore : st'.core = st.core) :
    NonceInv K g st' := by
  intro n t l hcan
  obtain ⟨hnum, hnonce⟩ := h n t l
    (hcan.congr (core_blocks hcore).symm (core_heights hcore).symm (core_tip hcore).symm)
  refine ⟨hnum, fun addr => ?_⟩
  rw [ChainState.getAccount, core_accounts hcore]
  exact hnonce addr

/-- Parts of a canonical chain have no transaction in common. -/
theorem NonceInv.disjoint (h : NonceInv K g st) {n : UInt64} {t : Hash256} {a s : BlockChain}
    (hcan : Canonical K g st n t (a ++ s)) {tx : Transaction} (ha : tx ∈ blockTxs a)
    (hs : tx ∈ blockTxs s) : False := by
  have hnodup := (h n t _ hcan).1.nodup
  rw [List.reverse_append, blockTxs_append] at hnodup
  exact (List.nodup_append.mp hnodup).2.2 tx (mem_blockTxs_reverse.mpr hs) tx
    (mem_blockTxs_reverse.mpr ha) rfl

/-- What the node keeps about its mempool whatever happens. -/
structure PoolInv (K : Crates) (g : GenesisConfig) (node : Node) : Prop where
  chain : ChainInv K g node.chain
  nonces : NonceInv K g node.chain.state
  keyed : ∀ e ∈ node.chain.state.mempool, e.1 = e.2.hash K

theorem pending_submit (hc : ChainInv K g c) (b : Block) :
    (c.submit K b).state.pending = c.state.pending :=
  congrArg (·.map Prod.fst) (mempool_submit hc b)

/-- What a move displaces is in no block of the new branch: neither in its new part, by
the filter of `requeue`, nor below it, by the nonces. -/
theorem requeue_unconfirmed {n : UInt64} {t : Hash256} {lo ln a p s : BlockChain}
    (hnonces : NonceInv K g st) (hdistinct : DistinctHashes K g st)
    (hcan : Canonical K g st n t lo) (hfork : Fork lo ln a p s) {tx : Transaction}
    (htx : tx ∈ requeueOf K a p.reverse) : tx.hash K ∉ (blockTxs ln).map (·.hash K) := by
  obtain ⟨hundone, happlied⟩ := mem_requeueOf.mp htx
  obtain rfl := hfork.old
  rw [hfork.new, blockTxs_append, List.map_append, List.mem_append]
  rintro (hpart | hcommon)
  · obtain ⟨tx', htx', heq⟩ := List.mem_map.mp hpart
    exact happlied (List.mem_map.mpr ⟨tx', mem_blockTxs_reverse.mpr htx', heq⟩)
  · obtain ⟨tx', htx', heq⟩ := List.mem_map.mp hcommon
    have hall := hdistinct n t _ hcan
    rw [blockTxs_append] at hall
    obtain rfl := hall tx' (List.mem_append_right _ htx') tx (List.mem_append_left _ hundone) heq
    exact hnonces.disjoint hcan hundone htx'

/-- **One call keeps confirmed transactions out of the mempool exactly if it is clean.** -/
theorem unconfirmed_retry_iff (h : PoolInv K g node) (hfresh : Unconfirmed K node.chain.state)
    (hdistinct : DistinctHashes K g node.chain.state) (b : Block) :
    Unconfirmed K (node.retry K b).1.chain.state ↔ CleanCall K g node.chain.state b := by
  obtain ⟨n, t, lo, hcan⟩ := h.chain.canonical
  have hinv' := h.chain.retry b
  have hcore := core_retry (K := K) node b
  have hold : ∀ key ∈ node.chain.state.pending, key ∉ (blockTxs lo).map (·.hash K) := by
    intro key hkey
    rw [← confirmed_iff h.chain.stored hcan]
    exact hfresh key hkey
  by_cases htakes : ∃ lp, TakesOver K g node.chain.state b lp
  · obtain ⟨lp, htakes⟩ := htakes
    obtain ⟨a, p, s, reorged, hfork, hres, hcan'⟩ := htakes.submit h.chain hcan
    have hpool : ∀ key, key ∈ (node.retry K b).1.chain.state.pending ↔
        (key ∈ node.chain.state.pending ∧ key ∉ b.transactions.val.map (·.hash K)) ∨
          key ∈ (requeueOf K a p.reverse).map (·.hash K) := by
      intro key
      rw [state_retry_accepted hres, pending_mempoolWrites, pending_submit h.chain]
    have hconfirmed : ∀ key, Confirmed K (node.retry K b).1.chain.state key ↔
        key ∈ b.transactions.val.map (·.hash K) ∨ key ∈ (blockTxs lp).map (·.hash K) := by
      intro key
      rw [confirmed_iff hinv'.stored
        (hcan'.congr (core_blocks hcore) (core_heights hcore) (core_tip hcore)), blockTxs,
        List.flatMap_cons, List.map_append, List.mem_append, blockTxs]
    constructor
    · -- a pending transaction of an older block would stay pending
      intro hfresh' lp' htakes' tx htx hpending
      obtain rfl := htakes'.unique htakes
      by_contra hnot
      exact hfresh' _ ((hpool _).mpr (.inl ⟨hpending, hnot⟩))
        ((hconfirmed _).mpr (.inr (List.mem_map_of_mem htx)))
    · intro hclean key hkey hconf
      rw [hconfirmed] at hconf
      rcases (hpool key).mp hkey with ⟨hpending, hnot⟩ | hrequeue
      · -- a transaction that was pending before
        rcases hconf with hself | hbelow
        · exact hnot hself
        · obtain ⟨tx, htx, rfl⟩ := List.mem_map.mp hbelow
          exact hnot (hclean lp htakes tx htx hpending)
      · -- a transaction that the move displaced
        obtain ⟨tx, htx, rfl⟩ := List.mem_map.mp hrequeue
        refine requeue_unconfirmed h.nonces hdistinct hcan hfork htx ?_
        rw [blockTxs, List.flatMap_cons, List.map_append, List.mem_append]
        exact hconf
  · obtain ⟨hres, hcan'⟩ := submit_stays h.chain (fun lp hlp => htakes ⟨lp, hlp⟩) hcan
    refine ⟨fun _ lp hlp => absurd ⟨lp, hlp⟩ htakes, fun _ key hkey => ?_⟩
    have hst := state_retry_of_not_accepted hres
    rw [hst, pending_submit h.chain] at hkey
    rw [hst, confirmed_iff (h.chain.submit b).stored hcan']
    exact hold key hkey

/-! ## Runs -/

theorem PoolInv.of_state (h : PoolInv K g node) {node' : Node} (hchain : ChainInv K g node'.chain)
    (hst : node'.chain.state = node.chain.state) : PoolInv K g node' := by
  refine ⟨hchain, ?_, ?_⟩
  · rw [hst]
    exact h.nonces
  · rw [hst]
    exact h.keyed

theorem PoolInv.retry (h : PoolInv K g node) (b : Block) : PoolInv K g (node.retry K b).1 := by
  refine ⟨h.chain.retry b, (h.nonces.submit h.chain b).congr (core_retry node b), fun e he => ?_⟩
  rcases mem_mempool_retry h.chain he with hold | ⟨tx, hash, height, reorged, requeue, -, -, rfl⟩
  · exact h.keyed e hold
  · rfl

/-- A transaction that is handed in. -/
theorem PoolInv.addTransaction (h : PoolInv K g node) (tx : Transaction) :
    PoolInv K g (node.addTransaction K tx) := by
  refine ⟨h.chain.congr rfl rfl rfl, h.nonces.congr rfl, fun e he => ?_⟩
  rcases Mempool.mem_insert he with rfl | he
  · rfl
  · exact h.keyed e he

/-- A delivery with all the blocks it wakes. -/
theorem PoolInv.accept (h : PoolInv K g node) (b : Block) :
    PoolInv K g (node.acceptAndBroadcast K b).1 :=
  (node.loop_acceptAndBroadcast b).invariant (I := fun node' _ _ => PoolInv K g node')
    (Q := fun _ => True) (fun _ i _ _ _ hI => hI.retry i)
    (fun _ _ _ hI => hI.of_state (hI.chain.congr rfl rfl rfl) rfl) (fun _ _ => trivial) h

/-- A step that takes nothing in keeps the mempool unconfirmed. -/
theorem Unconfirmed.congr {st' : ChainState} (h : Unconfirmed K st) (hst : st' = st) :
    Unconfirmed K st' := by
  rw [hst]
  exact h

theorem Unconfirmed.addTransaction (h : PoolInv K g node) (hfresh : Unconfirmed K node.chain.state)
    {tx : Transaction} (htx : ¬ Confirmed K node.chain.state (tx.hash K)) :
    Unconfirmed K (node.addTransaction K tx).chain.state := by
  obtain ⟨n, t, l, hcan⟩ := h.chain.canonical
  intro key hkey
  have hcan' : Canonical K g (node.addTransaction K tx).chain.state n t l := hcan.congr rfl rfl rfl
  rw [confirmed_iff (h.addTransaction tx).chain.stored hcan', ← confirmed_iff h.chain.stored hcan]
  rcases Mempool.mem_keys_insert.mp hkey with rfl | hkey
  · exact htx
  · exact hfresh key hkey

/-- A delivery whose calls are all clean. -/
theorem Unconfirmed.accept (h : PoolInv K g node) (hfresh : Unconfirmed K node.chain.state)
    {b : Block} (hclean : ∀ call ∈ node.calls K b,
      CleanCall K g call.1.chain.state call.2 ∧ DistinctHashes K g call.1.chain.state) :
    Unconfirmed K (node.acceptAndBroadcast K b).1.chain.state := by
  refine ((node.loop_acceptAndBroadcast b).invariant
    (I := fun node' _ _ => PoolInv K g node' ∧ Unconfirmed K node'.chain.state)
    (Q := fun call => CleanCall K g call.1.chain.state call.2 ∧
      DistinctHashes K g call.1.chain.state) ?_ ?_ hclean ⟨h, hfresh⟩).2
  · rintro node' child items queue ⟨hcall, hdistinct⟩ ⟨hinv, hfresh'⟩
    exact ⟨hinv.retry child, (unconfirmed_retry_iff hinv hfresh' hdistinct child).mpr hcall⟩
  · rintro node' hash queue ⟨hinv, hfresh'⟩
    exact ⟨hinv.of_state (hinv.chain.congr rfl rfl rfl) rfl, hfresh'⟩

theorem poolInv (hn : (nodeMachine K g).Reachable node) : PoolInv K g node := by
  refine Machine.Reach.invariant (P := fun node => PoolInv K g node) (fun node hinit => ?_)
    (fun node i hr _ ih => ?_) hn
  · obtain ⟨c, hc, rfl⟩ := hinit
    refine ⟨chainInv (.init hc), nonceInv (.init hc), fun e he => absurd he ?_⟩
    exact not_mem_mempool_start hc e
  · have hnode : NodeInv K g node := nodeInv hr
    have hchain := (Advances.step hnode i).inv.chain
    rcases node_step_cases hnode i with hidle | ⟨tx, -, -, hst⟩ | ⟨b, -, hst⟩
    · exact ih.of_state hchain hidle.state
    · rw [hst]
      exact ih.addTransaction tx
    · rw [hst]
      exact ih.accept b

/-- **In a run of clean steps no pending transaction is confirmed.** -/
theorem mempool_unconfirmed (hn : (nodeMachine K g).Reach (CleanInput K g) node) :
    ∀ tx ∈ node.chain.state.mempool.map Prod.snd,
      ¬ Confirmed K node.chain.state (tx.hash K) := by
  have hfresh : Unconfirmed K node.chain.state := by
    refine Machine.Reach.invariant (P := fun node => Unconfirmed K node.chain.state)
      (fun node hinit => ?_) (fun node i hr hclean ih => ?_) hn
    · obtain ⟨c, hc, rfl⟩ := hinit
      intro key hkey
      obtain ⟨e, he, -⟩ := List.mem_map.mp hkey
      exact absurd he (not_mem_mempool_start hc e)
    · have hpool := poolInv hr.reachable
      rcases node_step_cases (nodeInv hr.reachable) i with hidle | ⟨tx, hin, htx, hst⟩ | ⟨b, hin, hst⟩
      · exact ih.congr hidle.state
      · rw [hst]
        exact ih.addTransaction hpool (hclean.tx tx hin htx)
      · rw [hst]
        exact ih.accept hpool (hclean.block b hin)
  intro tx htx
  obtain ⟨e, he, rfl⟩ := List.mem_map.mp htx
  have hkey : e.2.hash K ∈ node.chain.state.pending :=
    List.mem_map.mpr ⟨e, he, (poolInv hn.reachable).keyed e he⟩
  exact hfresh _ hkey

/-- An accepted block leaves the buffer as it is. -/
theorem orphans_retry_of_some {b : Block} {hash : Hash256} (h : (node.retry K b).2 = some hash) :
    (node.retry K b).1.orphans = node.orphans := by
  cases hres : (node.chain.submitBlock K b).result with
  | error e =>
    rw [(Node.retry_quiet (.inl ⟨e, hres⟩)).2] at h
    cases h
  | ok outcome =>
    cases outcome with
    | accepted hash' height reorged requeue => exact (Node.retry_accepted hres).1
    | sideBranch hash' height =>
      rw [(Node.retry_quiet (.inr (.inl ⟨hash', height, hres⟩))).2] at h
      cases h
    | alreadyKnown =>
      rw [(Node.retry_quiet (.inr (.inr hres))).2] at h
      cases h
    | orphan missingParent =>
      rw [(Node.retry_orphan hres).2] at h
      cases h

/-- With an empty buffer a delivery is one call. -/
theorem calls_of_no_orphans (h : node.orphans = ∅) (b : Block) : node.calls K b = [(node, b)] := by
  unfold Node.calls
  cases hwake : (node.retry K b).2 with
  | none => rw [Option.toList_none, Worklist.calls]
  | some hash =>
    have htake : ((Node.cascade K).take (node.retry K b).1 hash).2 = [] := by
      show (node.retry K b).1.orphans.waiting hash = []
      rw [orphans_retry_of_some hwake, h]
      rfl
    rw [Option.toList_some, Worklist.calls]
    simp only [htake, Worklist.passCalls, Worklist.handleAll, List.nil_append]
    rw [Worklist.calls]

/-! ## A transaction that is handed in twice -/

/-- A signed block of the small genesis at height 1. -/
theorem sampleBlock_ok {txs : List Transaction} (h : txs.length < 2 ^ 53)
    (hsigned : ∀ tx ∈ txs, tx.isSignatureValid smallCrates = true) :
    BlockOk smallCrates smallGenesis [smallGenesis.genesisBlock] (nonceId 0) (sampleBlock txs h) where
  id := blockId_small _
  root := rfl
  target := meetsTarget_nonceId 0
  signed := hsigned
  height := rfl
  height_lt := by decide
  difficulty := by
    rw [retarget_of_le]
    · rfl
    · decide

/-- The block that confirms `firstTx`. -/
def confirming : Block := sampleBlock [firstTx] (by decide)

/-- The opened chain accepts the block. -/
theorem submit_confirming :
    (smallOpen.submitBlock smallCrates confirming).result = .ok (.accepted (nonceId 0) 1 false []) ∧
    Canonical smallCrates smallGenesis (smallOpen.submit smallCrates confirming).state 1 (nonceId 0)
      [(nonceId 0, confirming),
        (smallGenesis.genesisHash smallCrates, smallGenesis.genesisBlock)] := by
  obtain ⟨hcan, honly⟩ := canonical_smallOpen
  have hinv := chainInv (.init init_small)
  have hid : blockId smallCrates confirming = nonceId 0 := blockId_small _
  have hok : BlockOk smallCrates smallGenesis [smallGenesis.genesisBlock]
      (blockId smallCrates confirming) confirming := by
    rw [hid]
    exact sampleBlock_ok _ (by decide)
  have hnew : smallOpen.state.blocks (blockId smallCrates confirming) = none := by
    rw [hid]
    exact honly _ (nonceId_ne_genesisHash 0)
  have hexec : Executable smallCrates smallOpen.state.getAccount confirming.transactions.val := by
    decide +kernel
  obtain ⟨overlay, happ⟩ : ∃ overlay, applyBlock smallCrates smallGenesis smallOpen.state ∅
      (blockId smallCrates confirming) confirming = .ok overlay :=
    applyBlock_ok_iff.mpr (applyTxs_ok_iff.mpr hexec)
  have hdiff : (1 : UInt64) ≤ confirming.header.difficulty := UInt64.le_refl 1
  have hres := submitBlock_extension hinv hcan rfl hnew hok hdiff
  have hext := hcan.extend hinv rfl hnew hok hdiff happ
  rw [happ, hid] at hres
  rw [hid] at hext
  exact ⟨congrArg Submission.result hres, hext⟩

/-- So does the node, and nothing waits for it. -/
theorem canonical_confirming : Canonical smallCrates smallGenesis
    (smallNode.acceptAndBroadcast smallCrates confirming).1.chain.state 1 (nonceId 0)
    [(nonceId 0, confirming), (smallGenesis.genesisHash smallCrates, smallGenesis.genesisBlock)] := by
  obtain ⟨hres, hcan⟩ := submit_confirming
  have hnode : smallNode.chain = smallOpen := rfl
  rw [← hnode] at hres
  obtain ⟨horphans, hwake⟩ := Node.retry_accepted hres
  have hidle : (smallNode.retry smallCrates confirming).1.orphans.waiting (nonceId 0) = [] := by
    rw [horphans]
    rfl
  have hcore := core_retry (K := smallCrates) smallNode confirming
  rw [accept_of_idle hwake hidle]
  exact hcan.congr (core_blocks hcore) (core_heights hcore) (core_tip hcore)

/-- The genesis block has no transactions, so a block on it meets no obstacle. -/
theorem cleanInput_on_genesis (h : NodeInv smallCrates smallGenesis node)
    (hcore : node.chain.state.core = smallOpen.state.core) (hidle : node.orphans = ∅)
    (i : NodeInput) : CleanInput smallCrates smallGenesis node i := by
  have hcan := canonical_smallOpen.1.congr (core_blocks hcore) (core_heights hcore)
    (core_tip hcore)
  refine ⟨fun tx _ _ hconf => ?_, fun b _ call hcall => ?_⟩
  · rw [confirmed_iff h.chain.stored hcan] at hconf
    exact absurd hconf List.not_mem_nil
  · rw [calls_of_no_orphans hidle, List.mem_singleton] at hcall
    subst hcall
    refine ⟨fun lp htakes tx htx hpending => ?_, fun n t l hcan' tx htx => ?_⟩
    · obtain ⟨a, p, s, hpl, -⟩ := htakes.placement hcan
      obtain ⟨q, hq, htx⟩ := List.mem_flatMap.mp htx
      have hget := hpl.parent.mem_get hq
      rw [core_blocks hcore] at hget
      by_cases hgen : q.1 = smallGenesis.genesisHash smallCrates
      · have hself := canonical_smallOpen.1.branch.mem_get List.mem_cons_self
        rw [hgen, hself] at hget
        rw [← Option.some.inj hget] at htx
        exact absurd htx List.not_mem_nil
      · rw [canonical_smallOpen.2 _ hgen] at hget
        cases hget
    · obtain ⟨-, -, rfl⟩ := hcan'.unique hcan
      exact absurd htx List.not_mem_nil

/-- The small node once the transaction was mined and handed in again. -/
def repeatedNode : Node :=
  (nodeMachine smallCrates smallGenesis).run smallNode [.submitBlock confirming, .submitTx firstTx]

/-- A transaction that is handed in again after it was mined stays pending. -/
theorem mempool_confirmed_again :
    (nodeMachine smallCrates smallGenesis).Reachable repeatedNode ∧
    firstTx ∈ repeatedNode.chain.state.mempool.map Prod.snd ∧
    Confirmed smallCrates repeatedNode.chain.state (firstTx.hash smallCrates) := by
  have hsigned : firstTx.isSignatureValid smallCrates = true := by decide
  have hnode : repeatedNode = (smallNode.acceptAndBroadcast smallCrates confirming).1.addTransaction
      smallCrates firstTx := by
    have hrun : repeatedNode
        = ((smallNode.submitBlock smallCrates confirming).1.submitTx smallCrates firstTx).1 := rfl
    rw [hrun, submitTx_fst hsigned, submitBlock_fst]
  have hreach : (nodeMachine smallCrates smallGenesis).Reachable repeatedNode :=
    Machine.Reachable.run (.init init_smallNode) _
  refine ⟨hreach, ?_, ?_⟩
  · rw [hnode, mempool_addTransaction]
    exact List.mem_map_of_mem (Mempool.mem_insert_self _ firstTx _)
  · have hcan : Canonical smallCrates smallGenesis repeatedNode.chain.state 1 (nonceId 0)
        [(nonceId 0, confirming),
          (smallGenesis.genesisHash smallCrates, smallGenesis.genesisBlock)] := by
      rw [hnode]
      exact canonical_confirming.congr rfl rfl rfl
    rw [confirmed_iff (nodeInv hreach).chain.stored hcan]
    exact List.mem_map_of_mem List.mem_cons_self

/-- The transaction is handed in, and then mined. -/
def minedNode : Node :=
  (nodeMachine smallCrates smallGenesis).run smallNode [.submitTx firstTx, .submitBlock confirming]

theorem mempool_unconfirmed_small :
    (nodeMachine smallCrates smallGenesis).Reach (CleanInput smallCrates smallGenesis) minedNode ∧
    ∀ tx ∈ minedNode.chain.state.mempool.map Prod.snd,
      ¬ Confirmed smallCrates minedNode.chain.state (tx.hash smallCrates) := by
  have hsigned : firstTx.isSignatureValid smallCrates = true := by decide
  have hstep : (nodeMachine smallCrates smallGenesis).step smallNode (.submitTx firstTx)
      = smallNode.addTransaction smallCrates firstTx := submitTx_fst hsigned _
  have hstart := nodeInv (.init init_smallNode)
  have hfirst : (nodeMachine smallCrates smallGenesis).Reach (CleanInput smallCrates smallGenesis)
      ((nodeMachine smallCrates smallGenesis).step smallNode (.submitTx firstTx)) :=
    .step _ (.init init_smallNode) (cleanInput_on_genesis hstart rfl rfl _)
  have hclean : CleanInput smallCrates smallGenesis
      ((nodeMachine smallCrates smallGenesis).step smallNode (.submitTx firstTx))
      (.submitBlock confirming) := by
    have hnode := nodeInv hfirst.reachable
    rw [hstep] at hnode ⊢
    exact cleanInput_on_genesis hnode rfl rfl _
  have hreach : (nodeMachine smallCrates smallGenesis).Reach
      (CleanInput smallCrates smallGenesis) minedNode := .step _ hfirst hclean
  exact ⟨hreach, mempool_unconfirmed hreach⟩

end Ondris
