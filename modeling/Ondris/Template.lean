import Ondris.NodeRuns
import Ondris.Pending

/-!
# Work templates

`get_work` hands out the whole mempool in the order of the transaction hashes. What
entered the mempool was checked for its signature only, and the apply loop asks for
more when the block comes back.

Results:
1. `getWork_onTip`: what a template consists of.
2. `submitBlock_accepted_iff`: a well-formed block on the tip is accepted exactly if
   it is unknown, has any work, and its transactions are executable.
3. `minable_iff`: while the tip stays, a template can be mined exactly if the
   mempool in hash order was executable; `not_minable_reversed`: two transactions
   in sequence, which their hashes put in the wrong order.
-/

namespace Ondris

/-! ## Definitions -/

/-- The dataset a miner generates for a template. -/
def WorkTemplate.dataset (K : Crates) (template : WorkTemplate) : Dataset :=
  Dataset.generate K template.epoch (epochSeed K template.epochBoundaryHash)

/-- The hash a miner computes for a nonce. -/
def WorkTemplate.hash (K : Crates) (template : WorkTemplate) (nonce : UInt64) : Hash256 :=
  ondrisHash K template.block.header.bytesForPow nonce (template.dataset K)

/-- The nonce is one that a miner stops at. -/
def WorkTemplate.Solved (K : Crates) (template : WorkTemplate) (nonce : UInt64) : Prop :=
  meetsTarget (template.hash K nonce) template.target = true

/-- The template can be mined for the node: the apply loop accepts its transactions
on the accounts of the tip, and with every solution it is accepted. -/
structure Minable (K : Crates) (node : Node) (template : WorkTemplate) : Prop where
  applies : ∀ hash, ∃ overlay, applyTxs K node.chain.state hash template.block.header.height ∅
    template.block.transactions.val = .ok overlay
  accepted : ∀ nonce, template.Solved K nonce → ∃ hash height reorged requeue,
    (node.acceptAndBroadcast K (template.block.withNonce nonce)).2
      = .ok (.accepted hash height reorged requeue)

/-- The template belongs to the tip `t` of height `n`, whose branch is `l`, and
carries the transactions `txs`. -/
structure OnTip (K : Crates) (g : GenesisConfig) (n : UInt64) (t : Hash256) (l : BlockChain)
    (txs : List Transaction) (template : WorkTemplate) : Prop where
  low : n.toNat + 1 < epochLength.toNat
  height : template.block.header.height = n + 1
  prevHash : template.block.header.prevHash = t
  txRoot : template.block.header.txRoot = template.block.computeTxRoot K
  difficulty : template.block.header.difficulty = retarget g (l.map Prod.snd)
  transactions : template.block.transactions.val = txs
  target : template.target = targetForDifficulty template.block.header.difficulty
  dataset : template.dataset K = epochZeroDataset K

variable {K : Crates} {g : GenesisConfig} {c : Chain} {node : Node}

/-! ## Templates -/

theorem getWork_eq (h : NodeInv K g node) {n : UInt64} {t : Hash256} {l : BlockChain}
    (hcan : Canonical K g node.chain.state n t l) (hlow : n.toNat + 1 < epochLength.toNat)
    {text : Bytes} {miner : Address} (haddr : Address.fromStr text = .ok miner) {pending : TxVec}
    (hpending : node.chain.state.mempoolAll = some pending) (now : UInt64) :
    (node.getWork K text now).2 = .ok
      { block :=
          ⟨{ height := n + 1, prevHash := t
             txRoot := merkleRoot K (pending.val.map (·.hash K)), timestamp := now
             difficulty := retarget g (l.map Prod.snd), miner, nonce := 0 }, pending⟩
        target := targetForDifficulty (retarget g (l.map Prod.snd))
        epoch := 0
        epochBoundaryHash := none } := by
  have hepoch : epochOf (n + 1) = 0 := by
    have hnext := hcan.next_toNat h.chain.stored
    have hheight := hcan.height
    rw [epochOf, ← UInt64.toNat_inj, UInt64.toNat_div, Nat.div_eq_of_lt (by omega)]
    rfl
  unfold Node.getWork
  simp only [haddr, hpending, workTemplate_eq h.chain hcan hlow, hepoch, if_pos]

theorem mempoolAll_val {st : ChainState} {pending : TxVec} (h : st.mempoolAll = some pending) :
    pending.val = st.mempool.map Prod.snd := by
  unfold ChainState.mempoolAll at h
  simp only at h
  split at h
  · rw [← Option.some.inj h]
  · cases h

/-- There are no templates beyond epoch 0. -/
theorem getWork_onTip (h : NodeInv K g node) {n : UInt64} {t : Hash256} {l : BlockChain}
    (hcan : Canonical K g node.chain.state n t l) {text : Bytes} {now : UInt64}
    {template : WorkTemplate} (hwork : (node.getWork K text now).2 = .ok template) :
    OnTip K g n t l (node.chain.state.mempool.map Prod.snd) template := by
  cases haddr : Address.fromStr text with
  | error e =>
    rw [Node.getWork, haddr] at hwork
    cases hwork
  | ok miner =>
    cases hpending : node.chain.state.mempoolAll with
    | none =>
      rw [Node.getWork, haddr] at hwork
      simp only [hpending] at hwork
      cases hwork
    | some pending =>
      rcases Nat.lt_or_ge (n.toNat + 1) epochLength.toNat with hlow | hhigh
      · rw [getWork_eq h hcan hlow haddr hpending now] at hwork
        obtain rfl := (Except.ok.inj hwork).symm
        exact ⟨hlow, rfl, rfl, rfl, rfl, mempoolAll_val hpending, rfl, rfl⟩
      · have hnext := hcan.next_toNat h.chain.stored
        have hheight := hcan.height
        rw [Node.getWork, haddr] at hwork
        simp only [hpending, Chain.workTemplate, hcan.tip,
          datasetForHeight_high h.chain (show epochLength.toNat ≤ (n + 1).toNat by omega)] at hwork
        cases hwork

/-- The difficulty is at least 1 unless the first window starts at 0. -/
theorem one_le_retarget_iff {branch : List Block} :
    1 ≤ retarget g branch ↔ (branch.length ≤ g.window.toNat → 1 ≤ g.initialDifficulty) := by
  rcases Nat.lt_or_ge g.window.toNat branch.length with hlong | hshort
  · refine ⟨fun _ hle => absurd hlong (Nat.not_lt.mpr hle), fun _ => ?_⟩
    obtain ⟨parent, rest, rfl⟩ := List.exists_cons_of_length_pos (Nat.zero_lt_of_lt hlong)
    rw [retarget, List.head?_cons, List.getElem?_eq_getElem hlong]
    exact one_le_nextDifficulty _ _ _ _
  · rw [retarget_of_le hshort]
    exact ⟨fun h _ => h, fun h => h hshort⟩

/-! ## Blocks on the tip -/

theorem acceptAndBroadcast_snd (node : Node) (b : Block) :
    (node.acceptAndBroadcast K b).2 = (node.chain.submitBlock K b).result := by
  unfold Node.acceptAndBroadcast
  cases (node.chain.submitBlock K b).result with
  | error e => rfl
  | ok outcome =>
    cases outcome with
    | accepted hash height reorged requeue => rfl
    | sideBranch hash height => rfl
    | alreadyKnown => rfl
    | orphan missingParent => rfl

/-- The reward is paid in any case. -/
theorem applyBlock_ok_iff {st : ChainState} {overlay : Overlay} {hash : Hash256} {b : Block} :
    (∃ overlay', applyBlock K g st overlay hash b = .ok overlay') ↔
      ∃ overlay', applyTxs K st hash b.header.height overlay b.transactions.val = .ok overlay' := by
  unfold applyBlock
  cases applyTxs K st hash b.header.height overlay b.transactions.val with
  | error e =>
    constructor
    · rintro ⟨overlay', h⟩
      cases h
    · rintro ⟨overlay', h⟩
      cases h
  | ok next => exact ⟨fun _ => ⟨next, rfl⟩, fun _ => ⟨_, rfl⟩⟩

/-- When a well-formed block on the tip is accepted. -/
theorem submitBlock_accepted_iff (hc : ChainInv K g c) {n : UInt64} {t : Hash256}
    {l : BlockChain} (hcan : Canonical K g c.state n t l) {b : Block} (hprev : b.header.prevHash = t)
    (hok : BlockOk K g (l.map Prod.snd) (blockId K b) b) :
    (∃ hash height reorged requeue,
        (c.submitBlock K b).result = .ok (.accepted hash height reorged requeue)) ↔
      c.state.blocks (blockId K b) = none ∧ 1 ≤ b.header.difficulty ∧
        Executable K c.state.getAccount b.transactions.val := by
  have hexec : Executable K c.state.getAccount b.transactions.val ↔
      ∃ overlay, applyBlock K g c.state ∅ (blockId K b) b = .ok overlay := by
    rw [applyBlock_ok_iff, applyTxs_ok_iff]
    rfl
  have hzero : b.header.height ≠ 0 :=
    hok.height_ne_zero (List.length_pos_iff.mp hcan.branch.length_pos)
  cases hknown : c.state.blocks (blockId K b) with
  | some x =>
    -- a block that is stored is never accepted again
    have hres := submitBlock_known hc hzero hok.low (by rw [hknown]; rfl)
    rw [hres]
    constructor
    · rintro ⟨hash, height, reorged, requeue, h⟩
      cases h
    · rintro ⟨h, -⟩
      cases h
  | none =>
    rw [hexec]
    by_cases hdiff : 1 ≤ b.header.difficulty
    · rw [submitBlock_extension hc hcan hprev hknown hok hdiff]
      cases happ : applyBlock K g c.state ∅ (blockId K b) b with
      | error e =>
        constructor
        · rintro ⟨hash, height, reorged, requeue, h⟩
          cases h
        · rintro ⟨-, -, overlay, h⟩
          cases h
      | ok overlay => exact ⟨fun _ => ⟨rfl, hdiff, overlay, rfl⟩, fun _ => ⟨_, _, _, _, rfl⟩⟩
    · -- without work of its own the branch does not outweigh the tip
      have hnone : ¬ branchWork l < branchWork ((blockId K b, b) :: l) := by
        have hwork : b.header.difficulty.toNat = 0 := by
          rw [UInt64.le_iff_toNat_le] at hdiff
          exact Nat.lt_one_iff.mp (Nat.not_le.mp hdiff)
        rw [branchWork_cons, blockWork, hwork, Nat.zero_add]
        exact Nat.lt_irrefl _
      rw [submitBlock_storable hc hcan (Placement.of_tip hcan hprev hknown hok), storeOutcome,
        if_neg hnone]
      constructor
      · rintro ⟨hash, height, reorged, requeue, h⟩
        cases h
      · rintro ⟨-, h, -⟩
        exact absurd h hdiff

namespace OnTip

variable {n : UInt64} {t : Hash256} {l : BlockChain} {txs : List Transaction}
  {template : WorkTemplate}

theorem hash_eq (h : OnTip K g n t l txs template) (nonce : UInt64) :
    template.hash K nonce = blockId K (template.block.withNonce nonce) := by
  rw [WorkTemplate.hash, h.dataset]
  rfl

/-- A solution completes the template to a well-formed block. -/
theorem blockOk (h : OnTip K g n t l txs template) (hs : WellStored K g c.state)
    (hcan : Canonical K g c.state n t l)
    (hsigned : ∀ tx ∈ txs, tx.isSignatureValid K = true) {nonce : UInt64}
    (hsolved : template.Solved K nonce) :
    BlockOk K g (l.map Prod.snd) (blockId K (template.block.withNonce nonce))
      (template.block.withNonce nonce) := by
  refine BlockOk.of_template hs hcan h.low h.height h.difficulty h.txRoot ?_ ?_
  · intro tx htx
    refine hsigned tx ?_
    rw [← h.transactions]
    exact htx
  · rw [WorkTemplate.Solved, h.hash_eq, h.target] at hsolved
    exact hsolved

/-- When a solution is accepted. -/
theorem accepted_iff (h : OnTip K g n t l txs template) (hc : ChainInv K g node.chain)
    (hcan : Canonical K g node.chain.state n t l)
    (hsigned : ∀ tx ∈ txs, tx.isSignatureValid K = true) {nonce : UInt64}
    (hsolved : template.Solved K nonce) :
    (∃ hash height reorged requeue, (node.acceptAndBroadcast K (template.block.withNonce nonce)).2
        = .ok (.accepted hash height reorged requeue)) ↔
      node.chain.state.blocks (template.hash K nonce) = none ∧
        (n.toNat + 1 ≤ g.window.toNat → 1 ≤ g.initialDifficulty) ∧
        Executable K node.chain.state.getAccount txs := by
  have hprev : (template.block.withNonce nonce).header.prevHash = t := h.prevHash
  have hdiff : (template.block.withNonce nonce).header.difficulty = retarget g (l.map Prod.snd) :=
    h.difficulty
  have htxs : (template.block.withNonce nonce).transactions.val = txs := h.transactions
  rw [acceptAndBroadcast_snd,
    submitBlock_accepted_iff hc hcan hprev (h.blockOk hc.stored hcan hsigned hsolved), ← h.hash_eq,
    hdiff, htxs, one_le_retarget_iff, List.length_map, ← hcan.height]

/-- A solution that the apply loop does not pass is rejected, and its work is lost. -/
theorem rejected (h : OnTip K g n t l txs template) (hc : ChainInv K g node.chain)
    (hcan : Canonical K g node.chain.state n t l)
    (hsigned : ∀ tx ∈ txs, tx.isSignatureValid K = true) {nonce : UInt64}
    (hsolved : template.Solved K nonce)
    (hnew : node.chain.state.blocks (template.hash K nonce) = none)
    (hdiff : 1 ≤ retarget g (l.map Prod.snd))
    (hexec : ¬ Executable K node.chain.state.getAccount txs) :
    ∃ e, (node.acceptAndBroadcast K (template.block.withNonce nonce)).2 = .error e := by
  have hprev : (template.block.withNonce nonce).header.prevHash = t := h.prevHash
  have hdiff' : 1 ≤ (template.block.withNonce nonce).header.difficulty := by
    rw [← h.difficulty] at hdiff
    exact hdiff
  have htxs : (template.block.withNonce nonce).transactions.val = txs := h.transactions
  rw [h.hash_eq] at hnew
  rw [acceptAndBroadcast_snd, submitBlock_extension hc hcan hprev hnew
    (h.blockOk hc.stored hcan hsigned hsolved) hdiff']
  cases happ : applyBlock K g node.chain.state ∅ (blockId K (template.block.withNonce nonce))
      (template.block.withNonce nonce) with
  | error e => exact ⟨e, rfl⟩
  | ok overlay =>
    have hpass := applyTxs_ok_iff.mp (applyBlock_ok_iff.mp ⟨overlay, happ⟩)
    rw [htxs] at hpass
    exact absurd hpass hexec

end OnTip

/-! ## Minable templates -/

/-- What the template of a node needs while the tip stays. -/
theorem minable_iff_onTip {m : Node} (h : NodeInv K g node)
    (hlater : Advances K g node m) {n : UInt64} {t : Hash256} {l : BlockChain}
    (hcan : Canonical K g node.chain.state n t l) (htip : m.chain.state.tip = node.chain.state.tip)
    {template : WorkTemplate}
    (hon : OnTip K g n t l (node.chain.state.mempool.map Prod.snd) template) :
    Minable K m template ↔
      Executable K node.chain.state.getAccount (node.chain.state.mempool.map Prod.snd) ∧
        ∀ nonce, template.Solved K nonce → m.chain.state.blocks (template.hash K nonce) = none ∧
          (n.toNat + 1 ≤ g.window.toNat → 1 ≤ g.initialDifficulty) := by
  -- under the same tip the later store has the same branch and the same accounts
  obtain ⟨hcan', haccount⟩ := hlater.same_tip hcan (htip.trans hcan.tip)
  have happly : ∀ hash, (∃ overlay, applyTxs K m.chain.state hash template.block.header.height ∅
      template.block.transactions.val = .ok overlay) ↔
        Executable K node.chain.state.getAccount (node.chain.state.mempool.map Prod.snd) := by
    intro hash
    rw [applyTxs_ok_iff, hon.transactions, ← haccount]
    rfl
  have haccepted := fun nonce (hsolved : template.Solved K nonce) =>
    hon.accepted_iff hlater.inv.chain hcan' h.pending_signed hsolved
  rw [haccount] at haccepted
  constructor
  · intro hmin
    refine ⟨(happly t).mp (hmin.applies t), fun nonce hsolved => ?_⟩
    obtain ⟨hnew, hdiff, -⟩ := (haccepted nonce hsolved).mp (hmin.accepted nonce hsolved)
    exact ⟨hnew, hdiff⟩
  · rintro ⟨hexec, hfresh⟩
    refine ⟨fun hash => (happly hash).mpr hexec, fun nonce hsolved => ?_⟩
    obtain ⟨hnew, hdiff⟩ := hfresh nonce hsolved
    exact (haccepted nonce hsolved).mpr ⟨hnew, hdiff, hexec⟩

/-- **A template can be mined exactly if the mempool, in hash order, can be applied to
the accounts of the tip**, and no solution is a block that is known or without work.
The node may do anything in the meantime, as long as the tip is the same at the end. -/
theorem minable_iff (hnode : (nodeMachine K g).Reachable node) {text : Bytes} {now : UInt64}
    {template : WorkTemplate} (hwork : (node.getWork K text now).2 = .ok template)
    (is : List NodeInput) {m : Node}
    (hm : m = (nodeMachine K g).run node (.getWork text now :: is)) {n : UInt64} {t : Hash256}
    (htip : node.chain.state.tip = some (n, t)) (htip' : m.chain.state.tip = some (n, t)) :
    Minable K m template ↔
      Executable K node.chain.state.getAccount (node.chain.state.mempool.map Prod.snd) ∧
        ∀ nonce, template.Solved K nonce → m.chain.state.blocks (template.hash K nonce) = none ∧
          (n.toNat + 1 ≤ g.window.toNat → 1 ≤ g.initialDifficulty) := by
  have hinv := nodeInv hnode
  obtain ⟨n', t', l, hcan⟩ := hinv.chain.canonical
  obtain ⟨rfl, rfl⟩ := Prod.mk.inj (Option.some.inj (hcan.tip.symm.trans htip))
  have hadv := advances_run hinv (.getWork text now :: is)
  rw [← hm] at hadv
  exact minable_iff_onTip hinv hadv hcan (htip'.trans htip.symm) (getWork_onTip hinv hcan hwork)

/-! ## Two transactions of one sender -/

theorem init_smallNode : (nodeMachine smallCrates smallGenesis).init smallNode :=
  ⟨smallOpen, init_small, rfl⟩

/-- The text of the address that mines. -/
def minerText : Bytes := premineAddress.display

/-- The template of a node on the small genesis with the pending transactions. -/
def smallTemplate (pending : TxVec) : WorkTemplate where
  block :=
    ⟨{ height := 1, prevHash := smallGenesis.genesisHash smallCrates
       txRoot := merkleRoot smallCrates (pending.val.map (·.hash smallCrates)), timestamp := 0
       difficulty := 1, miner := premineAddress, nonce := 0 }, pending⟩
  target := targetForDifficulty 1
  epoch := 0
  epochBoundaryHash := none

theorem getWork_small (h : NodeInv smallCrates smallGenesis node)
    (hcore : node.chain.state.core = smallOpen.state.core) {pending : TxVec}
    (hpending : node.chain.state.mempoolAll = some pending) :
    (node.getWork smallCrates minerText 0).2 = .ok (smallTemplate pending) := by
  have hcan := canonical_smallOpen.1.congr (core_blocks hcore) (core_heights hcore)
    (core_tip hcore)
  exact getWork_eq h hcan (by decide) (Address.fromStr_display premineAddress) hpending 0

theorem hash_smallTemplate (pending : TxVec) (nonce : UInt64) :
    (smallTemplate pending).hash smallCrates nonce = nonceId nonce :=
  id_small { (smallTemplate pending).block.header with nonce } _

theorem mempool_addTransaction (node : Node) (tx : Transaction) :
    (node.addTransaction K tx).chain.state.mempool
      = node.chain.state.mempool.insert (tx.hash K) tx := rfl

theorem core_step_submitTx {tx : Transaction} (h : tx.isSignatureValid K = true) (node : Node) :
    ((nodeMachine K g).step node (.submitTx tx)).chain.state.core = node.chain.state.core :=
  congrArg (·.chain.state.core) (submitTx_fst h node)

theorem core_step_getWork (node : Node) (text : Bytes) (now : UInt64) :
    ((nodeMachine K g).step node (.getWork text now)).chain.state.core = node.chain.state.core :=
  congrArg ChainState.core (getWork_state node text now)

theorem mempoolAll_eq {st : ChainState} {pending : TxVec}
    (h : st.mempool.map Prod.snd = pending.val) : st.mempoolAll = some pending := by
  obtain ⟨txs, hlt⟩ := pending
  simp only at h
  subst h
  exact dif_pos hlt

theorem getAccount_of_core {st st' : ChainState} (h : st'.core = st.core) :
    st'.getAccount = st.getAccount := by
  funext addr
  rw [ChainState.getAccount, ChainState.getAccount, core_accounts h]

/-- A transaction of the sample sender that moves nothing. -/
def freeTx (nonce : UInt64) : Transaction := { sampleTx nonce with amount := 0 }

/-- The first of two transactions of one sender. -/
def firstTx : Transaction := { freeTx 0 with toAddr := ⟨List.Vector.replicate 20 255⟩ }

/-- The second. -/
def secondTx : Transaction := freeTx 1

/-- The small node once two transactions were submitted in sequence. -/
def pairNode (tx tx' : Transaction) : Node :=
  (nodeMachine smallCrates smallGenesis).run smallNode [.submitTx tx, .submitTx tx']

theorem reachable_pairNode (tx tx' : Transaction) :
    (nodeMachine smallCrates smallGenesis).Reachable (pairNode tx tx') :=
  Machine.Reachable.run (.init init_smallNode) _

section Pair

variable {tx tx' : Transaction} (h : tx.isSignatureValid smallCrates = true)
  (h' : tx'.isSignatureValid smallCrates = true)

include h h'

theorem pairNode_eq : pairNode tx tx'
    = (smallNode.addTransaction smallCrates tx).addTransaction smallCrates tx' := by
  have hrun : pairNode tx tx'
      = ((smallNode.submitTx smallCrates tx).1.submitTx smallCrates tx').1 := rfl
  rw [hrun, submitTx_fst h, submitTx_fst h']

theorem core_pairNode : (pairNode tx tx').chain.state.core = smallOpen.state.core := by
  rw [pairNode, Machine.run_cons, Machine.run_cons, Machine.run_nil, core_step_submitTx h',
    core_step_submitTx h]
  rfl

/-- The mempool lists them by their hashes. -/
theorem mempool_pairNode (hne : tx'.hash smallCrates ≠ tx.hash smallCrates) :
    (pairNode tx tx').chain.state.mempool.map Prod.snd
      = if (tx'.hash smallCrates).asBytes < (tx.hash smallCrates).asBytes then [tx', tx]
        else [tx, tx'] := by
  have hempty : smallNode.chain.state.mempool = [] := rfl
  rw [pairNode_eq h h', mempool_addTransaction, mempool_addTransaction, hempty, Mempool.insert,
    Mempool.insert, if_neg hne]
  split
  · rfl
  · rfl

end Pair

/-! ## A mempool in the right order -/

/-- The hashes keep these two in sequence. -/
def orderedNode : Node := pairNode (freeTx 0) (freeTx 1)

def orderedTxs : TxVec := ⟨[freeTx 0, freeTx 1], by decide⟩

theorem core_orderedNode : orderedNode.chain.state.core = smallOpen.state.core :=
  core_pairNode (by decide) (by decide)

theorem mempool_orderedNode :
    orderedNode.chain.state.mempool.map Prod.snd = [freeTx 0, freeTx 1] := by
  rw [orderedNode, mempool_pairNode (by decide) (by decide) (by decide +kernel), if_neg]
  decide +kernel

theorem executable_orderedNode : Executable smallCrates orderedNode.chain.state.getAccount
    (orderedNode.chain.state.mempool.map Prod.snd) := by
  rw [getAccount_of_core core_orderedNode, mempool_orderedNode]
  decide +kernel

theorem getWork_orderedNode :
    (orderedNode.getWork smallCrates minerText 0).2 = .ok (smallTemplate orderedTxs) := by
  have hpending : orderedNode.chain.state.mempoolAll = some orderedTxs :=
    mempoolAll_eq mempool_orderedNode
  exact getWork_small (nodeInv (reachable_pairNode _ _)) core_orderedNode hpending

/-- The node once it has handed out its template and got another transaction. -/
def laterNode : Node :=
  (nodeMachine smallCrates smallGenesis).run orderedNode
    [.getWork minerText 0, .submitTx (freeTx 2)]

theorem core_laterNode : laterNode.chain.state.core = smallOpen.state.core := by
  rw [laterNode, Machine.run_cons, Machine.run_cons, Machine.run_nil,
    core_step_submitTx (by decide), core_step_getWork, core_orderedNode]

theorem tip_of_core_small (hcore : node.chain.state.core = smallOpen.state.core) :
    node.chain.state.tip = some (0, smallGenesis.genesisHash smallCrates) :=
  (core_tip hcore).trans canonical_smallOpen.1.tip

/-- No solution of a template is known. -/
theorem blocks_laterNode (pending : TxVec) (nonce : UInt64) :
    laterNode.chain.state.blocks ((smallTemplate pending).hash smallCrates nonce) = none := by
  rw [core_blocks core_laterNode, hash_smallTemplate]
  exact canonical_smallOpen.2 _ (nonceId_ne_genesisHash nonce)

theorem minable_ordered :
    (orderedNode.getWork smallCrates minerText 0).2 = .ok (smallTemplate orderedTxs) ∧
      Minable smallCrates laterNode (smallTemplate orderedTxs) :=
  ⟨getWork_orderedNode, (minable_iff (m := laterNode) (reachable_pairNode _ _) getWork_orderedNode
    [.submitTx (freeTx 2)] rfl (tip_of_core_small core_orderedNode)
    (tip_of_core_small core_laterNode)).mpr
      ⟨executable_orderedNode, fun nonce _ => ⟨blocks_laterNode _ nonce, fun _ => UInt64.le_refl 1⟩⟩⟩

/-! ## A mempool in the wrong order -/

/-- The hashes turn these two round. -/
def reversedNode : Node := pairNode firstTx secondTx

theorem core_reversedNode : reversedNode.chain.state.core = smallOpen.state.core :=
  core_pairNode (by decide) (by decide)

theorem mempool_reversedNode :
    reversedNode.chain.state.mempool.map Prod.snd = [secondTx, firstTx] := by
  rw [reversedNode, mempool_pairNode (by decide) (by decide) (by decide +kernel), if_pos]
  decide +kernel

/-- The accounts of the small genesis allow the two transactions in sequence, but not
the other way round. -/
theorem executable_inSequence :
    Executable smallCrates smallOpen.state.getAccount [firstTx, secondTx] ∧
      ¬ Executable smallCrates smallOpen.state.getAccount [secondTx, firstTx] := by
  decide +kernel

/-- Two transactions are submitted in sequence. The template reverses them, so its
transactions do not pass the apply loop, and its solution is rejected. -/
theorem not_minable_reversed :
    (nodeMachine smallCrates smallGenesis).Reachable reversedNode ∧
    Executable smallCrates reversedNode.chain.state.getAccount [firstTx, secondTx] ∧
    ∃ template, (reversedNode.getWork smallCrates minerText 0).2 = .ok template ∧
      template.Solved smallCrates 0 ∧
      (∃ e, ((reversedNode.getWork smallCrates minerText 0).1.acceptAndBroadcast smallCrates
        (template.block.withNonce 0)).2 = .error e) ∧
      ¬ Minable smallCrates (reversedNode.getWork smallCrates minerText 0).1 template := by
  have hreach : (nodeMachine smallCrates smallGenesis).Reachable reversedNode :=
    reachable_pairNode _ _
  have hinv := nodeInv hreach
  obtain ⟨hcan₀, honly⟩ := canonical_smallOpen
  have hcan := hcan₀.congr (core_blocks core_reversedNode) (core_heights core_reversedNode)
    (core_tip core_reversedNode)
  have hmap := mempool_reversedNode
  let pending : TxVec := ⟨[secondTx, firstTx], by decide⟩
  have hpending : reversedNode.chain.state.mempoolAll = some pending := by
    simp only [ChainState.mempoolAll, hmap]
    rfl
  have hwork := getWork_small hinv core_reversedNode hpending
  have hon := getWork_onTip hinv hcan hwork
  have hsigned := hinv.pending_signed
  rw [hmap] at hon hsigned
  -- asking for work leaves the store alone
  have hadv := Advances.of_idle hinv (.getWork hinv minerText 0)
  have hstate := getWork_state (K := smallCrates) reversedNode minerText 0
  generalize (reversedNode.getWork smallCrates minerText 0).1 = m at hadv hstate ⊢
  rw [← hstate] at hcan
  have hnot : ¬ Executable smallCrates m.chain.state.getAccount [secondTx, firstTx] := by
    rw [hstate, getAccount_of_core core_reversedNode]
    exact executable_inSequence.2
  have hsolved : (smallTemplate pending).Solved smallCrates 0 := by
    rw [WorkTemplate.Solved, hash_smallTemplate]
    exact meetsTarget_nonceId 0
  have hnew : m.chain.state.blocks ((smallTemplate pending).hash smallCrates 0) = none := by
    rw [hstate, core_blocks core_reversedNode, hash_smallTemplate]
    exact honly _ (nonceId_ne_genesisHash _)
  refine ⟨hreach, ?_, _, hwork, hsolved, ?_, fun hmin => hnot ?_⟩
  · rw [getAccount_of_core core_reversedNode]
    exact executable_inSequence.1
  · exact hon.rejected hadv.inv.chain hcan hsigned hsolved hnew (UInt64.le_refl 1) hnot
  · exact applyTxs_ok_iff.mp (hmin.applies Hash256.zero)

end Ondris
