import Ondris.Delivery

/-!
# Runs of a node

The node as a machine: network events and RPC calls one after another, the
periodic rebroadcast of the mempool, and restarts on the same data directory.

Results:
1. `nodeInv`: in every reachable state the invariant of the chain holds and every
   pending transaction is signed.
2. `advances_run`: the tip moves only to branches with more work; `Later.accounts`:
   a tip that is seen again was never left, and the accounts are the same.
-/

namespace Ondris

/-! ## Definitions -/

/-- `main` of the node, once the chain is open. -/
def Node.start (c : Chain) : Node where
  chain := c
  orphans := ∅
  height :=
    match c.state.tip with
    | some (height, _) => height
    | none => 0
  sent := []

/-- The process ends and is started again on its data directory. -/
def Node.restart (K : Crates) (g : GenesisConfig) (node : Node) : Node :=
  match Chain.openDb K g node.chain.state with
  | .ok c => .start c
  | .error _ => node

/-- The background task that passes on whatever is still pending. -/
def Node.rebroadcast (node : Node) : Node :=
  match node.chain.state.mempoolAll with
  | some pending =>
    { node with sent := node.sent ++ pending.val.map fun tx => .broadcast (.newTransaction tx) }
  | none => node

/-- What can happen to a node. -/
inductive NodeInput
  | event (event : NetworkEvent)
  | submitTx (tx : Transaction)
  | submitBlock (block : Block)
  | getWork (miner : Bytes) (now : UInt64)
  | rebroadcast
  | restart

/-- What it answers. -/
inductive NodeAnswer
  | silent
  | tx (result : Except NodeError Hash256)
  | block (result : Except NodeError SubmitBlockResponse)
  | work (result : Except NodeError WorkTemplate)

def nodeMachine (K : Crates) (g : GenesisConfig) : Machine Node NodeInput NodeAnswer where
  init node := ∃ c, Chain.openDb K g ChainState.empty = .ok c ∧ node = .start c
  step
    | node, .event event => node.handleEvent K event
    | node, .submitTx tx => (node.submitTx K tx).1
    | node, .submitBlock block => (node.submitBlock K block).1
    | node, .getWork miner now => (node.getWork K miner now).1
    | node, .rebroadcast => node.rebroadcast
    | node, .restart => node.restart K g
  out
    | _, .event _ => .silent
    | node, .submitTx tx => .tx (node.submitTx K tx).2
    | node, .submitBlock block => .block (node.submitBlock K block).2
    | node, .getWork miner now => .work (node.getWork K miner now).2
    | _, .rebroadcast => .silent
    | _, .restart => .silent

/-- The transaction that a peer or an RPC call hands in. -/
def NodeInput.handedIn : NodeInput → Option Transaction
  | .event (.newTransaction tx) => some tx
  | .submitTx tx => some tx
  | _ => none

/-- The block that a peer or an RPC call hands in. -/
def NodeInput.delivered : NodeInput → Option Block
  | .event e => e.delivered
  | .submitBlock b => some b
  | _ => none

/-- What holds of every reachable node. -/
structure NodeInv (K : Crates) (g : GenesisConfig) (node : Node) : Prop where
  chain : ChainInv K g node.chain
  signed : ∀ e ∈ node.chain.state.mempool, e.2.isSignatureValid K = true

/-- The store `st'` comes after `st`: stored branches stay, and either the tip and
the accounts are the same or the tip has more work. -/
structure Later (K : Crates) (g : GenesisConfig) (st st' : ChainState) : Prop where
  branches : ∀ h l, Branch K g st h l → Branch K g st' h l
  tip : (st'.tip = st.tip ∧ st'.accounts = st.accounts) ∨
    ∀ n t l n' t' l', Canonical K g st n t l → Canonical K g st' n' t' l' →
      branchWork l < branchWork l'

/-- A step that leads to a later store and keeps the invariant. -/
structure Advances (K : Crates) (g : GenesisConfig) (node node' : Node) : Prop where
  inv : NodeInv K g node'
  later : Later K g node.chain.state node'.chain.state

/-- A step that leaves the store alone. -/
structure Idle (K : Crates) (g : GenesisConfig) (node node' : Node) : Prop where
  genesis : node'.chain.genesis = g
  cache : node'.chain.datasetCache = none ∨ node'.chain.datasetCache = some (0, epochZeroDataset K)
  state : node'.chain.state = node.chain.state

variable {K : Crates} {g : GenesisConfig} {c : Chain} {node : Node} {st st' st'' : ChainState}

/-! ## Later stores -/

theorem Later.refl (st : ChainState) : Later K g st st := ⟨fun _ _ hl => hl, .inl ⟨rfl, rfl⟩⟩

/-- Under one tip the canonical chain is the same. -/
theorem Later.branch_eq (h : Later K g st st') (htip : st'.tip = st.tip) {n n' : UInt64}
    {t t' : Hash256} {l l' : BlockChain} (hcan : Canonical K g st n t l)
    (hcan' : Canonical K g st' n' t' l') : l' = l := by
  have heq : some (n', t') = some (n, t) := by rw [← hcan'.tip, htip, hcan.tip]
  obtain ⟨rfl, rfl⟩ := Prod.mk.inj (Option.some.inj heq)
  exact hcan'.branch.unique (h.branches _ _ hcan.branch)

/-- A tip that is seen again was never left. -/
theorem Later.accounts (h : Later K g st st') (htip : st'.tip = st.tip) {n n' : UInt64}
    {t t' : Hash256} {l l' : BlockChain} (hcan : Canonical K g st n t l)
    (hcan' : Canonical K g st' n' t' l') : st'.accounts = st.accounts := by
  rcases h.tip with ⟨-, hsame⟩ | hmore
  · exact hsame
  · have hlt := hmore _ _ _ _ _ _ hcan hcan'
    rw [h.branch_eq htip hcan hcan'] at hlt
    exact absurd hlt (Nat.lt_irrefl _)

theorem Later.trans (h : Later K g st st') {n : UInt64} {t : Hash256} {l : BlockChain}
    (hcan : Canonical K g st' n t l) (h' : Later K g st' st'') : Later K g st st'' := by
  refine ⟨fun k m hm => h'.branches k m (h.branches k m hm), ?_⟩
  rcases h.tip with ⟨htip, hacc⟩ | hmore <;> rcases h'.tip with ⟨htip', hacc'⟩ | hmore'
  · exact .inl ⟨htip'.trans htip, hacc'.trans hacc⟩
  · refine .inr fun n₀ t₀ l₀ n₂ t₂ l₂ hcan₀ hcan₂ => ?_
    rw [← h.branch_eq htip hcan₀ hcan]
    exact hmore' _ _ _ _ _ _ hcan hcan₂
  · refine .inr fun n₀ t₀ l₀ n₂ t₂ l₂ hcan₀ hcan₂ => ?_
    rw [h'.branch_eq htip' hcan hcan₂]
    exact hmore _ _ _ _ _ _ hcan₀ hcan
  · refine .inr fun n₀ t₀ l₀ n₂ t₂ l₂ hcan₀ hcan₂ => ?_
    exact Nat.lt_trans (hmore _ _ _ _ _ _ hcan₀ hcan) (hmore' _ _ _ _ _ _ hcan hcan₂)

theorem Later.congr (h : Later K g st st') (hcore : st''.core = st'.core) : Later K g st st'' := by
  simp only [ChainState.core, Prod.mk.injEq] at hcore
  obtain ⟨haccounts, hblocks, hheights, -, htip⟩ := hcore
  refine ⟨fun k m hm => ?_, ?_⟩
  · rw [Branch, hblocks]
    exact h.branches k m hm
  · rcases h.tip with ⟨hsame, hacc⟩ | hmore
    · exact .inl ⟨htip.trans hsame, haccounts.trans hacc⟩
    · exact .inr fun n t l n' t' l' hcan hcan' =>
        hmore _ _ _ _ _ _ hcan (hcan'.congr hblocks.symm hheights.symm htip.symm)

/-- A submission leads to a later store. -/
theorem Later.submit (hc : ChainInv K g c) (b : Block) :
    Later K g c.state (c.submit K b).state := by
  obtain ⟨n, t, lo, hcan⟩ := hc.canonical
  refine ⟨fun k m hm => hm.submit hc b, ?_⟩
  rcases submit_cases hc hcan b with ⟨-, hst⟩ | ⟨lp, a, p, s, hpl, ⟨-, hst⟩ | ⟨o, hwork, -, hst⟩⟩
  · rw [hst]
    exact .inl ⟨rfl, rfl⟩
  · rw [hst]
    exact .inl ⟨rfl, rfl⟩
  · rw [hst]
    refine .inr fun n₀ t₀ l₀ n₁ t₁ l₁ hcan₀ hcan₁ => ?_
    obtain ⟨-, -, rfl⟩ := hcan₀.unique hcan
    obtain ⟨-, -, rfl⟩ := hcan₁.unique (hpl.canonical hc.stored hcan o)
    exact hwork

/-! ## Pending transactions -/

theorem Mempool.mem_insert {hash : Hash256} {tx : Transaction} {pool : Mempool} {e : Hash256 × Transaction}
    (he : e ∈ pool.insert hash tx) : e = (hash, tx) ∨ e ∈ pool := by
  induction pool with
  | nil => exact .inl (List.mem_singleton.mp he)
  | cons x pool ih =>
    unfold Mempool.insert at he
    split at he
    · rcases List.mem_cons.mp he with rfl | he
      · exact .inl rfl
      · exact .inr (List.mem_cons_of_mem _ he)
    · split at he
      · rcases List.mem_cons.mp he with rfl | he
        · exact .inl rfl
        · exact .inr he
      · rcases List.mem_cons.mp he with rfl | he
        · exact .inr List.mem_cons_self
        · exact (ih he).imp_right (List.mem_cons_of_mem _)

/-- The mempool holds what was there before or a write has put in. -/
theorem mem_mempool_writes {ws : List Write} {e : Hash256 × Transaction}
    (he : e ∈ (st.writes ws).mempool) :
    e ∈ st.mempool ∨ Write.mempoolInsert e.1 e.2 ∈ ws := by
  induction ws generalizing st with
  | nil => exact .inl he
  | cons w ws ih =>
    rcases ih he with hold | hin
    · cases w with
      | mempoolInsert hash tx =>
        rcases Mempool.mem_insert hold with rfl | hold
        · exact .inr List.mem_cons_self
        · exact .inl hold
      | mempoolRemove hash => exact .inl (List.mem_filter.mp hold).1
      | setAccount addr account => exact .inl hold
      | storeBlock hash block => exact .inl hold
      | setCanonicalHeight height hash => exact .inl hold
      | removeCanonicalHeight height => exact .inl hold
      | setChainwork hash work => exact .inl hold
      | setTip height hash => exact .inl hold
    · exact .inr (List.mem_cons_of_mem _ hin)

/-- A submission does not touch the mempool. -/
theorem mempool_submit (hc : ChainInv K g c) (b : Block) :
    (c.submit K b).state.mempool = c.state.mempool := by
  obtain ⟨n, t, lo, hcan⟩ := hc.canonical
  rcases submit_cases hc hcan b with ⟨-, hst⟩ | ⟨lp, a, p, s, -, ⟨-, hst⟩ | ⟨o, -, -, hst⟩⟩
  · rw [hst]
  · rw [hst]
    rfl
  · rw [hst, (commit_frame _).2.2]
    rfl

/-- What an accepted block displaces was stored, so it is signed. -/
theorem requeue_signed (hc : ChainInv K g c) {b : Block} {hash : Hash256} {height : UInt64}
    {reorged : Bool} {requeue : List Transaction}
    (h : (c.submitBlock K b).result = .ok (.accepted hash height reorged requeue)) :
    ∀ tx ∈ requeue, tx.isSignatureValid K = true := by
  obtain ⟨n, t, lo, hcan⟩ := hc.canonical
  obtain ⟨lp, a, p, s, hpl, -, rfl⟩ := accepted_cases hc hcan h
  intro tx htx
  obtain ⟨q, hq, htx⟩ := List.mem_flatMap.mp htx
  refine hcan.branch.signed hc.stored ?_ (List.mem_filter.mp htx).1
  rw [hpl.fork.old]
  exact List.mem_append_left _ hq

/-- The mempool after a call holds what was there before and what the move displaced. -/
theorem mem_mempool_retry (hc : ChainInv K g node.chain) {b : Block} {e : Hash256 × Transaction}
    (he : e ∈ (node.retry K b).1.chain.state.mempool) :
    e ∈ node.chain.state.mempool ∨
      ∃ tx hash height reorged requeue,
        (node.chain.submitBlock K b).result = .ok (.accepted hash height reorged requeue) ∧
        tx ∈ requeue ∧ e = (tx.hash K, tx) := by
  by_cases hacc : ∃ hash height reorged requeue,
      (node.chain.submitBlock K b).result = .ok (.accepted hash height reorged requeue)
  · obtain ⟨hash, height, reorged, requeue, hres⟩ := hacc
    rw [state_retry_accepted hres] at he
    rcases mem_mempool_writes he with hold | hin
    · rw [mempool_submit hc] at hold
      exact .inl hold
    · -- only `requeue` is inserted
      simp only [Node.mempoolWrites, List.mem_append, List.mem_map, reduceCtorEq, and_false,
        exists_false, false_or, Write.mempoolInsert.injEq] at hin
      obtain ⟨tx, htx, hkey, heq⟩ := hin
      refine .inr ⟨tx, hash, height, reorged, requeue, hres, htx, ?_⟩
      rw [hkey, heq]
  · rw [state_retry_of_not_accepted fun hash height reorged requeue hres =>
      hacc ⟨hash, height, reorged, requeue, hres⟩, mempool_submit hc] at he
    exact .inl he

theorem NodeInv.pending_signed (h : NodeInv K g node) :
    ∀ tx ∈ node.chain.state.mempool.map Prod.snd, tx.isSignatureValid K = true := by
  intro tx htx
  obtain ⟨e, he, rfl⟩ := List.mem_map.mp htx
  exact h.signed e he

/-! ## Steps -/

theorem Advances.refl (h : NodeInv K g node) : Advances K g node node := ⟨h, .refl _⟩

theorem Advances.trans {node' node'' : Node} (h : Advances K g node node')
    (h' : Advances K g node' node'') : Advances K g node node'' := by
  obtain ⟨n, t, l, hcan⟩ := h.inv.chain.canonical
  exact ⟨h'.inv, h.later.trans hcan h'.later⟩

theorem Idle.refl (h : NodeInv K g node) : Idle K g node node := ⟨h.chain.genesis, h.chain.cache, rfl⟩

theorem Advances.of_idle {node' : Node} (h : NodeInv K g node) (hidle : Idle K g node node') :
    Advances K g node node' := by
  refine ⟨⟨⟨hidle.genesis, hidle.cache, ?_, ?_⟩, ?_⟩, ?_⟩
  · rw [hidle.state]
    exact h.chain.stored
  · rw [hidle.state]
    exact h.chain.canonical
  · rw [hidle.state]
    exact h.signed
  · rw [hidle.state]
    exact .refl _

theorem Advances.addTransaction (h : NodeInv K g node) {tx : Transaction}
    (htx : tx.isSignatureValid K = true) : Advances K g node (node.addTransaction K tx) := by
  refine ⟨⟨h.chain.congr rfl rfl rfl, fun e he => ?_⟩, (Later.refl _).congr rfl⟩
  rcases Mempool.mem_insert he with rfl | he
  · exact htx
  · exact h.signed e he

theorem NodeInv.retry (h : NodeInv K g node) (b : Block) : NodeInv K g (node.retry K b).1 := by
  refine ⟨h.chain.retry b, fun e he => ?_⟩
  rcases mem_mempool_retry h.chain he with hold | ⟨tx, hash, height, reorged, requeue, hres, htx, rfl⟩
  · exact h.signed e hold
  · exact requeue_signed h.chain hres tx htx

theorem Advances.retry (h : NodeInv K g node) (b : Block) : Advances K g node (node.retry K b).1 :=
  ⟨h.retry b, (Later.submit h.chain b).congr (core_retry node b)⟩

/-- A delivery with all the blocks it wakes. -/
theorem Advances.accept (h : NodeInv K g node) (b : Block) :
    Advances K g node (node.acceptAndBroadcast K b).1 :=
  (node.loop_acceptAndBroadcast b).invariant (I := fun node' _ _ => Advances K g node node')
    (Q := fun _ => True) (fun _ i _ _ _ hI => hI.trans (.retry hI.inv i))
    (fun _ _ _ hI => hI.trans (.of_idle hI.inv ⟨hI.inv.chain.genesis, hI.inv.chain.cache, rfl⟩))
    (fun _ _ => trivial) (.refl h)

theorem submitTx_fst {tx : Transaction} (h : tx.isSignatureValid K = true) (node : Node) :
    (node.submitTx K tx).1 = node.addTransaction K tx := by
  rw [Node.submitTx, if_pos h]

theorem submitBlock_fst (node : Node) (b : Block) :
    (node.submitBlock K b).1 = (node.acceptAndBroadcast K b).1 := by
  unfold Node.submitBlock
  rcases node.acceptAndBroadcast K b with ⟨node', e | outcome⟩
  · rfl
  · cases outcome with
    | accepted hash height reorged requeue => rfl
    | sideBranch hash height => rfl
    | alreadyKnown => rfl
    | orphan missingParent => rfl

theorem workTemplate_cache (hc : ChainInv K g c) (miner : Address) (now : UInt64) (txs : TxVec) :
    (c.workTemplate K miner now txs).2 = none ∨
      (c.workTemplate K miner now txs).2 = some (0, epochZeroDataset K) := by
  obtain ⟨n, t, l, hcan⟩ := hc.canonical
  unfold Chain.workTemplate
  simp only [hcan.tip]
  rcases Nat.lt_or_ge (n + 1).toNat epochLength.toNat with hlow | hhigh
  · rw [datasetForHeight_low hc hlow]
    cases c.computeNextDifficulty (n + 1) with
    | error e => exact .inr rfl
    | ok difficulty => exact .inr rfl
  · rw [datasetForHeight_high hc hhigh]
    exact hc.cache

/-- Asking for work changes nothing but the dataset in memory. -/
theorem getWork_state (node : Node) (miner : Bytes) (now : UInt64) :
    (node.getWork K miner now).1.chain.state = node.chain.state := by
  unfold Node.getWork
  split
  · rfl
  · next address _ =>
    split
    · rfl
    · next pending _ =>
      rcases node.chain.workTemplate K address now pending with ⟨e | ⟨block, dataset⟩, cache⟩
      · rfl
      · rfl

theorem Idle.getWork (h : NodeInv K g node) (miner : Bytes) (now : UInt64) :
    Idle K g node (node.getWork K miner now).1 := by
  unfold Node.getWork
  split
  · exact .refl h
  · next address _ =>
    split
    · exact .refl h
    · next pending _ =>
      have hcache := workTemplate_cache h.chain address now pending
      generalize node.chain.workTemplate K address now pending = work at hcache ⊢
      rcases work with ⟨e | ⟨block, dataset⟩, cache⟩
      · exact ⟨h.chain.genesis, hcache, rfl⟩
      · exact ⟨h.chain.genesis, hcache, rfl⟩

theorem Idle.rebroadcast (h : NodeInv K g node) : Idle K g node node.rebroadcast := by
  unfold Node.rebroadcast
  split
  · exact ⟨h.chain.genesis, h.chain.cache, rfl⟩
  · exact .refl h

/-- A restart finds a tip, so it writes nothing. -/
theorem Idle.restart (h : NodeInv K g node) : Idle K g node (node.restart K g) := by
  obtain ⟨n, t, l, hcan⟩ := h.chain.canonical
  unfold Node.restart
  rw [openDb_of_tip hcan.tip]
  exact ⟨rfl, .inl rfl, rfl⟩

/-- What a step of the node comes to: nothing, a signed transaction, or a delivered block. -/
theorem node_step_cases (h : NodeInv K g node) (i : NodeInput) :
    Idle K g node ((nodeMachine K g).step node i) ∨
    (∃ tx, i.handedIn = some tx ∧ tx.isSignatureValid K = true ∧
      (nodeMachine K g).step node i = node.addTransaction K tx) ∨
    ∃ b, i.delivered = some b ∧ (nodeMachine K g).step node i = (node.acceptAndBroadcast K b).1 := by
  cases i with
  | event event =>
    cases event with
    | newBlock block => exact .inr (.inr ⟨block, rfl, rfl⟩)
    | newTransaction tx =>
      have hstep : (nodeMachine K g).step node (.event (.newTransaction tx))
          = if tx.isSignatureValid K then node.addTransaction K tx else node := rfl
      rw [hstep]
      split
      · next htx => exact .inr (.inl ⟨tx, rfl, htx, rfl⟩)
      · exact .inl (.refl h)
    | getBlockRequest peerAddr hash => exact .inl ⟨h.chain.genesis, h.chain.cache, rfl⟩
    | blockResponse block =>
      cases block with
      | none => exact .inl (.refl h)
      | some block => exact .inr (.inr ⟨block, rfl, rfl⟩)
    | peerConnected addr => exact .inl (.refl h)
    | peerDisconnected addr => exact .inl (.refl h)
  | submitTx tx =>
    by_cases htx : tx.isSignatureValid K = true
    · exact .inr (.inl ⟨tx, rfl, htx, submitTx_fst htx node⟩)
    · have hstep : (nodeMachine K g).step node (.submitTx tx) = node := by
        show (node.submitTx K tx).1 = node
        rw [Node.submitTx, if_neg htx]
      rw [hstep]
      exact .inl (.refl h)
  | submitBlock block => exact .inr (.inr ⟨block, rfl, submitBlock_fst node block⟩)
  | getWork miner now => exact .inl (.getWork h miner now)
  | rebroadcast => exact .inl (.rebroadcast h)
  | restart => exact .inl (.restart h)

theorem Advances.step (h : NodeInv K g node) (i : NodeInput) :
    Advances K g node ((nodeMachine K g).step node i) := by
  rcases node_step_cases h i with hidle | ⟨tx, -, htx, hst⟩ | ⟨b, -, hst⟩
  · exact .of_idle h hidle
  · rw [hst]
    exact .addTransaction h htx
  · rw [hst]
    exact .accept h b

/-! ## Runs -/

/-- A chain opened on an empty data directory has no pending transaction. -/
theorem not_mem_mempool_start (hc : Chain.openDb K g ChainState.empty = .ok c)
    (e : Hash256 × Transaction) : e ∉ c.state.mempool := by
  obtain ⟨ws, hws, rfl⟩ := openDb_empty hc
  intro he
  rcases mem_mempool_writes he with hold | hin
  · exact absurd hold List.not_mem_nil
  · obtain ⟨ps, -, rfl⟩ := initGenesis_cases hws
    rcases List.mem_append.mp hin with hin | hin
    · obtain ⟨addr, a, heq⟩ := mem_creditAll hin
      cases heq
    · simp [genesisWrites] at hin

theorem nodeInv (hn : (nodeMachine K g).Reachable node) : NodeInv K g node := by
  refine Machine.Reach.invariant (P := fun node => NodeInv K g node) (fun node hinit => ?_)
    (fun node i _ _ ih => (Advances.step ih i).inv) hn
  obtain ⟨c, hc, rfl⟩ := hinit
  exact ⟨chainInv (.init hc), fun e he => absurd he (not_mem_mempool_start hc e)⟩

/-- Every run leads to a later store. -/
theorem advances_run (h : NodeInv K g node) (is : List NodeInput) :
    Advances K g node ((nodeMachine K g).run node is) := by
  induction is generalizing node with
  | nil => exact .refl h
  | cons i is ih =>
    have hstep := Advances.step h i
    exact hstep.trans (ih hstep.inv)

/-- Under one tip a later node has the same branch and the same accounts. -/
theorem Advances.same_tip {m : Node} (hadv : Advances K g node m) {n : UInt64} {t : Hash256}
    {l : BlockChain} (hcan : Canonical K g node.chain.state n t l)
    (htip : m.chain.state.tip = some (n, t)) :
    Canonical K g m.chain.state n t l ∧
      m.chain.state.getAccount = node.chain.state.getAccount := by
  obtain ⟨n', t', l', hcan'⟩ := hadv.inv.chain.canonical
  have hsame : m.chain.state.tip = node.chain.state.tip := htip.trans hcan.tip.symm
  obtain rfl := hadv.later.branch_eq hsame hcan hcan'
  obtain ⟨rfl, rfl⟩ := Prod.mk.inj (Option.some.inj (hcan'.tip.symm.trans htip))
  refine ⟨hcan', funext fun addr => ?_⟩
  rw [ChainState.getAccount, ChainState.getAccount, hadv.later.accounts hsame hcan hcan']

end Ondris
