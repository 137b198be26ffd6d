import Ondris.Lib.Worklist
import Ondris.Submit

/-!
# The node

`ondris-node`: the reaction to network events, the buffer of orphan blocks, and
the RPC calls that submit transactions and blocks or ask for work. The calls and
events of one node are taken one after another. Messages are kept in the order in
which they are handed to the network.

Results:
1. `Node.cascade`: waking buffered blocks ends, since every turn leaves fewer hashes
   and blocks to look at.
2. `core_retry`, `ChainInv.retry`: the mempool aside, the node leaves the store of
   `submit_block`.
-/

namespace Ondris

open Encoding

/-! ## Data -/

structure SocketAddr where
  ip : Bytes
  port : UInt16
deriving DecidableEq

/-- The kinds of `Message` that the node sends. -/
inductive Message
  | newBlock (block : Block)
  | newTransaction (tx : Transaction)
  | getBlock (hash : Hash256)
  | blockResponse (block : Option Block)
deriving DecidableEq

inductive NetworkEvent
  | peerConnected (addr : SocketAddr)
  | peerDisconnected (addr : SocketAddr)
  | newBlock (block : Block)
  | newTransaction (tx : Transaction)
  | getBlockRequest (peerAddr : SocketAddr) (hash : Hash256)
  | blockResponse (block : Option Block)
deriving DecidableEq

/-- A message handed to the network. -/
inductive Sent
  | broadcast (message : Message)
  | sendTo (addr : SocketAddr) (message : Message)
deriving DecidableEq

/-- Blocks received before their parent, keyed by the parent hash they wait on. -/
abbrev Orphans := AList fun _ : Hash256 => List Block

namespace Orphans

/-- The blocks that wait for `hash`. -/
def waiting (orphans : Orphans) (hash : Hash256) : List Block := (orphans.lookup hash).getD []

/-- `entry(hash).or_default().push(block)`. -/
def push (orphans : Orphans) (hash : Hash256) (block : Block) : Orphans :=
  orphans.insert hash (orphans.waiting hash ++ [block])

/-- The number of buffered blocks. -/
def count (orphans : Orphans) : ℕ := (orphans.entries.map fun e => e.2.length).sum

end Orphans

/-- `AppState`, with the part of `Network` that the node writes. -/
structure Node where
  chain : Chain
  orphans : Orphans
  /-- The height announced to new peers. -/
  height : UInt64
  sent : List Sent

/-- `WorkTemplate`. -/
structure WorkTemplate where
  block : Block
  target : Bytes
  epoch : UInt64
  epochBoundaryHash : Option Hash256
deriving DecidableEq

/-- `SubmitBlockResponse`. -/
structure SubmitBlockResponse where
  blockHash : Hash256
  height : UInt64
deriving DecidableEq

/-- The errors of the RPC calls. -/
inductive NodeError
  | chain (e : ChainError)
  | address (e : DecodeError)
  | alreadyKnown
  | unknownParent (missingParent : Hash256)
  | invalidSignature
  /-- Not an error of the source: more transactions than a vector can hold. -/
  | mempoolTooLarge
deriving DecidableEq

/-- The text of an error. -/
def NodeError.message : NodeError → String
  | chain e => e.message
  | address e => e.message
  | alreadyKnown => "block already known"
  | unknownParent missingParent =>
    "unknown parent block " ++ missingParent.toHex ++ "; the node will try to fetch it from peers"
  | invalidSignature => "invalid signature"
  | mempoolTooLarge => ""

namespace Node

def writes (node : Node) (ws : List Write) : Node :=
  { node with chain := { node.chain with state := node.chain.state.writes ws } }

def send (node : Node) (message : Sent) : Node := { node with sent := node.sent ++ [message] }

/-! ## Blocks -/

variable (K : Crates)

/-- The mempool writes after an accepted block: its transactions leave, those it
displaced come back. -/
def mempoolWrites (block : Block) (requeue : List Transaction) : List Write :=
  block.transactions.val.map (fun tx => .mempoolRemove (tx.hash K)) ++
    requeue.map fun tx => .mempoolInsert (tx.hash K) tx

def handleOutcome (node : Node) (block : Block) : SubmitOutcome → Node
  | .accepted _ height _ requeue =>
    (({ node with height }.send (.broadcast (.newBlock block))).writes
      (mempoolWrites K block requeue))
  | .sideBranch _ _ => node.send (.broadcast (.newBlock block))
  | .alreadyKnown => node
  | .orphan missingParent =>
    ({ node with orphans := node.orphans.push missingParent block }).send
      (.broadcast (.getBlock missingParent))

/-- The node once `submit_block` has returned. -/
def submitted (node : Node) (block : Block) : Node :=
  { node with chain := node.chain.submit K block }

/-- A buffered block is submitted again; if it is accepted, its hash goes to the
queue. -/
def retry (node : Node) (child : Block) : Node × Option Hash256 :=
  match (node.chain.submitBlock K child).result with
  | .error _ => (node.submitted K child, none)
  | .ok outcome =>
    ((node.submitted K child).handleOutcome K child outcome,
      match outcome with
      | .accepted hash _ _ _ => some hash
      | _ => none)

end Node

/-! ## Termination of the cascade -/

namespace Orphans

theorem sum_kerase (es : List (Sigma fun _ : Hash256 => List Block)) (hash : Hash256) :
    ((es.kerase hash).map fun e => e.2.length).sum + ((es.dlookup hash).getD []).length
      = (es.map fun e => e.2.length).sum := by
  induction es with
  | nil => rfl
  | cons e es ih =>
    obtain ⟨k, bs⟩ := e
    by_cases hk : hash = k
    · subst hk
      have hrest : List.kerase hash (⟨hash, bs⟩ :: es) = es := List.kerase_cons_eq rfl
      rw [hrest, List.dlookup_cons_eq, List.map_cons, List.sum_cons, Nat.add_comm]
      rfl
    · have hrest : List.kerase hash (⟨k, bs⟩ :: es) = ⟨k, bs⟩ :: es.kerase hash :=
        List.kerase_cons_ne hk
      have hlook : List.dlookup hash (⟨k, bs⟩ :: es) = es.dlookup hash :=
        List.dlookup_cons_ne es ⟨k, bs⟩ hk
      rw [hrest, hlook, List.map_cons, List.sum_cons, List.map_cons, List.sum_cons, Nat.add_assoc,
        ih]

theorem waiting_push (orphans : Orphans) (h hash : Hash256) (block : Block) :
    (orphans.push hash block).waiting h
      = if h = hash then orphans.waiting hash ++ [block] else orphans.waiting h := by
  unfold waiting push
  split
  · next heq => rw [heq, AList.lookup_insert, Option.getD_some, waiting]
  · next hne => rw [AList.lookup_insert_ne hne]

theorem waiting_erase (orphans : Orphans) (h hash : Hash256) :
    waiting (orphans.erase hash) h = if h = hash then [] else orphans.waiting h := by
  unfold waiting
  split
  · next heq => rw [heq, AList.lookup_erase, Option.getD_none]
  · next hne => rw [AList.lookup_erase_ne hne]

theorem count_erase (orphans : Orphans) (hash : Hash256) :
    count (orphans.erase hash) + (orphans.waiting hash).length = orphans.count :=
  sum_kerase orphans.entries hash

theorem count_push (orphans : Orphans) (hash : Hash256) (block : Block) :
    (orphans.push hash block).count = orphans.count + 1 := by
  have hinsert : (orphans.push hash block).count
      = (orphans.waiting hash ++ [block]).length + count (orphans.erase hash) := by
    simp only [push, count, AList.entries_insert, List.map_cons, List.sum_cons]
    rfl
  rw [hinsert, ← orphans.count_erase hash, List.length_append, List.length_singleton]
  omega

end Orphans

namespace Node

/-- Submitting a block again buffers it or names a key, but not both. -/
theorem count_retry (K : Crates) (node : Node) (child : Block) :
    (node.retry K child).1.orphans.count + (node.retry K child).2.toList.length
      ≤ node.orphans.count + 1 := by
  unfold retry
  cases (node.chain.submitBlock K child).result with
  | error e => exact Nat.le_succ _
  | ok outcome =>
    cases outcome with
    | accepted hash height reorged requeue => exact Nat.le_refl _
    | sideBranch hash height => exact Nat.le_succ _
    | alreadyKnown => exact Nat.le_succ _
    | orphan missingParent => exact (Orphans.count_push _ _ _).le

/-- The buffered blocks as a worklist: what waits for an accepted hash is taken out
of the buffer and submitted again. -/
def cascade (K : Crates) : Worklist Node Hash256 Block where
  take node hash := ({ node with orphans := node.orphans.erase hash }, node.orphans.waiting hash)
  call node child := node.retry K child
  size node := node.orphans.count
  size_take node hash := (node.orphans.count_erase hash).le
  size_call := count_retry K

/-- Feeds one block through consensus and reacts to the outcome; if it is accepted,
buffered blocks that wait for it are woken, and so on. -/
def acceptAndBroadcast (K : Crates) (node : Node) (block : Block) :
    Node × Except ChainError SubmitOutcome :=
  match (node.chain.submitBlock K block).result with
  | .error e => (node.submitted K block, .error e)
  | .ok outcome =>
    let node := (node.submitted K block).handleOutcome K block outcome
    match outcome with
    | .accepted hash _ _ _ => ((cascade K).run node [hash], .ok outcome)
    | _ => (node, .ok outcome)

/-! ## Events and calls -/

/-- A transaction with a valid signature enters the mempool and is passed on. -/
def addTransaction (K : Crates) (node : Node) (tx : Transaction) : Node :=
  (node.writes [.mempoolInsert (tx.hash K) tx]).send (.broadcast (.newTransaction tx))

/-- One turn of the event loop. -/
def handleEvent (K : Crates) (node : Node) : NetworkEvent → Node
  | .newBlock block => (node.acceptAndBroadcast K block).1
  | .newTransaction tx => if tx.isSignatureValid K then node.addTransaction K tx else node
  | .getBlockRequest peerAddr hash =>
    node.send (.sendTo peerAddr (.blockResponse (node.chain.state.getBlock hash)))
  | .blockResponse (some block) => (node.acceptAndBroadcast K block).1
  | .blockResponse none => node
  | .peerConnected _ => node
  | .peerDisconnected _ => node

/-- `POST /tx/submit`. -/
def submitTx (K : Crates) (node : Node) (tx : Transaction) : Node × Except NodeError Hash256 :=
  if tx.isSignatureValid K then (node.addTransaction K tx, .ok (tx.hash K))
  else (node, .error .invalidSignature)

/-- `POST /block/submit`. -/
def submitBlock (K : Crates) (node : Node) (block : Block) :
    Node × Except NodeError SubmitBlockResponse :=
  match node.acceptAndBroadcast K block with
  | (node, .error e) => (node, .error (.chain e))
  | (node, .ok (.accepted hash height _ _)) => (node, .ok ⟨hash, height⟩)
  | (node, .ok (.sideBranch hash height)) => (node, .ok ⟨hash, height⟩)
  | (node, .ok .alreadyKnown) => (node, .error .alreadyKnown)
  | (node, .ok (.orphan missingParent)) => (node, .error (.unknownParent missingParent))

/-- `GET /work` at the time `now`. -/
def getWork (K : Crates) (node : Node) (miner : Bytes) (now : UInt64) :
    Node × Except NodeError WorkTemplate :=
  match Address.fromStr miner with
  | .error e => (node, .error (.address e))
  | .ok miner =>
    match node.chain.state.mempoolAll with
    | none => (node, .error .mempoolTooLarge)
    | some pending =>
      match node.chain.workTemplate K miner now pending with
      | (.error e, cache) =>
        ({ node with chain := { node.chain with datasetCache := cache } }, .error (.chain e))
      | (.ok (block, _), cache) =>
        let epoch := epochOf block.header.height
        ({ node with chain := { node.chain with datasetCache := cache } }, .ok
          { block, target := targetForDifficulty block.header.difficulty, epoch
            epochBoundaryHash :=
              if epoch = 0 then none
              else node.chain.state.getHashByHeight (epoch * epochLength) })

end Node

/-! ## The store of a node -/

/-- The trees of the store besides the mempool. -/
def ChainState.core (st : ChainState) : Tree Address Account × Tree Hash256 Block ×
    Tree UInt64 Hash256 × Tree Hash256 ℕ × Option (UInt64 × Hash256) :=
  (st.accounts, st.blocks, st.heights, st.chainwork, st.tip)

variable {K : Crates} {g : GenesisConfig} {c : Chain} {node : Node}

theorem core_mempoolWrites (st : ChainState) (block : Block) (requeue : List Transaction) :
    (st.writes (Node.mempoolWrites K block requeue)).core = st.core := by
  refine ChainState.writes_frame ChainState.core (fun st w hw => ?_) st
  simp only [Node.mempoolWrites, List.mem_append, List.mem_map] at hw
  rcases hw with ⟨tx, -, rfl⟩ | ⟨tx, -, rfl⟩ <;> rfl

theorem core_handleOutcome (node : Node) (block : Block) (outcome : SubmitOutcome) :
    (node.handleOutcome K block outcome).chain.state.core = node.chain.state.core := by
  cases outcome with
  | accepted hash height reorged requeue => exact core_mempoolWrites _ _ _
  | sideBranch hash height => rfl
  | alreadyKnown => rfl
  | orphan missingParent => rfl

/-- The mempool writes aside, the node leaves the store of `submit_block`. -/
theorem core_retry (node : Node) (b : Block) :
    (node.retry K b).1.chain.state.core = (node.chain.submit K b).state.core := by
  unfold Node.retry
  cases (node.chain.submitBlock K b).result with
  | error e => rfl
  | ok outcome => exact core_handleOutcome _ _ _

theorem state_retry_accepted {b : Block} {hash : Hash256} {height : UInt64} {reorged : Bool}
    {requeue : List Transaction}
    (h : (node.chain.submitBlock K b).result = .ok (.accepted hash height reorged requeue)) :
    (node.retry K b).1.chain.state
      = (node.chain.submit K b).state.writes (Node.mempoolWrites K b requeue) := by
  rw [Node.retry, h]
  rfl

theorem state_retry_of_not_accepted {b : Block} (h : ∀ hash height reorged requeue,
      (node.chain.submitBlock K b).result ≠ .ok (.accepted hash height reorged requeue)) :
    (node.retry K b).1.chain.state = (node.chain.submit K b).state := by
  unfold Node.retry
  cases hres : (node.chain.submitBlock K b).result with
  | error e => rfl
  | ok outcome =>
    cases outcome with
    | accepted hash height reorged requeue => exact absurd hres (h _ _ _ _)
    | sideBranch hash height => rfl
    | alreadyKnown => rfl
    | orphan missingParent => rfl

theorem ChainInv.congr (hc : ChainInv K g c) {d : Chain} (hgen : d.genesis = c.genesis)
    (hcache : d.datasetCache = c.datasetCache) (hcore : d.state.core = c.state.core) :
    ChainInv K g d := by
  simp only [ChainState.core, Prod.mk.injEq] at hcore
  obtain ⟨-, hblocks, hheights, hwork, htip⟩ := hcore
  obtain ⟨n, t, l, hcan⟩ := hc.canonical
  refine ⟨hgen.trans hc.genesis, ?_, hc.stored.congr hblocks hwork, n, t, l,
    hcan.congr hblocks hheights htip⟩
  rw [hcache]
  exact hc.cache

theorem ChainInv.handleOutcome (hc : ChainInv K g node.chain) (b : Block)
    (outcome : SubmitOutcome) : ChainInv K g (node.handleOutcome K b outcome).chain := by
  cases outcome with
  | accepted hash height reorged requeue => exact hc.congr rfl rfl (core_mempoolWrites _ _ _)
  | sideBranch hash height => exact hc
  | alreadyKnown => exact hc
  | orphan missingParent => exact hc

theorem ChainInv.retry (hc : ChainInv K g node.chain) (b : Block) :
    ChainInv K g (node.retry K b).1.chain := by
  have hsubmit : ChainInv K g (node.submitted K b).chain := hc.submit b
  unfold Node.retry
  cases (node.chain.submitBlock K b).result with
  | error e => exact hsubmit
  | ok outcome => exact hsubmit.handleOutcome b outcome

theorem core_blocks {st st' : ChainState} (h : st'.core = st.core) : st'.blocks = st.blocks :=
  congrArg (·.2.1) h

theorem core_tip {st st' : ChainState} (h : st'.core = st.core) : st'.tip = st.tip :=
  congrArg (·.2.2.2.2) h

theorem core_heights {st st' : ChainState} (h : st'.core = st.core) : st'.heights = st.heights :=
  congrArg (·.2.2.1) h

theorem core_accounts {st st' : ChainState} (h : st'.core = st.core) : st'.accounts = st.accounts :=
  congrArg (·.1) h

theorem blocks_retry (node : Node) (b : Block) :
    (node.retry K b).1.chain.state.blocks = (node.chain.submit K b).state.blocks :=
  core_blocks (core_retry node b)

theorem tip_retry (node : Node) (b : Block) :
    (node.retry K b).1.chain.state.tip = (node.chain.submit K b).state.tip :=
  core_tip (core_retry node b)

/-- A stored block stays stored. -/
theorem isSome_blocks_submit (hc : ChainInv K g c) {h : Hash256} (hh : (c.state.blocks h).isSome)
    (b : Block) : ((c.submit K b).state.blocks h).isSome := by
  obtain ⟨x, hx⟩ := Option.isSome_iff_exists.mp hh
  obtain ⟨l, hl⟩ := hc.stored.exists_branch hx
  exact (hl.submit hc b).get_isSome

theorem isSome_blocks_retry (hc : ChainInv K g node.chain) {h : Hash256}
    (hh : (node.chain.state.blocks h).isSome) (b : Block) :
    ((node.retry K b).1.chain.state.blocks h).isSome := by
  rw [blocks_retry]
  exact isSome_blocks_submit hc hh b

/-- A storable block is stored by the call. -/
theorem Storable.isSome_blocks_retry {b : Block} (hb : Storable K g node.chain.state b)
    (hc : ChainInv K g node.chain) :
    ((node.retry K b).1.chain.state.blocks (blockId K b)).isSome := by
  obtain ⟨-, l, hl, -⟩ := id hb
  rw [blocks_retry]
  exact (hb.branch_submit hc hl).get_isSome

end Ondris
