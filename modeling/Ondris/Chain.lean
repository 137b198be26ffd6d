import Mathlib.Data.List.AList
import Ondris.State

/-!
# The chain

`Chain` of `chain.rs`: opening a data directory, work templates, validation of
submitted blocks, and the reorganisation that re-points the canonical chain.
An operation that writes returns the list of its writes in the order it issues
them, so that its effect is `ChainState.writes` and a crash is a prefix.
-/

namespace Ondris

open Encoding

/-- The errors of `chain.rs`. -/
inductive ChainError
  | notInitialized
  | premineAddress (e : DecodeError)
  | epochBoundaryMissing (height : UInt64)
  | blockMissing (height : UInt64)
  | windowStartMissing
  | notEnoughAncestors
  | secondGenesis
  | invalidTxRoot
  | powTargetMissed
  | invalidSignature
  | heightMismatch (height parentHeight : UInt64)
  | wrongDifficulty (got expected : UInt64)
  | missingChainwork (hash : Hash256)
  | missingTipChainwork
  | missingBlock (hash : Hash256)
  | missingAncestor (hash : Hash256)
  | invalidTxNonce (hash : Hash256) (height : UInt64)
  | insufficientBalance (hash : Hash256) (height : UInt64)
  /-- Not an error of the source: a walk over the store did not end. -/
  | diverged
deriving DecidableEq

/-- The text of an error. -/
def ChainError.message : ChainError → String
  | notInitialized => "chain not initialized"
  | premineAddress e => e.message
  | epochBoundaryMissing height => "epoch boundary block " ++ toString height ++ " not found"
  | blockMissing height => "block " ++ toString height ++ " not found"
  | windowStartMissing => "window start block not found"
  | notEnoughAncestors => "not enough ancestors on this branch to retarget difficulty"
  | secondGenesis => "refusing to accept a second genesis block"
  | invalidTxRoot => "invalid tx_root"
  | powTargetMissed => "PoW does not meet the difficulty target"
  | invalidSignature => "invalid transaction signature"
  | heightMismatch height parentHeight =>
    "block height " ++ toString height ++ " does not follow its stated parent (height " ++
      toString parentHeight ++ ")"
  | wrongDifficulty got expected =>
    "incorrect difficulty for this branch/height: got " ++ toString got ++ ", expected " ++
      toString expected
  | missingChainwork hash => "missing chainwork for known parent " ++ hash.toHex
  | missingTipChainwork => "missing chainwork for current tip"
  | missingBlock hash => "missing block " ++ hash.toHex
  | missingAncestor hash => "missing ancestor " ++ hash.toHex
  | invalidTxNonce hash height =>
    "reorg to " ++ hash.toHex ++ ": invalid tx nonce in block " ++ toString height ++
      " (rolled back the wrong way?)"
  | insufficientBalance hash height =>
    "reorg to " ++ hash.toHex ++ ": insufficient balance for a transaction in block " ++
      toString height
  | diverged => ""

/-- Result of submitting a block. -/
inductive SubmitOutcome
  | accepted (hash : Hash256) (height : UInt64) (reorged : Bool) (requeue : List Transaction)
  | sideBranch (hash : Hash256) (height : UInt64)
  | alreadyKnown
  | orphan (missingParent : Hash256)
deriving DecidableEq

/-- The dataset kept in memory, with its epoch. -/
abbrev DatasetCache := Option (UInt64 × Dataset)

structure Chain where
  state : ChainState
  genesis : GenesisConfig
  datasetCache : DatasetCache

/-- (hash, block) pairs, in an order that depends on the context. -/
abbrev BlockChain := List (Hash256 × Block)

/-! ## Opening -/

/-- The premine credits of `init_genesis`; each reads what the ones before it
wrote. -/
def creditAll (st : ChainState) : List (Address × UInt64) → List Write
  | [] => []
  | (addr, amount) :: rest =>
    let w := st.credit addr amount
    w :: creditAll (st.write w) rest

/-- `Chain::init_genesis`. -/
def initGenesis (K : Crates) (g : GenesisConfig) (st : ChainState) :
    Except ChainError (List Write) :=
  match g.premineParsed with
  | .error e => .error (.premineAddress e)
  | .ok premine =>
    let hash := g.genesisHash K
    .ok (creditAll st premine ++
      [.setChainwork hash (blockWork g.initialDifficulty), .storeBlock hash g.genesisBlock,
        .setCanonicalHeight 0 hash, .setTip 0 hash])

/-- The writes of `Chain::open` on the store found in the data directory. -/
def openWrites (K : Crates) (g : GenesisConfig) (disk : ChainState) :
    Except ChainError (List Write) :=
  match disk.tip with
  | some _ => .ok []
  | none => initGenesis K g disk

/-- `Chain::open`. -/
def Chain.openDb (K : Crates) (g : GenesisConfig) (disk : ChainState) : Except ChainError Chain :=
  match openWrites K g disk with
  | .error e => .error e
  | .ok ws => .ok ⟨disk.writes ws, g, none⟩

/-! ## Templates and difficulty -/

/-- Dataset for the epoch of `height`, from memory or from the canonical block
at the epoch boundary, and the dataset kept in memory afterwards. -/
def Chain.datasetForHeight (K : Crates) (c : Chain) (height : UInt64) :
    Except ChainError Dataset × DatasetCache :=
  let epoch := epochOf height
  let cached := c.datasetCache.bind fun e => if e.1 = epoch then some e.2 else none
  match cached with
  | some ds => (.ok ds, c.datasetCache)
  | none =>
    let boundaryHeight := epoch * epochLength
    let seed : Except ChainError Hash256 :=
      if epoch = 0 then .ok (epochSeed K none)
      else match c.state.getHashByHeight boundaryHeight with
        | none => .error (.epochBoundaryMissing boundaryHeight)
        | some boundaryHash => .ok (epochSeed K (some boundaryHash))
    match seed with
    | .error e => (.error e, c.datasetCache)
    | .ok seed =>
      let dataset := Dataset.generate K epoch seed
      (.ok dataset, some (epoch, dataset))

/-- Difficulty for the block after the canonical tip. -/
def Chain.computeNextDifficulty (c : Chain) (nextHeight : UInt64) : Except ChainError UInt64 :=
  let window := c.genesis.window
  if nextHeight ≤ window then .ok c.genesis.initialDifficulty
  else match c.state.getBlockByHeight (nextHeight - 1) with
    | none => .error (.blockMissing (nextHeight - 1))
    | some tipBlock =>
      match c.state.getBlockByHeight (nextHeight - 1 - window) with
      | none => .error .windowStartMissing
      | some windowStartBlock =>
        let actualTimespan := satSub tipBlock.header.timestamp windowStartBlock.header.timestamp
        .ok (nextDifficulty tipBlock.header.difficulty actualTimespan
          c.genesis.targetBlockTimeSecs window)

/-- Walks `depth` blocks back along `prev_hash`. -/
def blockAncestor (st : ChainState) (current : Block) : ℕ → Option Block
  | 0 => some current
  | depth + 1 =>
    match st.getBlock current.header.prevHash with
    | some b => blockAncestor st b depth
    | none => none

/-- Difficulty expected right after `parent`, on the branch of `parent`. -/
def expectedDifficultyAfter (g : GenesisConfig) (st : ChainState) (parent : Block) :
    Except ChainError UInt64 :=
  let nextHeight := parent.header.height + 1
  let window := g.window
  if nextHeight ≤ window then .ok g.initialDifficulty
  else match blockAncestor st parent window.toNat with
    | none => .error .notEnoughAncestors
    | some windowStart =>
      let actualTimespan := satSub parent.header.timestamp windowStart.header.timestamp
      .ok (nextDifficulty parent.header.difficulty actualTimespan g.targetBlockTimeSecs window)

/-- A block to be mined on the canonical tip at the time `now`, the dataset of
its epoch, and the dataset kept in memory afterwards. -/
def Chain.workTemplate (K : Crates) (c : Chain) (miner : Address) (now : UInt64)
    (pendingTxs : TxVec) : Except ChainError (Block × Dataset) × DatasetCache :=
  match c.state.tip with
  | none => (.error .notInitialized, c.datasetCache)
  | some (height, prevHash) =>
    let nextHeight := height + 1
    match c.datasetForHeight K nextHeight with
    | (.error e, cache) => (.error e, cache)
    | (.ok dataset, cache) =>
      match c.computeNextDifficulty nextHeight with
      | .error e => (.error e, cache)
      | .ok difficulty =>
        let txRoot := merkleRoot K (pendingTxs.val.map (·.hash K))
        let header : BlockHeader :=
          { height := nextHeight, prevHash, txRoot, timestamp := now, difficulty, miner, nonce := 0 }
        (.ok (⟨header, pendingTxs⟩, dataset), cache)

/-! ## Fork paths -/

/-- `while block.height > floor`: steps to the parent and records the block. -/
def descend (st : ChainState) (floor : UInt64) :
    ℕ → Hash256 × Block → BlockChain → Except ChainError ((Hash256 × Block) × BlockChain)
  | fuel, cur, path =>
    if floor < cur.2.header.height then
      match fuel with
      | 0 => .error .diverged
      | fuel + 1 =>
        match st.getBlock cur.2.header.prevHash with
        | none => .error (.missingAncestor cur.2.header.prevHash)
        | some b => descend st floor fuel (cur.2.header.prevHash, b) (path ++ [cur])
    else .ok (cur, path)

/-- `while old_hash != new_hash`: both sides step to their parents. -/
def descendBoth (st : ChainState) :
    ℕ → Hash256 × Block → Hash256 × Block → BlockChain → BlockChain →
      Except ChainError (BlockChain × BlockChain)
  | fuel, old, new, undo, apply =>
    if old.1 = new.1 then .ok (undo, apply)
    else match fuel with
      | 0 => .error .diverged
      | fuel + 1 =>
        match st.getBlock old.2.header.prevHash with
        | none => .error (.missingAncestor old.2.header.prevHash)
        | some oldBlock =>
          match st.getBlock new.2.header.prevHash with
          | none => .error (.missingAncestor new.2.header.prevHash)
          | some newBlock =>
            descendBoth st fuel (old.2.header.prevHash, oldBlock) (new.2.header.prevHash, newBlock)
              (undo ++ [old]) (apply ++ [new])

/-- The blocks to undo, tip first, and the blocks to apply, ancestor first. The
heights bound the number of steps when parents are one height below. -/
def forkPaths (st : ChainState) (oldTip newTip : Hash256) :
    Except ChainError (BlockChain × BlockChain) :=
  match st.getBlock oldTip with
  | none => .error (.missingBlock oldTip)
  | some oldBlock =>
    match st.getBlock newTip with
    | none => .error (.missingBlock newTip)
    | some newBlock =>
      let fuel := oldBlock.header.height.toNat + newBlock.header.height.toNat
      match descend st newBlock.header.height fuel (oldTip, oldBlock) [] with
      | .error e => .error e
      | .ok (old, undo) =>
        match descend st old.2.header.height fuel (newTip, newBlock) [] with
        | .error e => .error e
        | .ok (new, apply) =>
          match descendBoth st fuel old new undo apply with
          | .error e => .error e
          | .ok (undo, apply) => .ok (undo, apply.reverse)

/-! ## Reorganisation -/

/-- The accounts touched so far, over the accounts of the store. -/
abbrev Overlay := AList fun _ : Address => Account

/-- `get_acc!`. -/
def getAcc (st : ChainState) (overlay : Overlay) (addr : Address) : Account :=
  match overlay.lookup addr with
  | some a => a
  | none => st.getAccount addr

section Simulation

variable (K : Crates) (g : GenesisConfig) (st : ChainState)

/-- One transaction of the undo loop. -/
def undoTx (overlay : Overlay) (tx : Transaction) : Overlay :=
  -- the recipient first: the sender is read after that, and may be the same account
  let toAcc := getAcc st overlay tx.toAddr
  let overlay := overlay.insert tx.toAddr { toAcc with balance := satSub toAcc.balance tx.amount }
  let senderAcc := getAcc st overlay (tx.sender K)
  overlay.insert (tx.sender K)
    { balance := satAdd senderAcc.balance (tx.amount + tx.fee)
      nonce := satSub senderAcc.nonce 1 }

/-- One block of the undo loop: the reward, then the transactions in reverse. -/
def undoBlock (overlay : Overlay) (block : Block) : Overlay :=
  let minerAcc := getAcc st overlay block.header.miner
  let overlay := overlay.insert block.header.miner
    { minerAcc with balance := satSub minerAcc.balance (g.blockReward block.header.height) }
  block.transactions.val.reverse.foldl (undoTx K st) overlay

/-- One transaction of the apply loop. -/
def applyTx (hash : Hash256) (height : UInt64) (overlay : Overlay) (tx : Transaction) :
    Except ChainError Overlay :=
  let senderAcc := getAcc st overlay (tx.sender K)
  if tx.accountNonce ≠ senderAcc.nonce then .error (.invalidTxNonce hash height)
  else if senderAcc.balance < satAdd tx.amount tx.fee then
    .error (.insufficientBalance hash height)
  else
    let overlay := overlay.insert (tx.sender K)
      { balance := senderAcc.balance - (tx.amount + tx.fee), nonce := senderAcc.nonce + 1 }
    let toAcc := getAcc st overlay tx.toAddr
    .ok (overlay.insert tx.toAddr { toAcc with balance := satAdd toAcc.balance tx.amount })

/-- The transactions of a block, in order. -/
def applyTxs (hash : Hash256) (height : UInt64) : Overlay → List Transaction →
    Except ChainError Overlay
  | overlay, [] => .ok overlay
  | overlay, tx :: txs =>
    match applyTx K st hash height overlay tx with
    | .error e => .error e
    | .ok overlay => applyTxs hash height overlay txs

/-- One block of the apply loop: the transactions, then the reward. -/
def applyBlock (overlay : Overlay) (hash : Hash256) (block : Block) : Except ChainError Overlay :=
  match applyTxs K st hash block.header.height overlay block.transactions.val with
  | .error e => .error e
  | .ok overlay =>
    let minerAcc := getAcc st overlay block.header.miner
    .ok (overlay.insert block.header.miner
      { minerAcc with balance := satAdd minerAcc.balance (g.blockReward block.header.height) })

/-- The undo loop. -/
def undoBlocks (overlay : Overlay) (undoList : BlockChain) : Overlay :=
  undoList.foldl (fun overlay p => undoBlock K g st overlay p.2) overlay

/-- The apply loop. -/
def applyBlocks : Overlay → BlockChain → Except ChainError Overlay
  | overlay, [] => .ok overlay
  | overlay, p :: applyList =>
    match applyBlock K g st overlay p.1 p.2 with
    | .error e => .error e
    | .ok overlay => applyBlocks overlay applyList

end Simulation

/-- What a successful reorganisation writes. The accounts come out of a hash map,
so their order is any order. -/
structure Commit where
  accounts : List (Address × Account)
  removed : List UInt64
  canonical : List (UInt64 × Hash256)
  tipHeight : UInt64
  tipHash : Hash256

/-- The writes of a commit, in the order of the four loops. -/
def Commit.writes (m : Commit) : List Write :=
  m.accounts.map (fun p => .setAccount p.1 p.2) ++
  m.removed.map .removeCanonicalHeight ++
  m.canonical.map (fun p => .setCanonicalHeight p.1 p.2) ++
  [.setTip m.tipHeight m.tipHash]

/-- The commit of the overlay and the two paths. -/
def commitOf (overlay : Overlay) (undoList applyList : BlockChain) (newTip : Hash256)
    (newTipHeight : UInt64) : Commit where
  accounts := overlay.entries.map fun e => (e.1, e.2)
  removed := undoList.map (·.2.header.height)
  canonical := applyList.map fun p => (p.2.header.height, p.1)
  tipHeight := newTipHeight
  tipHash := newTip

/-- The transactions of the undone blocks that no applied block contains. -/
def requeueOf (K : Crates) (undoList applyList : BlockChain) : List Transaction :=
  let appliedHashes := applyList.flatMap fun p => p.2.transactions.val.map (·.hash K)
  undoList.flatMap fun p => p.2.transactions.val.filter fun tx => tx.hash K ∉ appliedHashes

/-- `Chain::reconsider_tip`: simulates the undo and apply loops, and only if the
simulation succeeds returns what is to be written and requeued. -/
def reconsiderTip (K : Crates) (g : GenesisConfig) (st : ChainState) (oldTip newTip : Hash256)
    (newTipHeight : UInt64) : Except ChainError (Commit × List Transaction) :=
  match forkPaths st oldTip newTip with
  | .error e => .error e
  | .ok (undoList, applyList) =>
    match applyBlocks K g st (undoBlocks K g st ∅ undoList) applyList with
    | .error e => .error e
    | .ok overlay =>
      .ok (commitOf overlay undoList applyList newTip newTipHeight,
        requeueOf K undoList applyList)

/-! ## Submission -/

/-- What the checks of `submit_block` before its first write come to. -/
inductive Checked
  | done (outcome : SubmitOutcome)
  | store (hash : Hash256) (thisWork : ℕ)

/-- `submit_block` from the dataset to its first write. -/
def checkBlock (K : Crates) (g : GenesisConfig) (st : ChainState) (dataset : Dataset)
    (block : Block) : Except ChainError Checked :=
  let hash := block.header.id K dataset
  if st.hasBlock hash then .ok (.done .alreadyKnown)
  else if block.header.txRoot ≠ block.computeTxRoot K then .error .invalidTxRoot
  else if !meetsTarget hash (targetForDifficulty block.header.difficulty) then
    .error .powTargetMissed
  else if !block.transactions.val.all (·.isSignatureValid K) then .error .invalidSignature
  else match st.getBlock block.header.prevHash with
    | none => .ok (.done (.orphan block.header.prevHash))
    | some parent =>
      if parent.header.height + 1 ≠ block.header.height then
        .error (.heightMismatch block.header.height parent.header.height)
      else match expectedDifficultyAfter g st parent with
        | .error e => .error e
        | .ok expected =>
          if block.header.difficulty ≠ expected then
            .error (.wrongDifficulty block.header.difficulty expected)
          else match st.getChainwork block.header.prevHash with
            | none => .error (.missingChainwork block.header.prevHash)
            | some parentWork => .ok (.store hash (parentWork + blockWork block.header.difficulty))

/-- Everything one call of `submit_block` does: its result, its writes in order,
and the dataset it leaves in memory. -/
structure Submission where
  result : Except ChainError SubmitOutcome
  writes : List Write
  cache : DatasetCache

/-- `Chain::submit_block`. The write lock makes the call atomic for other
submissions. -/
def Chain.submitBlock (K : Crates) (c : Chain) (block : Block) : Submission :=
  if block.header.height = 0 then ⟨.error .secondGenesis, [], c.datasetCache⟩
  else match c.datasetForHeight K block.header.height with
    | (.error e, cache) => ⟨.error e, [], cache⟩
    | (.ok dataset, cache) =>
      match checkBlock K c.genesis c.state dataset block with
      | .error e => ⟨.error e, [], cache⟩
      | .ok (.done outcome) => ⟨.ok outcome, [], cache⟩
      | .ok (.store hash thisWork) =>
        -- the block stays stored even if the call fails after this
        let stored : List Write := [.storeBlock hash block, .setChainwork hash thisWork]
        let st := c.state.writes stored
        match st.tip with
        | none => ⟨.error .notInitialized, stored, cache⟩
        | some (_, tipHash) =>
          match st.getChainwork tipHash with
          | none => ⟨.error .missingTipChainwork, stored, cache⟩
          | some tipWork =>
            -- at equal work the tip stays
            if tipWork < thisWork then
              match reconsiderTip K c.genesis st tipHash hash block.header.height with
              | .error e => ⟨.error e, stored, cache⟩
              | .ok (commit, requeue) =>
                let reorged := tipHash ≠ block.header.prevHash
                ⟨.ok (.accepted hash block.header.height reorged requeue),
                  stored ++ commit.writes, cache⟩
            else ⟨.ok (.sideBranch hash block.header.height), stored, cache⟩

/-- The chain after a submission. -/
def Chain.submit (K : Crates) (c : Chain) (block : Block) : Chain :=
  let s := c.submitBlock K block
  ⟨c.state.writes s.writes, c.genesis, s.cache⟩

end Ondris
