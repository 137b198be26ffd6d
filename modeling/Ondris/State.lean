import Mathlib.Logic.Function.Basic
import Ondris.Genesis

/-!
# The persistent store

The `sled` trees of `ChainState` and the single writes the code issues. A tree
maps keys to decoded values: the keys are injective byte encodings and the
values round-trip through `serde_json`. The mempool tree is kept as the list of
its entries in key order, since the node iterates over it.
-/

namespace Ondris

structure Account where
  balance : UInt64
  /-- Next expected transaction `account_nonce`. -/
  nonce : UInt64
deriving DecidableEq

/-- `Account::default()`. -/
def Account.default : Account := ⟨0, 0⟩

/-- A `sled::Tree`. -/
abbrev Tree (α β : Type) := α → Option β

/-- The mempool tree: pending transactions by hash, in key order. -/
abbrev Mempool := List (Hash256 × Transaction)

structure ChainState where
  accounts : Tree Address Account
  /-- Every block ever stored, canonical or not. -/
  blocks : Tree Hash256 Block
  /-- Height to hash, for the canonical chain only. -/
  heights : Tree UInt64 Hash256
  /-- Cumulative work of every stored block, a `u128`. -/
  chainwork : Tree Hash256 ℕ
  /-- The record under `TIP_KEY`. -/
  tip : Option (UInt64 × Hash256)
  mempool : Mempool

/-- One `insert` or `remove` of a tree. -/
inductive Write
  | setAccount (addr : Address) (account : Account)
  | storeBlock (hash : Hash256) (block : Block)
  | setCanonicalHeight (height : UInt64) (hash : Hash256)
  | removeCanonicalHeight (height : UInt64)
  | setChainwork (hash : Hash256) (work : ℕ)
  | setTip (height : UInt64) (hash : Hash256)
  | mempoolInsert (hash : Hash256) (tx : Transaction)
  | mempoolRemove (hash : Hash256)
deriving DecidableEq

namespace Mempool

/-- Insertion in key order; an entry under the same key is overwritten. -/
def insert (hash : Hash256) (tx : Transaction) : Mempool → Mempool
  | [] => [(hash, tx)]
  | e :: pool =>
    if hash = e.1 then (hash, tx) :: pool
    else if hash.asBytes < e.1.asBytes then (hash, tx) :: e :: pool
    else e :: insert hash tx pool

def remove (hash : Hash256) (pool : Mempool) : Mempool := pool.filter fun e => e.1 ≠ hash

end Mempool

namespace ChainState

/-- The store of a data directory that was never opened. -/
def empty : ChainState :=
  ⟨fun _ => none, fun _ => none, fun _ => none, fun _ => none, none, []⟩

def write (st : ChainState) : Write → ChainState
  | .setAccount addr account =>
    { st with accounts := Function.update st.accounts addr (some account) }
  | .storeBlock hash block => { st with blocks := Function.update st.blocks hash (some block) }
  | .setCanonicalHeight height hash =>
    { st with heights := Function.update st.heights height (some hash) }
  | .removeCanonicalHeight height =>
    { st with heights := Function.update st.heights height none }
  | .setChainwork hash work => { st with chainwork := Function.update st.chainwork hash (some work) }
  | .setTip height hash => { st with tip := some (height, hash) }
  | .mempoolInsert hash tx => { st with mempool := st.mempool.insert hash tx }
  | .mempoolRemove hash => { st with mempool := st.mempool.remove hash }

def writes (st : ChainState) (ws : List Write) : ChainState := ws.foldl write st

@[simp] theorem writes_nil (st : ChainState) : st.writes [] = st := rfl

@[simp] theorem writes_cons (st : ChainState) (w : Write) (ws : List Write) :
    st.writes (w :: ws) = (st.write w).writes ws := rfl

@[simp] theorem writes_append (st : ChainState) (ws vs : List Write) :
    st.writes (ws ++ vs) = (st.writes ws).writes vs :=
  List.foldl_append

/-! ## Reads -/

def getAccount (st : ChainState) (addr : Address) : Account :=
  (st.accounts addr).getD Account.default

def hasBlock (st : ChainState) (hash : Hash256) : Bool := (st.blocks hash).isSome

def getBlock (st : ChainState) (hash : Hash256) : Option Block := st.blocks hash

def getChainwork (st : ChainState) (hash : Hash256) : Option ℕ := st.chainwork hash

def getHashByHeight (st : ChainState) (height : UInt64) : Option Hash256 := st.heights height

def getBlockByHeight (st : ChainState) (height : UInt64) : Option Block :=
  (st.getHashByHeight height).bind st.getBlock

/-- `credit`: the write that adds `amount` to the account. -/
def credit (st : ChainState) (addr : Address) (amount : UInt64) : Write :=
  let acc := st.getAccount addr
  .setAccount addr { acc with balance := satAdd acc.balance amount }

/-- `mempool_all`: the pending transactions in key order. Collecting more than a
vector can hold aborts. -/
def mempoolAll (st : ChainState) : Option TxVec :=
  let txs := st.mempool.map (·.2)
  if h : txs.length < 2 ^ 53 then some ⟨txs, h⟩ else none

end ChainState

end Ondris
