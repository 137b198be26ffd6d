import Ondris.Atomicity
import Ondris.Crash
import Ondris.Lib.Attempts
import Ondris.Lib.OrderedMap
import Ondris.NodeRuns
import Ondris.Template
import Ondris.Wire

/-!
# The store as bytes

`state.rs` over the trees of `sled`: keys and values are byte strings, hashes and addresses
as they are, heights and works big-endian, everything else JSON. A read decodes what it
finds: `serde_json::from_slice` may fail, and `copy_from_slice` aborts on a value of another
length. The JSON parser is a parameter; errors of the disk are left aside.

Results:
1. `Represents.write`: each write keeps the bytes in step with the store.
2. `Represents.reads`: then every read gives what the store holds.
3. `Represents.ordered`: the mempool is in the order of the hashes.
4. `disk_exact`: so it is in every run, at every point between two writes.
5. `compactJson_lawful`: what is written as JSON has one reading.
-/

namespace Ondris

open Encoding OrderedMap

/-! ## Definitions -/

/-- A `sled::Tree`. -/
abbrev SledTree := OrderedMap Bytes Bytes

/-- `ChainState`: the trees of the database. -/
structure Disk where
  accounts : SledTree
  blocks : SledTree
  heights : SledTree
  chainwork : SledTree
  /-- The tree `meta`. -/
  metaTree : SledTree
  mempool : SledTree

/-- `serde_json::from_slice` for the four types that are stored as JSON. -/
structure Json where
  account : Bytes → Option Account
  tip : Bytes → Option (UInt64 × Hash256)
  block : Bytes → Option Block
  transaction : Bytes → Option Transaction

inductive DiskError
  /-- The error of `serde_json::from_slice`. -/
  | json
deriving DecidableEq

/-- `serde_json::to_vec` of an `Account`. -/
def accountJson (a : Account) : Bytes :=
  ascii "\x7b\"balance\":" ++ decimal a.balance.toNat ++ ascii ",\"nonce\":" ++
    decimal a.nonce.toNat ++ ascii "\x7d"

/-- `serde_json::to_vec` of a `Tip`. -/
def tipJson (tip : UInt64 × Hash256) : Bytes :=
  ascii "\x7b\"height\":" ++ decimal tip.1.toNat ++ ascii ",\"hash\":" ++
    Network.jsonHash tip.2 ++ ascii "\x7d"

/-- What `serde_json` promises: it parses what it has written. -/
structure Json.Lawful (J : Json) : Prop where
  account : ∀ a, J.account (accountJson a) = some a
  tip : ∀ t, J.tip (tipJson t) = some t
  block : ∀ b, J.block (Network.blockJson b) = some b
  transaction : ∀ tx, J.transaction tx.toJson = some tx

/-- `TIP_KEY`. -/
def tipKey : Bytes := ascii "tip"

/-- `u64::to_be_bytes` of a height. -/
def heightKey (height : UInt64) : Bytes := beBytes 8 height.toNat

namespace Disk

/-- A database that was never opened. -/
def empty : Disk := ⟨.empty, .empty, .empty, .empty, .empty, .empty⟩

/-! ### Writes -/

def mempoolInsert (K : Crates) (d : Disk) (tx : Transaction) : Disk :=
  { d with mempool := d.mempool.insert (tx.hash K).asBytes tx.toJson }

def mempoolRemove (d : Disk) (txHash : Hash256) : Disk :=
  { d with mempool := d.mempool.remove txHash.asBytes }

def setAccount (d : Disk) (addr : Address) (account : Account) : Disk :=
  { d with accounts := d.accounts.insert addr.asBytes (accountJson account) }

def setTip (d : Disk) (height : UInt64) (hash : Hash256) : Disk :=
  { d with metaTree := d.metaTree.insert tipKey (tipJson (height, hash)) }

def storeBlock (d : Disk) (hash : Hash256) (block : Block) : Disk :=
  { d with blocks := d.blocks.insert hash.asBytes (Network.blockJson block) }

/-- `work` is a `u128`. -/
def setChainwork (d : Disk) (hash : Hash256) (work : ℕ) : Disk :=
  { d with chainwork := d.chainwork.insert hash.asBytes (beBytes 16 (work % 2 ^ 128)) }

def setCanonicalHeight (d : Disk) (height : UInt64) (hash : Hash256) : Disk :=
  { d with heights := d.heights.insert (heightKey height) hash.asBytes }

def removeCanonicalHeight (d : Disk) (height : UInt64) : Disk :=
  { d with heights := d.heights.remove (heightKey height) }

/-- The call that makes a write. -/
def write (K : Crates) (d : Disk) : Write → Disk
  | .setAccount addr account => d.setAccount addr account
  | .storeBlock hash block => d.storeBlock hash block
  | .setCanonicalHeight height hash => d.setCanonicalHeight height hash
  | .removeCanonicalHeight height => d.removeCanonicalHeight height
  | .setChainwork hash work => d.setChainwork hash work
  | .setTip height hash => d.setTip height hash
  | .mempoolInsert _ tx => d.mempoolInsert K tx
  | .mempoolRemove hash => d.mempoolRemove hash

def writes (K : Crates) (d : Disk) (ws : List Write) : Disk := ws.foldl (write K) d

/-! ### Reads -/

variable (J : Json)

def mempoolAll (d : Disk) : Attempt DiskError (List Transaction) :=
  d.mempool.entries.mapM fun e => Attempt.orFail .json (J.transaction e.2)

def getAccount (d : Disk) (addr : Address) : Attempt DiskError Account :=
  match d.accounts.get addr.asBytes with
  | some bytes => Attempt.orFail .json (J.account bytes)
  | none => Attempt.ok Account.default

def tip (d : Disk) : Attempt DiskError (Option (UInt64 × Hash256)) :=
  match d.metaTree.get tipKey with
  | some bytes => do
    let t ← Attempt.orFail .json (J.tip bytes)
    Attempt.ok (some t)
  | none => Attempt.ok none

def hasBlock (d : Disk) (hash : Hash256) : Bool := (d.blocks.get hash.asBytes).isSome

def getBlock (d : Disk) (hash : Hash256) : Attempt DiskError (Option Block) :=
  match d.blocks.get hash.asBytes with
  | some bytes => do
    let block ← Attempt.orFail .json (J.block bytes)
    Attempt.ok (some block)
  | none => Attempt.ok none

def getChainwork (d : Disk) (hash : Hash256) : Attempt DiskError (Option ℕ) :=
  match d.chainwork.get hash.asBytes with
  | some bytes => if bytes.length = 16 then Attempt.ok (some (beNat bytes)) else Attempt.abort
  | none => Attempt.ok none

def getHashByHeight (d : Disk) (height : UInt64) : Attempt DiskError (Option Hash256) :=
  match d.heights.get (heightKey height) with
  | some bytes => if h : bytes.length = 32 then Attempt.ok (some ⟨⟨bytes, h⟩⟩) else Attempt.abort
  | none => Attempt.ok none

def getBlockByHeight (d : Disk) (height : UInt64) : Attempt DiskError (Option Block) := do
  match ← d.getHashByHeight height with
  | some hash => d.getBlock J hash
  | none => Attempt.ok none

/-- `credit`, which reads the account it writes. -/
def credit (d : Disk) (addr : Address) (amount : UInt64) : Attempt DiskError Disk := do
  let acc ← d.getAccount J addr
  Attempt.ok (d.setAccount addr { acc with balance := satAdd acc.balance amount })

end Disk

/-- Every read succeeds, with what the store holds. -/
structure ReadsAs (K : Crates) (J : Json) (d : Disk) (st : ChainState) : Prop where
  mempoolAll : d.mempoolAll J = .ok (st.mempool.map Prod.snd)
  getAccount : ∀ addr, d.getAccount J addr = .ok (st.getAccount addr)
  tip : d.tip J = .ok st.tip
  hasBlock : ∀ hash, d.hasBlock hash = st.hasBlock hash
  getBlock : ∀ hash, d.getBlock J hash = .ok (st.getBlock hash)
  getChainwork : ∀ hash, d.getChainwork hash = .ok (st.getChainwork hash)
  getHashByHeight : ∀ height, d.getHashByHeight height = .ok (st.getHashByHeight height)
  getBlockByHeight : ∀ height, d.getBlockByHeight J height = .ok (st.getBlockByHeight height)
  credit : ∀ addr amount, d.credit J addr amount = .ok (d.write K (st.credit addr amount))

/-- The bytes are those of the store. -/
structure Represents (K : Crates) (d : Disk) (st : ChainState) : Prop where
  accounts : Encodes Address.asBytes accountJson st.accounts d.accounts
  blocks : Encodes Hash256.asBytes Network.blockJson st.blocks d.blocks
  heights : Encodes heightKey Hash256.asBytes st.heights d.heights
  chainwork : Encodes Hash256.asBytes (beBytes 16) st.chainwork d.chainwork
  small : ∀ hash work, st.chainwork hash = some work → work < 2 ^ 128
  tip : d.metaTree.get tipKey = st.tip.map tipJson
  mempool : d.mempool.entries = st.mempool.map fun e => (e.1.asBytes, e.2.toJson)
  keyed : ∀ e ∈ st.mempool, e.1 = e.2.hash K

/-- A write that the code makes: works fit `u128`, a transaction is under its own hash. -/
def Write.Fits (K : Crates) : Write → Prop
  | .setChainwork _ work => work < 2 ^ 128
  | .mempoolInsert hash tx => hash = tx.hash K
  | _ => True

variable {K : Crates} {g : GenesisConfig} {J : Json} {d : Disk} {st : ChainState}

/-! ## Keys -/

theorem asBytes_hash_injective : Function.Injective Hash256.asBytes :=
  fun _ _ h => Hash256.asBytes_injective h

theorem asBytes_address_injective : Function.Injective Address.asBytes :=
  fun _ _ h => Address.asBytes_injective h

theorem heightKey_injective : Function.Injective heightKey := by
  intro m n h
  have hnat := congrArg beNat h
  rw [heightKey, heightKey, beNat_beBytes m.toNat_lt, beNat_beBytes n.toNat_lt] at hnat
  exact UInt64.toNat_inj.mp hnat

/-- Both keep the order of the hashes. -/
theorem mempool_insert (pool : Mempool) (hash : Hash256) (tx : Transaction) :
    (pool.insert hash tx).map (fun e => (e.1.asBytes, e.2.toJson))
      = insertEntry hash.asBytes tx.toJson
          (pool.map fun e => (e.1.asBytes, e.2.toJson)) := by
  induction pool with
  | nil => rfl
  | cons e pool ih =>
    rw [List.map_cons]
    unfold Mempool.insert insertEntry
    by_cases heq : hash = e.1
    · rw [if_pos heq, if_pos (congrArg Hash256.asBytes heq), List.map_cons]
    · rw [if_neg heq, if_neg (asBytes_hash_injective.ne heq)]
      split
      · rw [List.map_cons, List.map_cons]
      · rw [List.map_cons, ih]

theorem mempool_remove (pool : Mempool) (hash : Hash256) :
    (pool.remove hash).map (fun e => (e.1.asBytes, e.2.toJson))
      = removeEntry hash.asBytes (pool.map fun e => (e.1.asBytes, e.2.toJson)) := by
  rw [Mempool.remove, removeEntry, List.filter_map]
  congr 1
  refine List.filter_congr fun e _ => ?_
  exact decide_eq_decide.mpr asBytes_hash_injective.ne_iff.symm

/-! ## Writes -/

theorem Represents.empty : Represents K Disk.empty ChainState.empty where
  accounts := encodes_empty
  blocks := encodes_empty
  heights := encodes_empty
  chainwork := encodes_empty
  small _ _ h := by cases h
  tip := rfl
  mempool := rfl
  keyed _ he := absurd he List.not_mem_nil

/-- A write changes one tree, in the same way on both sides. -/
theorem Represents.write (h : Represents K d st) {w : Write} (hw : w.Fits K) :
    Represents K (d.write K w) (st.write w) := by
  cases w with
  | setAccount addr account =>
    exact { h with accounts := h.accounts.insert asBytes_address_injective addr account }
  | storeBlock hash block =>
    exact { h with blocks := h.blocks.insert asBytes_hash_injective hash block }
  | setCanonicalHeight height hash =>
    exact { h with heights := h.heights.insert heightKey_injective height hash }
  | removeCanonicalHeight height =>
    exact { h with heights := h.heights.remove heightKey_injective height }
  | setChainwork hash work =>
    refine { h with chainwork := ?_, small := fun k v hv => ?_ }
    · have hwork : work % 2 ^ 128 = work := Nat.mod_eq_of_lt hw
      show Encodes _ _ _ (d.chainwork.insert hash.asBytes (beBytes 16 (work % 2 ^ 128)))
      rw [hwork]
      exact h.chainwork.insert asBytes_hash_injective hash work
    · by_cases hk : k = hash
      · subst hk
        have hv' : Function.update st.chainwork k (some work) k = some v := hv
        rw [Function.update_self] at hv'
        exact Option.some.inj hv' ▸ hw
      · refine h.small k v ?_
        rw [← Function.update_of_ne hk (some work) st.chainwork]
        exact hv
  | setTip height hash =>
    refine { h with tip := ?_ }
    show (d.metaTree.insert tipKey (tipJson (height, hash))).get tipKey = _
    rw [get_insert, if_pos rfl]
    rfl
  | mempoolInsert hash tx =>
    have hkey : hash = tx.hash K := hw
    refine { h with mempool := ?_, keyed := fun e he => ?_ }
    · show insertEntry (tx.hash K).asBytes tx.toJson d.mempool.entries = _
      rw [h.mempool, ← hkey]
      exact (mempool_insert st.mempool hash tx).symm
    · rcases Mempool.mem_insert he with rfl | he
      · exact hkey
      · exact h.keyed e he
  | mempoolRemove hash =>
    refine { h with mempool := ?_, keyed := fun e he => h.keyed e (List.mem_of_mem_filter he) }
    show removeEntry hash.asBytes d.mempool.entries = _
    rw [h.mempool]
    exact (mempool_remove st.mempool hash).symm

theorem Represents.writes (h : Represents K d st) {ws : List Write} (hws : ∀ w ∈ ws, w.Fits K) :
    Represents K (d.writes K ws) (st.writes ws) := by
  induction ws generalizing d st with
  | nil => exact h
  | cons w ws ih =>
    exact ih (h.write (hws w List.mem_cons_self)) fun v hv => hws v (List.mem_cons_of_mem w hv)

/-! ## Reads -/

section Reads

variable (hJ : J.Lawful) (h : Represents K d st)
include h

theorem Represents.getHashByHeight (height : UInt64) :
    d.getHashByHeight height = .ok (st.getHashByHeight height) := by
  rw [Disk.getHashByHeight, h.heights height, ChainState.getHashByHeight]
  cases st.heights height with
  | none => rfl
  | some hash =>
    simp only [Option.map_some]
    exact (dif_pos hash.length_asBytes).trans rfl

theorem Represents.getChainwork (hash : Hash256) :
    d.getChainwork hash = .ok (st.getChainwork hash) := by
  rw [Disk.getChainwork, h.chainwork hash, ChainState.getChainwork]
  cases hwork : st.chainwork hash with
  | none => rfl
  | some work =>
    simp only [Option.map_some]
    rw [if_pos (length_beBytes 16 work), beNat_beBytes (h.small hash work hwork)]

include hJ

theorem Represents.getAccount (addr : Address) : d.getAccount J addr = .ok (st.getAccount addr) := by
  rw [Disk.getAccount, h.accounts addr, ChainState.getAccount]
  cases st.accounts addr with
  | none => rfl
  | some account =>
    simp only [Option.map_some, hJ.account]
    rfl

theorem Represents.getTip : d.tip J = .ok st.tip := by
  rw [Disk.tip, h.tip]
  cases st.tip with
  | none => rfl
  | some tip =>
    simp only [Option.map_some, hJ.tip]
    rfl

theorem Represents.getBlock (hash : Hash256) : d.getBlock J hash = .ok (st.getBlock hash) := by
  rw [Disk.getBlock, h.blocks hash, ChainState.getBlock]
  cases st.blocks hash with
  | none => rfl
  | some block =>
    simp only [Option.map_some, hJ.block]
    rfl

theorem Represents.mempoolAll : d.mempoolAll J = .ok (st.mempool.map Prod.snd) := by
  rw [Disk.mempoolAll, h.mempool, List.mapM_map]
  refine Attempt.mapM_ok fun e _ => ?_
  show (Attempt.orFail .json (J.transaction e.2.toJson) : Attempt DiskError _) = _
  rw [hJ.transaction]
  rfl

/-- Every read of the bytes gives what the store holds. -/
theorem Represents.reads : ReadsAs K J d st where
  mempoolAll := h.mempoolAll hJ
  getAccount := h.getAccount hJ
  tip := h.getTip hJ
  hasBlock hash := by
    rw [Disk.hasBlock, h.blocks hash, ChainState.hasBlock, Option.isSome_map]
  getBlock := h.getBlock hJ
  getChainwork := h.getChainwork
  getHashByHeight := h.getHashByHeight
  getBlockByHeight height := by
    rw [Disk.getBlockByHeight, h.getHashByHeight height, Attempt.ok_bind,
      ChainState.getBlockByHeight]
    cases st.getHashByHeight height with
    | none => rfl
    | some hash => exact h.getBlock hJ hash
  credit addr amount := by
    rw [Disk.credit, h.getAccount hJ addr]
    rfl

end Reads

/-- The order of the tree is that of the hashes. -/
theorem Represents.ordered (h : Represents K d st) :
    (st.mempool.map Prod.snd).Pairwise fun tx tx' => (tx.hash K).asBytes < (tx'.hash K).asBytes := by
  have hentries := d.mempool.ordered
  rw [h.mempool, List.pairwise_map] at hentries
  rw [List.pairwise_map]
  refine hentries.imp_of_mem fun {e f} he hf hlt => ?_
  rw [← h.keyed e he, ← h.keyed f hf]
  exact hlt

/-! ## Runs -/

/-- A call that writes to the store. -/
inductive StoreCall
  | submitBlock (block : Block)
  | mempoolInsert (tx : Transaction)
  | mempoolRemove (txHash : Hash256)

/-- The writes of a call. -/
def StoreCall.writes (K : Crates) (c : Chain) : StoreCall → List Write
  | .submitBlock block => (c.submitBlock K block).writes
  | .mempoolInsert tx => [.mempoolInsert (tx.hash K) tx]
  | .mempoolRemove txHash => [.mempoolRemove txHash]

/-- The chain after a call. -/
def StoreCall.after (K : Crates) (c : Chain) : StoreCall → Chain
  | .submitBlock block => c.submit K block
  | call => { c with state := c.state.writes (call.writes K c) }

/-- A chain on a new data directory, with the bytes that its writes leave: calls with the
writes that they issue. -/
def diskMachine (K : Crates) (g : GenesisConfig) :
    Machine (Chain × Disk) (StoreCall × List Write) Unit where
  init s := ∃ ws, openWrites K g ChainState.empty = .ok ws ∧
    s = (⟨ChainState.empty.writes ws, g, none⟩, Disk.empty.writes K ws)
  step s i := ({ i.1.after K s.1 with state := s.1.state.writes i.2 }, s.2.writes K i.2)
  out _ _ := ()

/-- A call issues its own writes, those to accounts in any order. -/
def Issues (K : Crates) (s : Chain × Disk) (i : StoreCall × List Write) : Prop :=
  Shuffles (i.1.writes K s.1) i.2

theorem StoreCall.state_after (c : Chain) (call : StoreCall) :
    (call.after K c).state = c.state.writes (call.writes K c) := by
  cases call with
  | submitBlock block => rfl
  | mempoolInsert tx => rfl
  | mempoolRemove txHash => rfl

theorem StoreCall.chainInv {c : Chain} (h : ChainInv K g c) (call : StoreCall) :
    ChainInv K g (call.after K c) := by
  cases call with
  | submitBlock block => exact h.submit block
  | mempoolInsert tx => exact h.congr rfl rfl rfl
  | mempoolRemove txHash => exact h.congr rfl rfl rfl

/-- The works of a branch fit 128 bits, since there are no more blocks than heights. -/
theorem branchWork_fits {l : BlockChain} (h : l.length < 2 ^ 64) : branchWork l < 2 ^ 128 := by
  have hle : branchWork l ≤ l.length * 2 ^ 64 := by
    clear h
    induction l with
    | nil => exact Nat.zero_le _
    | cons p l ih =>
      have hone : blockWork p.2.header.difficulty < 2 ^ 64 := p.2.header.difficulty.toNat_lt
      rw [branchWork_cons, List.length_cons]
      omega
  calc branchWork l ≤ l.length * 2 ^ 64 := hle
    _ < 2 ^ 64 * 2 ^ 64 := Nat.mul_lt_mul_of_pos_right h (by decide)
    _ = 2 ^ 128 := by decide

theorem fits_creditAll {ps : List (Address × UInt64)} {w : Write} (hw : w ∈ creditAll st ps) :
    w.Fits K := by
  obtain ⟨addr, a, rfl⟩ := mem_creditAll hw
  trivial

theorem fits_openWrites {ws : List Write} (hws : openWrites K g ChainState.empty = .ok ws) :
    ∀ w ∈ ws, w.Fits K := by
  obtain ⟨ps, -, rfl⟩ := initGenesis_cases hws
  intro w hw
  rcases List.mem_append.mp hw with hw | hw
  · exact fits_creditAll hw
  · simp only [genesisWrites, List.mem_cons, List.not_mem_nil, or_false] at hw
    rcases hw with rfl | rfl | rfl | rfl
    · exact lt_of_lt_of_le g.initialDifficulty.toNat_lt (by decide)
    · trivial
    · trivial
    · trivial

theorem fits_commit {m : Commit} {w : Write} (hw : w ∈ m.writes) : w.Fits K := by
  simp only [Commit.writes, List.mem_append, List.mem_map, List.mem_singleton] at hw
  rcases hw with ((⟨p, -, rfl⟩ | ⟨i, -, rfl⟩) | ⟨p, -, rfl⟩) | rfl
  · trivial
  · trivial
  · trivial
  · trivial

/-- Whatever is submitted, its writes fit. -/
theorem StoreCall.fits {c : Chain} (h : ChainInv K g c) (call : StoreCall) :
    ∀ w ∈ call.writes K c, w.Fits K := by
  cases call with
  | mempoolInsert tx =>
    intro w hw
    rw [List.mem_singleton.mp hw]
    rfl
  | mempoolRemove txHash =>
    intro w hw
    rw [List.mem_singleton.mp hw]
    trivial
  | submitBlock block =>
    show ∀ w ∈ (c.submitBlock K block).writes, w.Fits K
    obtain ⟨n, t, lo, hcan⟩ := h.canonical
    have hstore : ∀ {lp a p s}, Placement K g c.state lo block lp a p s →
        ∀ w ∈ storeWrites (blockId K block) block (branchWork ((blockId K block, block) :: lp)),
          w.Fits K := by
      intro lp a p s hpl w hw
      rcases List.mem_cons.mp hw with rfl | hw
      · trivial
      · rw [List.mem_singleton.mp hw]
        refine branchWork_fits ?_
        have hlen := h.stored.length_le hpl.parent
        rw [toNat_epochLength] at hlen
        rw [List.length_cons]
        omega
    rcases submitBlock_writes h hcan block with
      ⟨-, hws⟩ | ⟨lp, a, p, s, hpl, ⟨-, hws⟩ | ⟨overlay, -, -, hws⟩⟩
    · rw [hws]
      exact fun w hw => absurd hw List.not_mem_nil
    · rw [hws]
      exact hstore hpl
    · rw [hws]
      intro w hw
      rcases List.mem_append.mp hw with hw | hw
      · exact hstore hpl w hw
      · exact fits_commit hw

theorem Issues.fits {s : Chain × Disk} {i : StoreCall × List Write} (h : Issues K s i)
    (hinv : ChainInv K g s.1) : ∀ w ∈ i.2, w.Fits K :=
  fun w hw => i.1.fits hinv w (h.1.mem_iff.mp hw)

/-- The order of the account writes does not matter to the store. -/
theorem Issues.writes {s : Chain × Disk} {i : StoreCall × List Write} (h : Issues K s i)
    (hinv : ChainInv K g s.1) : s.1.state.writes i.2 = (i.1.after K s.1).state := by
  obtain ⟨call, ws⟩ := i
  cases call with
  | submitBlock block => exact Issued.writes hinv h
  | mempoolInsert tx =>
    obtain rfl : ws = [_] := List.perm_singleton.mp h.1
    rfl
  | mempoolRemove txHash =>
    obtain rfl : ws = [_] := List.perm_singleton.mp h.1
    rfl

theorem Issues.step {s : Chain × Disk} {i : StoreCall × List Write} (h : Issues K s i)
    (hinv : ChainInv K g s.1) :
    (diskMachine K g).step s i = (i.1.after K s.1, s.2.writes K i.2) := by
  show (({ i.1.after K s.1 with state := s.1.state.writes i.2 } : Chain), s.2.writes K i.2) = _
  rw [h.writes hinv]

/-- The chain is sound, and the bytes are its store. -/
theorem represents {s : Chain × Disk} (hs : (diskMachine K g).Reach (Issues K) s) :
    ChainInv K g s.1 ∧ Represents K s.2 s.1.state := by
  refine Machine.Reach.invariant (P := fun s => ChainInv K g s.1 ∧ Represents K s.2 s.1.state)
    (fun s hinit => ?_) (fun s i _ hi ih => ?_) hs
  · obtain ⟨ws, hws, rfl⟩ := hinit
    refine ⟨chainInv (.init ?_), Represents.empty.writes (fits_openWrites hws)⟩
    show Chain.openDb K g ChainState.empty = _
    rw [Chain.openDb, hws]
  · rw [hi.step ih.1]
    refine ⟨i.1.chainInv ih.1, ?_⟩
    rw [← hi.writes ih.1]
    exact ih.2.writes (hi.fits ih.1)

/-- The bytes of every run can be read, at every point between two writes of a call. -/
theorem readsAs (hJ : J.Lawful) {s : Chain × Disk} (hs : (diskMachine K g).Reach (Issues K) s)
    {i : StoreCall × List Write} (hi : Issues K s i) (k : ℕ) :
    ReadsAs K J (s.2.writes K (i.2.take k)) (s.1.state.writes (i.2.take k)) := by
  obtain ⟨hinv, hrep⟩ := represents hs
  have hfits := hi.fits hinv
  exact (hrep.writes fun w hw => hfits w (List.mem_of_mem_take hw)).reads hJ

/-! ## Nodes -/

/-- The store is one that a run of calls leaves. -/
def OnDisk (K : Crates) (g : GenesisConfig) (st : ChainState) : Prop :=
  ∃ s, (diskMachine K g).Reach (Issues K) s ∧ s.1.state = st

/-- What a call writes depends on the store only. -/
theorem StoreCall.writes_congr {c c' : Chain} (hc : ChainInv K g c) (hc' : ChainInv K g c')
    (hst : c.state = c'.state) (call : StoreCall) : call.writes K c = call.writes K c' := by
  cases call with
  | submitBlock block => exact (submitBlock_congr hc hc' hst block).2
  | mempoolInsert tx => rfl
  | mempoolRemove txHash => rfl

theorem OnDisk.call {c : Chain} (hc : ChainInv K g c) (h : OnDisk K g c.state) (call : StoreCall) :
    OnDisk K g (call.after K c).state := by
  obtain ⟨s, hs, hst⟩ := h
  have hi : Issues K s (call, call.writes K s.1) := ⟨.refl _, rfl⟩
  refine ⟨_, .step _ hs hi, ?_⟩
  rw [hi.step (represents hs).1, call.state_after, call.state_after,
    call.writes_congr (represents hs).1 hc hst, hst]

/-- Writes that are calls of their own. -/
theorem OnDisk.writes {ws : List Write} {c : Chain} (hc : ChainInv K g c) (h : OnDisk K g c.state)
    (hws : ∀ w ∈ ws, ∃ call : StoreCall, ∀ c : Chain,
      call.after K c = { c with state := c.state.write w }) :
    OnDisk K g (c.state.writes ws) := by
  induction ws generalizing c with
  | nil => exact h
  | cons w ws ih =>
    obtain ⟨call, hcall⟩ := hws w List.mem_cons_self
    have hrest := ih (call.chainInv hc) (h.call hc call) fun v hv =>
      hws v (List.mem_cons_of_mem w hv)
    rw [hcall] at hrest
    exact hrest

/-- What leaves and enters the mempool after a block. -/
theorem OnDisk.mempoolWrites {c : Chain} (hc : ChainInv K g c) (h : OnDisk K g c.state)
    (block : Block) (requeue : List Transaction) :
    OnDisk K g (c.state.writes (Node.mempoolWrites K block requeue)) := by
  refine h.writes hc fun w hw => ?_
  rcases List.mem_append.mp hw with hw | hw
  · obtain ⟨tx, -, rfl⟩ := List.mem_map.mp hw
    exact ⟨.mempoolRemove (tx.hash K), fun _ => rfl⟩
  · obtain ⟨tx, -, rfl⟩ := List.mem_map.mp hw
    exact ⟨.mempoolInsert tx, fun _ => rfl⟩

theorem OnDisk.retry {node : Node} (hc : ChainInv K g node.chain) (h : OnDisk K g node.chain.state)
    (b : Block) : OnDisk K g (node.retry K b).1.chain.state := by
  have hsubmit : OnDisk K g (node.chain.submit K b).state := h.call hc (.submitBlock b)
  by_cases hacc : ∃ hash height reorged requeue,
      (node.chain.submitBlock K b).result = .ok (.accepted hash height reorged requeue)
  · obtain ⟨hash, height, reorged, requeue, hres⟩ := hacc
    rw [state_retry_accepted hres]
    exact hsubmit.mempoolWrites (hc.submit b) b requeue
  · rw [state_retry_of_not_accepted fun hash height reorged requeue hres =>
      hacc ⟨hash, height, reorged, requeue, hres⟩]
    exact hsubmit

/-- A block and all the orphans that it wakes. -/
theorem OnDisk.accept {node : Node} (hc : ChainInv K g node.chain)
    (h : OnDisk K g node.chain.state) (b : Block) :
    OnDisk K g (node.acceptAndBroadcast K b).1.chain.state := by
  obtain ⟨-, hend⟩ := (node.loop_acceptAndBroadcast b).invariant (Q := fun _ => True)
    (I := fun m _ _ => ChainInv K g m.chain ∧ OnDisk K g m.chain.state)
    (fun m i _ _ _ ⟨hinv, hm⟩ => ⟨hinv.retry i, hm.retry hinv i⟩)
    (fun m k _ hm => hm) (fun _ _ => trivial) ⟨hc, h⟩
  exact hend

/-- All that a node writes goes through these calls. -/
theorem onDisk {node : Node} (hn : (nodeMachine K g).Reachable node) :
    OnDisk K g node.chain.state := by
  refine Machine.Reach.invariant (P := fun node => OnDisk K g node.chain.state)
    (fun node hinit => ?_) (fun node i hr _ ih => ?_) hn
  · obtain ⟨c, hc, rfl⟩ := hinit
    obtain ⟨ws, hws, rfl⟩ := openDb_cases hc
    exact ⟨_, .init ⟨ws, hws, rfl⟩, rfl⟩
  · have hinv := nodeInv hr
    rcases node_step_cases hinv i with hidle | ⟨tx, -, -, hst⟩ | ⟨b, -, hst⟩
    · rw [hidle.state]
      exact ih
    · rw [hst]
      exact ih.call hinv.chain (.mempoolInsert tx)
    · rw [hst]
      exact ih.accept hinv.chain b

/-- **The bytes on disk are the store.** In every run of calls on a new data directory, their
account writes in any order, and at every point between two writes of a call, every read finds bytes that it can decode, and gives
what the store holds. The store of every node, restarts included, is that of such a run, and
`mempool_all` gives the pending transactions in ascending order of their hashes, each once. -/
theorem disk_exact (hJ : J.Lawful) :
    (∀ s, (diskMachine K g).Reach (Issues K) s → ∀ i, Issues K s i → ∀ k,
      ReadsAs K J (s.2.writes K (i.2.take k)) (s.1.state.writes (i.2.take k))) ∧
    ∀ node, (nodeMachine K g).Reachable node →
      ∃ s, (diskMachine K g).Reach (Issues K) s ∧ s.1.state = node.chain.state ∧
        ReadsAs K J s.2 node.chain.state ∧
        (node.chain.state.mempool.map Prod.snd).Pairwise fun tx tx' =>
          (tx.hash K).asBytes < (tx'.hash K).asBytes := by
  refine ⟨fun s hs i hi k => readsAs hJ hs hi k, fun node hn => ?_⟩
  obtain ⟨s, hs, hst⟩ := onDisk hn
  have hrep : Represents K s.2 node.chain.state := hst ▸ (represents hs).2
  exact ⟨s, hs, hst, hrep.reads hJ, hrep.ordered⟩

/-! ## A parser of compact JSON -/

theorem accountJson_injective : Function.Injective accountJson := by
  intro a a' h
  unfold accountJson at h
  simp only [List.append_assoc] at h
  have hcomma : (44 : UInt8) < 48 ∨ 57 < (44 : UInt8) := by decide
  obtain ⟨-, h⟩ := List.append_inj h rfl
  obtain ⟨hbalance, h⟩ := decimal_append_inj hcomma h
  obtain ⟨-, h⟩ := List.append_inj h rfl
  have hnonce := decimal_injective (List.append_inj_left' h rfl)
  cases a
  cases a'
  simp only at hbalance hnonce
  rw [UInt64.toNat_inj.mp hbalance, UInt64.toNat_inj.mp hnonce]

theorem tipJson_injective : Function.Injective tipJson := by
  intro t t' h
  unfold tipJson at h
  simp only [List.append_assoc] at h
  have hcomma : (44 : UInt8) < 48 ∨ 57 < (44 : UInt8) := by decide
  obtain ⟨-, h⟩ := List.append_inj h rfl
  obtain ⟨hheight, h⟩ := decimal_append_inj hcomma h
  obtain ⟨-, h⟩ := List.append_inj h rfl
  exact Prod.ext (UInt64.toNat_inj.mp hheight) (jsonHash_append_inj h).1

/-- It parses what is written and nothing else. -/
noncomputable def compactJson : Json where
  account := Function.partialInv accountJson
  tip := Function.partialInv tipJson
  block := Function.partialInv Network.blockJson
  transaction := Function.partialInv Transaction.toJson

theorem compactJson_lawful : compactJson.Lawful where
  account := Function.partialInv_left accountJson_injective
  tip := Function.partialInv_left tipJson_injective
  block := Function.partialInv_left blockJson_injective
  transaction := Function.partialInv_left fun _ _ h => toJson_injective h

/-- A block that is handed to a node with two pending transactions, on disk. -/
theorem disk_exact_ordered :
    orderedNode.chain.state.mempool.map Prod.snd = [freeTx 0, freeTx 1] ∧
    ∃ s, (diskMachine smallCrates smallGenesis).Reach (Issues smallCrates) s ∧
      s.1.state = (orderedNode.submitBlock smallCrates (smallNext 0)).1.chain.state ∧
      ReadsAs smallCrates compactJson s.2
        (orderedNode.submitBlock smallCrates (smallNext 0)).1.chain.state ∧
      ((orderedNode.submitBlock smallCrates (smallNext 0)).1.chain.state.mempool.map
        Prod.snd).Pairwise fun tx tx' =>
          (tx.hash smallCrates).asBytes < (tx'.hash smallCrates).asBytes := by
  have hstep : ∀ (node : Node) (b : Block), (nodeMachine smallCrates smallGenesis).Reachable node →
      (nodeMachine smallCrates smallGenesis).Reachable (node.submitBlock smallCrates b).1 :=
    fun node b hn => hn.step (.submitBlock b)
  exact ⟨mempool_orderedNode,
    (disk_exact compactJson_lawful).2 _ (hstep orderedNode (smallNext 0) (reachable_pairNode _ _))⟩

end Ondris
