import Ondris.Lib.Reads
import Ondris.Crash
import Ondris.Extension

/-!
# Readers without a lock

`work_template` and `/chain/info` read the store entry by entry while a submission
writes to it. The write lock orders the submissions; readers do not take it.

Results:
1. `reads_alone`: without submissions the single reads come to the call.
2. `SharedInv.step`: the tip is that of a complete submission at every point, and no
   block is ever taken away.
3. `readers_consistent`: a call whose height reads find the branch of the tip it has
   read answers as on one complete chain; `torn_template`: a call that reads the tip
   before a reorganisation and the heights after it.
-/

namespace Ondris

/-! ## Single reads -/

/-- The reads of a call. The dataset takes one read of the store, or none. -/
inductive Query
  | tip
  | dataset (height : UInt64)
  | hashByHeight (height : UInt64)
  | block (hash : Hash256)
deriving DecidableEq

abbrev Query.Answer : Query → Type
  | .tip => Option (UInt64 × Hash256)
  | .dataset _ => Except ChainError Dataset
  | .hashByHeight _ => Option Hash256
  | .block _ => Option Block

def Chain.answer (K : Crates) (c : Chain) : (q : Query) → q.Answer
  | .tip => c.state.tip
  | .dataset height => (c.datasetForHeight K height).1
  | .hashByHeight height => c.state.getHashByHeight height
  | .block hash => c.state.getBlock hash

/-- What a read leaves in memory. -/
def Chain.cacheAfter (K : Crates) (c : Chain) : Query → DatasetCache
  | .dataset height => (c.datasetForHeight K height).2
  | _ => c.datasetCache

abbrev Reading := Reads Query Query.Answer

/-- `get_block_by_height`, read by read. -/
def getBlockByHeightReads (height : UInt64) : Reading (Option Block) :=
  .ask (.hashByHeight height) fun
    | none => .ret none
    | some hash => .ask (.block hash) .ret

/-- `Chain::compute_next_difficulty`, read by read. -/
def computeNextDifficultyReads (g : GenesisConfig) (nextHeight : UInt64) :
    Reading (Except ChainError UInt64) :=
  let window := g.window
  if nextHeight ≤ window then .ret (.ok g.initialDifficulty)
  else (getBlockByHeightReads (nextHeight - 1)).bind fun
    | none => .ret (.error (.blockMissing (nextHeight - 1)))
    | some tipBlock => (getBlockByHeightReads (nextHeight - 1 - window)).bind fun
      | none => .ret (.error .windowStartMissing)
      | some windowStartBlock =>
        let actualTimespan := satSub tipBlock.header.timestamp windowStartBlock.header.timestamp
        .ret (.ok (nextDifficulty tipBlock.header.difficulty actualTimespan g.targetBlockTimeSecs
          window))

/-- What a call answers: a template with its dataset, or the height, the tip and the
next difficulty. -/
inductive Reply
  | template (block : Block) (dataset : Dataset)
  | info (height : UInt64) (tipHash : Hash256) (nextDifficulty : UInt64)

/-- The block to build on. -/
def Reply.prevHash : Reply → Hash256
  | .template block _ => block.header.prevHash
  | .info _ tipHash _ => tipHash

def Reply.difficulty : Reply → UInt64
  | .template block _ => block.header.difficulty
  | .info _ _ nextDifficulty => nextDifficulty

/-- `Chain::work_template`, read by read. -/
def workTemplateReads (K : Crates) (g : GenesisConfig) (miner : Address) (now : UInt64)
    (pendingTxs : TxVec) : Reading (Except ChainError Reply) :=
  .ask .tip fun
    | none => .ret (.error .notInitialized)
    | some (height, prevHash) =>
      let nextHeight := height + 1
      .ask (.dataset nextHeight) fun
        | .error e => .ret (.error e)
        | .ok dataset => (computeNextDifficultyReads g nextHeight).bind fun
          | .error e => .ret (.error e)
          | .ok difficulty =>
            let txRoot := merkleRoot K (pendingTxs.val.map (·.hash K))
            let header : BlockHeader :=
              { height := nextHeight, prevHash, txRoot, timestamp := now, difficulty, miner
                nonce := 0 }
            .ret (.ok (.template ⟨header, pendingTxs⟩ dataset))

/-- What `chain_info` reads, in sequence. -/
def Chain.chainInfo (c : Chain) : Except ChainError Reply :=
  match c.state.tip with
  | none => .error .notInitialized
  | some (height, tipHash) =>
    match c.computeNextDifficulty (height + 1) with
    | .error e => .error e
    | .ok nextDifficulty => .ok (.info height tipHash nextDifficulty)

/-- `chain_info`, read by read. -/
def chainInfoReads (g : GenesisConfig) : Reading (Except ChainError Reply) :=
  .ask .tip fun
    | none => .ret (.error .notInitialized)
    | some (height, tipHash) => (computeNextDifficultyReads g (height + 1)).bind fun
      | .error e => .ret (.error e)
      | .ok nextDifficulty => .ret (.ok (.info height tipHash nextDifficulty))

inductive Call
  | workTemplate (miner : Address) (now : UInt64) (pendingTxs : TxVec)
  | chainInfo

def Call.reads (K : Crates) (g : GenesisConfig) : Call → Reading (Except ChainError Reply)
  | .workTemplate miner now pendingTxs => workTemplateReads K g miner now pendingTxs
  | .chainInfo => chainInfoReads g

/-- The call without interruption. -/
def Call.alone (K : Crates) (c : Chain) : Call → Except ChainError Reply
  | .workTemplate miner now pendingTxs =>
    (c.workTemplate K miner now pendingTxs).1.map fun p => .template p.1 p.2
  | .chainInfo => c.chainInfo

/-! ## The shared chain -/

/-- A call on its way: the tip it has read, and the reads that are left. -/
structure Reader where
  call : Call
  tip : Option (UInt64 × Hash256)
  rest : Reading (Except ChainError Reply)

def Reader.step (K : Crates) (c : Chain) (r : Reader) : Reader where
  call := r.call
  tip := if r.rest.query = some .tip then c.state.tip else r.tip
  rest := r.rest.step (c.answer K)

/-- What its next read leaves in memory. -/
def Reader.cacheAfter (K : Crates) (c : Chain) (r : Reader) : DatasetCache :=
  match r.rest.query with
  | none => c.datasetCache
  | some q => c.cacheAfter K q

/-- The chain between two accesses: what is in the store and in memory at this point,
the writes that the submission in progress has left, the chains before and after the
submissions so far, and the calls of the readers. -/
structure SharedChain where
  now : Chain
  todo : List Write
  settled : List Chain
  readers : ℕ → Option Reader

/-- A submission takes the write lock, one write of the submission that holds it, a
call begins, one read of a call. -/
inductive Access
  | submit (b : Block) (ws : List Write)
  | write
  | call (i : ℕ) (call : Call)
  | read (i : ℕ)

namespace SharedChain

def start (c : Chain) : SharedChain := ⟨c, [], [c], fun _ => none⟩

/-- The checks of a submission read what only submissions write. -/
def submit (K : Crates) (s : SharedChain) (b : Block) (ws : List Write) : SharedChain :=
  match s.todo with
  | [] =>
    { s with
      now := { s.now with datasetCache := (s.now.submitBlock K b).cache }
      todo := ws
      settled := s.now :: s.settled }
  | _ :: _ => s

def write (s : SharedChain) : SharedChain :=
  match s.todo with
  | [] => s
  | w :: ws =>
    let now := { s.now with state := s.now.state.write w }
    { s with now, todo := ws, settled := if ws.isEmpty then now :: s.settled else s.settled }

def setReader (s : SharedChain) (i : ℕ) (r : Reader) : SharedChain :=
  { s with readers := Function.update s.readers i (some r) }

theorem readers_setReader (s : SharedChain) (i : ℕ) (r : Reader) :
    (s.setReader i r).readers = Function.update s.readers i (some r) := rfl

def setCache (s : SharedChain) (datasetCache : DatasetCache) : SharedChain :=
  { s with now := { s.now with datasetCache } }

def read (K : Crates) (s : SharedChain) (i : ℕ) : SharedChain :=
  match s.readers i with
  | none => s
  | some r => (s.setReader i (r.step K s.now)).setCache (r.cacheAfter K s.now)

end SharedChain

def sharedMachine (K : Crates) (g : GenesisConfig) : Machine SharedChain Access Unit where
  init s := ∃ c, (chainMachine K g).Reachable c ∧ s = .start c
  step
    | s, .submit b ws => s.submit K b ws
    | s, .write => s.write
    | s, .call i call => s.setReader i ⟨call, none, call.reads K g⟩
    | s, .read i => s.read K i
  out _ _ := ()

/-- The writes of a submission are those of `submit_block`. -/
def Submits (K : Crates) (s : SharedChain) : Access → Prop
  | .submit b ws => s.todo = [] → Shuffles (s.now.submitBlock K b).writes ws
  | _ => True

/-- The store is in place for a read: a dataset is one of epoch 0, and an entry of the
height index belongs to the branch of the tip that the call has read. -/
def InPlace (K : Crates) (g : GenesisConfig) (st : ChainState) (r : Reader) : Query → Prop
  | .dataset height => height.toNat < epochLength.toNat
  | .hashByHeight height => ∀ n t l, r.tip = some (n, t) → Branch K g st t l →
      st.getHashByHeight height = (l.reverse.map Prod.fst)[height.toNat]?
  | _ => True

/-- The reads that find the store in place. -/
def Undisturbed (K : Crates) (g : GenesisConfig) (s : SharedChain) : Access → Prop
  | .read i => ∀ r q, s.readers i = some r → r.rest.query = some q → InPlace K g s.now.state r q
  | _ => True

/-- The call returns what it returns alone on a chain before or after a submission, and
the difficulty is the one that the checks expect of the next block. -/
def Consistently (K : Crates) (g : GenesisConfig) (s : SharedChain) (call : Call)
    (result : Except ChainError Reply) : Prop :=
  ∃ reply, result = .ok reply ∧ (∃ c ∈ s.settled, call.alone K c = .ok reply) ∧
    ∃ parent, s.now.state.getBlock reply.prevHash = some parent ∧
      expectedDifficultyAfter g s.now.state parent = .ok reply.difficulty

/-- Stored blocks stay. -/
def BlocksKept (st st' : ChainState) : Prop := ∀ h b, st.blocks h = some b → st'.blocks h = some b

/-- Writes that take no block away and leave the tip to the last of them. -/
def Orderly (st : ChainState) : List Write → Prop
  | [] => True
  | w :: ws => BlocksKept st (st.write w) ∧ (ws ≠ [] → (st.write w).tip = st.tip) ∧
      Orderly (st.write w) ws

/-- The reads that may come after the tip on a chain of height `n`. -/
def Query.Expected (st : ChainState) (n : UInt64) : Query → Prop
  | .tip => False
  | .dataset height => height = n + 1
  | .hashByHeight _ => True
  | .block hash => (st.blocks hash).isSome

/-- A call that has read its tip does on the chain `c` what it did not do yet. -/
structure Underway (K : Crates) (g : GenesisConfig) (c : Chain) (r : Reader) (n : UInt64)
    (t : Hash256) (l : BlockChain) : Prop where
  canonical : Canonical K g c.state n t l
  tip : r.tip = some (n, t)
  alone : r.rest.alone (c.answer K) = r.call.alone K c
  along : r.rest.Along (c.answer K) (Query.Expected c.state n)
  ready : (∃ height, r.rest.query = some (.dataset height)) ∨ ∃ reply, r.call.alone K c = .ok reply

/-- A call has read nothing, or is under way on a complete chain. -/
def ReaderInv (K : Crates) (g : GenesisConfig) (settled : List Chain) (r : Reader) : Prop :=
  r.rest = r.call.reads K g ∨ ∃ c ∈ settled, ∃ n t l, Underway K g c r n t l

/-- What every access keeps. -/
structure SharedInv (K : Crates) (g : GenesisConfig) (s : SharedChain) : Prop where
  ends : ChainInv K g { s.now with state := s.now.state.writes s.todo }
  orderly : Orderly s.now.state s.todo
  tip : ∃ c ∈ s.settled, c.state.tip = s.now.state.tip
  settled : ∀ c ∈ s.settled, ChainInv K g c ∧ BlocksKept c.state s.now.state
  readers : ∀ i r, s.readers i = some r → ReaderInv K g s.settled r

variable {K : Crates} {g : GenesisConfig} {c : Chain} {st st' : ChainState} {s : SharedChain}
  {r : Reader}

/-! ## Reads in sequence -/

theorem alone_getBlockByHeight (c : Chain) (height : UInt64) :
    (getBlockByHeightReads height).alone (c.answer K) = c.state.getBlockByHeight height := by
  rw [getBlockByHeightReads, Reads.alone_ask, Chain.answer, ChainState.getBlockByHeight]
  cases c.state.getHashByHeight height with
  | none => rfl
  | some hash => rfl

theorem alone_computeNextDifficulty (c : Chain) (nextHeight : UInt64) :
    (computeNextDifficultyReads c.genesis nextHeight).alone (c.answer K)
      = c.computeNextDifficulty nextHeight := by
  unfold computeNextDifficultyReads Chain.computeNextDifficulty
  simp only
  split
  · rfl
  · rw [Reads.alone_bind, alone_getBlockByHeight]
    cases c.state.getBlockByHeight (nextHeight - 1) with
    | none => rfl
    | some tipBlock =>
      simp only [Reads.alone_bind, alone_getBlockByHeight]
      cases c.state.getBlockByHeight (nextHeight - 1 - c.genesis.window) with
      | none => rfl
      | some windowStartBlock => rfl

/-- Read by read on one chain, a call does what it does at once. -/
theorem reads_alone (c : Chain) (call : Call) :
    (call.reads K c.genesis).alone (c.answer K) = call.alone K c := by
  cases call with
  | chainInfo =>
    show (chainInfoReads c.genesis).alone (c.answer K) = c.chainInfo
    rw [chainInfoReads, Chain.chainInfo, Reads.alone_ask, Chain.answer]
    cases c.state.tip with
    | none => rfl
    | some tip =>
      simp only [Reads.alone_bind, alone_computeNextDifficulty]
      cases c.computeNextDifficulty (tip.1 + 1) with
      | error e => rfl
      | ok difficulty => rfl
  | workTemplate miner now pendingTxs =>
    show (workTemplateReads K c.genesis miner now pendingTxs).alone (c.answer K)
      = (c.workTemplate K miner now pendingTxs).1.map fun p => .template p.1 p.2
    rw [workTemplateReads, Chain.workTemplate, Reads.alone_ask, Chain.answer]
    cases c.state.tip with
    | none => rfl
    | some tip =>
      simp only [Reads.alone_ask, Chain.answer]
      rcases c.datasetForHeight K (tip.1 + 1) with ⟨e | dataset, cache⟩
      · rfl
      · simp only [Reads.alone_bind, alone_computeNextDifficulty]
        cases c.computeNextDifficulty (tip.1 + 1) with
        | error e => rfl
        | ok difficulty => rfl

/-! ## Calls on a complete chain -/

theorem chainInfo_eq (hc : ChainInv K g c) {n : UInt64} {t : Hash256} {l : BlockChain}
    (hcan : Canonical K g c.state n t l) :
    c.chainInfo = .ok (.info n t (retarget g (l.map Prod.snd))) := by
  rw [Chain.chainInfo, hcan.tip]
  simp only [computeNextDifficulty_eq hc hcan]

/-- A call answers unless it asks for a dataset beyond epoch 0. -/
theorem alone_ok (hc : ChainInv K g c) {n : UInt64} {t : Hash256} {l : BlockChain}
    (hcan : Canonical K g c.state n t l) (call : Call)
    (hlow : call = .chainInfo ∨ (n + 1).toNat < epochLength.toNat) :
    ∃ reply, call.alone K c = .ok reply := by
  cases call with
  | chainInfo => exact ⟨_, chainInfo_eq hc hcan⟩
  | workTemplate miner now pendingTxs =>
    rcases hlow with h | hlow
    · cases h
    · rw [hcan.next_toNat hc.stored, ← hcan.height] at hlow
      rw [Call.alone, workTemplate_eq hc hcan hlow]
      exact ⟨_, rfl⟩

/-- What a call answers belongs to the tip. -/
theorem alone_reply (hc : ChainInv K g c) {n : UInt64} {t : Hash256} {l : BlockChain}
    (hcan : Canonical K g c.state n t l) {call : Call} {reply : Reply}
    (h : call.alone K c = .ok reply) :
    reply.prevHash = t ∧ reply.difficulty = retarget g (l.map Prod.snd) := by
  cases call with
  | chainInfo =>
    rw [Call.alone, chainInfo_eq hc hcan] at h
    obtain rfl := Except.ok.inj h
    exact ⟨rfl, rfl⟩
  | workTemplate miner now pendingTxs =>
    rcases Nat.lt_or_ge (n.toNat + 1) epochLength.toNat with hlow | hhigh
    · rw [Call.alone, workTemplate_eq hc hcan hlow] at h
      obtain rfl := Except.ok.inj h
      exact ⟨rfl, rfl⟩
    · have hnext := hcan.next_toNat hc.stored
      rw [← hcan.height] at hnext
      rw [Call.alone, Chain.workTemplate, hcan.tip] at h
      simp only [datasetForHeight_high hc (show epochLength.toNat ≤ (n + 1).toNat by omega)] at h
      cases h

/-- The height index names stored blocks. -/
theorem Canonical.isSome_of_height {n : UInt64} {t : Hash256} {l : BlockChain}
    (hcan : Canonical K g st n t l) {height : UInt64} {hash : Hash256}
    (h : st.getHashByHeight height = some hash) : (st.blocks hash).isSome := by
  rw [ChainState.getHashByHeight, hcan.index] at h
  obtain ⟨p, hp, rfl⟩ := List.mem_map.mp (List.mem_of_getElem? h)
  rw [hcan.branch.mem_get (List.mem_reverse.mp hp)]
  rfl

theorem along_getBlockByHeight {n : UInt64} {t : Hash256} {l : BlockChain}
    (hcan : Canonical K g c.state n t l) (height : UInt64) :
    (getBlockByHeightReads height).Along (c.answer K) (Query.Expected c.state n) := by
  rw [getBlockByHeightReads, Reads.along_ask, Chain.answer]
  refine ⟨trivial, ?_⟩
  cases hhash : c.state.getHashByHeight height with
  | none => trivial
  | some hash => exact ⟨hcan.isSome_of_height hhash, trivial⟩

theorem along_computeNextDifficulty {n : UInt64} {t : Hash256} {l : BlockChain}
    (hcan : Canonical K g c.state n t l) (nextHeight : UInt64) :
    (computeNextDifficultyReads g nextHeight).Along (c.answer K) (Query.Expected c.state n) := by
  unfold computeNextDifficultyReads
  simp only
  split
  · trivial
  · rw [Reads.along_bind]
    refine ⟨along_getBlockByHeight hcan _, ?_⟩
    cases (getBlockByHeightReads (nextHeight - 1)).alone (c.answer K) with
    | none => trivial
    | some tipBlock =>
      simp only [Reads.along_bind]
      refine ⟨along_getBlockByHeight hcan _, ?_⟩
      cases (getBlockByHeightReads (nextHeight - 1 - g.window)).alone (c.answer K) with
      | none => trivial
      | some windowStartBlock => trivial

/-- The first read of a call is the tip. -/
theorem query_reads (call : Call) : (call.reads K g).query = some .tip := by
  cases call with
  | workTemplate miner now pendingTxs => rfl
  | chainInfo => rfl

/-- A call that reads the tip of a complete chain is under way on it. -/
theorem Underway.of_tip (hc : ChainInv K g c) {n : UInt64} {t : Hash256} {l : BlockChain}
    (hcan : Canonical K g c.state n t l) {now : Chain} (htip : c.state.tip = now.state.tip)
    (hfresh : r.rest = r.call.reads K g) : Underway K g c (r.step K now) n t l := by
  have hnow : now.state.tip = some (n, t) := htip.symm.trans hcan.tip
  obtain ⟨call, tip, rest⟩ := r
  obtain rfl : rest = call.reads K g := hfresh
  have hsame : ((call.reads K g).step (now.answer K)).alone (c.answer K) = call.alone K c := by
    have halone := reads_alone (K := K) c call
    rw [hc.genesis] at halone
    rw [← halone]
    cases call with
    | workTemplate miner txNow pendingTxs =>
      simp only [Call.reads, workTemplateReads, Reads.step, Reads.alone_ask, Chain.answer, htip]
    | chainInfo =>
      simp only [Call.reads, chainInfoReads, Reads.step, Reads.alone_ask, Chain.answer, htip]
  refine ⟨hcan, ?_, hsame, ?_, ?_⟩
  · rw [Reader.step, if_pos (query_reads call)]
    exact hnow
  · cases call with
    | workTemplate miner txNow pendingTxs =>
      simp only [Reader.step, Call.reads, workTemplateReads, Reads.step, Chain.answer, hnow]
      refine ⟨rfl, ?_⟩
      cases c.answer K (.dataset (n + 1)) with
      | error e => trivial
      | ok dataset =>
        simp only [Reads.along_bind]
        refine ⟨along_computeNextDifficulty hcan _, ?_⟩
        cases (computeNextDifficultyReads g (n + 1)).alone (c.answer K) with
        | error e => trivial
        | ok difficulty => trivial
    | chainInfo =>
      simp only [Reader.step, Call.reads, chainInfoReads, Reads.step, Chain.answer, hnow]
      rw [Reads.along_bind]
      refine ⟨along_computeNextDifficulty hcan _, ?_⟩
      cases (computeNextDifficultyReads g (n + 1)).alone (c.answer K) with
      | error e => trivial
      | ok difficulty => trivial
  · cases call with
    | workTemplate miner txNow pendingTxs =>
      refine .inl ⟨n + 1, ?_⟩
      simp only [Reader.step, Call.reads, workTemplateReads, Reads.step, Chain.answer, hnow]
      rfl
    | chainInfo => exact .inr (alone_ok hc hcan .chainInfo (.inl rfl))

/-! ## Writes in order -/

theorem BlocksKept.refl (st : ChainState) : BlocksKept st st := fun _ _ h => h

theorem BlocksKept.trans {st'' : ChainState} (h : BlocksKept st st') (h' : BlocksKept st' st'') : BlocksKept st st'' :=
  fun hash b hb => h' hash b (h hash b hb)

theorem Branch.kept (hkept : BlocksKept st st') {h : Hash256} {l : BlockChain} (hl : Branch K g st h l) :
    Branch K g st' h l :=
  hl.mono hkept

/-- The ancestors of a block stay. -/
theorem blockAncestor_kept (hkept : BlocksKept st st') {depth : ℕ} {b a : Block}
    (h : blockAncestor st b depth = some a) : blockAncestor st' b depth = some a := by
  induction depth generalizing b with
  | zero => exact h
  | succ depth ih =>
    rw [blockAncestor] at h ⊢
    cases hparent : st.getBlock b.header.prevHash with
    | none =>
      rw [hparent] at h
      cases h
    | some parent =>
      rw [hparent] at h
      have hstays : st'.getBlock b.header.prevHash = some parent := hkept _ _ hparent
      rw [hstays]
      exact ih h

theorem expectedDifficultyAfter_kept (hkept : BlocksKept st st') {parent : Block} {difficulty : UInt64}
    (h : expectedDifficultyAfter g st parent = .ok difficulty) :
    expectedDifficultyAfter g st' parent = .ok difficulty := by
  unfold expectedDifficultyAfter at h ⊢
  simp only at h ⊢
  split
  · next hle =>
    rw [if_pos hle] at h
    exact h
  · next hgt =>
    rw [if_neg hgt] at h
    cases hstart : blockAncestor st parent g.window.toNat with
    | none =>
      rw [hstart] at h
      cases h
    | some windowStart =>
      rw [hstart] at h
      rw [blockAncestor_kept hkept hstart]
      exact h

/-- Writes that touch neither the blocks nor the tip. -/
theorem orderly_append {quiet ws : List Write} (st : ChainState)
    (hquiet : ∀ w ∈ quiet, ∀ st : ChainState, (st.write w).blocks = st.blocks ∧ (st.write w).tip = st.tip)
    (h : ∀ st', st'.blocks = st.blocks → st'.tip = st.tip → Orderly st' ws) :
    Orderly st (quiet ++ ws) := by
  induction quiet generalizing st with
  | nil => exact h st rfl rfl
  | cons w quiet ih =>
    obtain ⟨hblocks, htip⟩ := hquiet w List.mem_cons_self st
    refine ⟨fun hash b hb => ?_, fun _ => htip, ?_⟩
    · rw [hblocks]
      exact hb
    · refine ih (st.write w) (fun v hv => hquiet v (List.mem_cons_of_mem _ hv)) ?_
      intro st' hblocks' htip'
      exact h st' (hblocks'.trans hblocks) (htip'.trans htip)

/-- Storing an unknown block, then its work. -/
theorem Orderly.store {hash : Hash256} (hnew : st.blocks hash = none) (b : Block) (work : ℕ)
    {ws : List Write} (h : Orderly (st.writes (storeWrites hash b work)) ws) :
    Orderly st (storeWrites hash b work ++ ws) := by
  refine ⟨fun k x hx => ?_, fun _ => rfl, fun _ _ hx => hx, fun _ => rfl, h⟩
  have hne : k ≠ hash := ne_of_isSome (by rw [hx]; rfl) hnew
  show Function.update st.blocks hash (some b) k = some x
  rw [Function.update_of_ne hne]
  exact hx

/-- A commit, whatever the order of its accounts. -/
theorem Commit.orderly (m : Commit) (accs : List (Address × Account)) (st : ChainState) :
    Orderly st (accs.map (fun p => .setAccount p.1 p.2) ++ m.pointers) := by
  rw [Commit.pointers, ← List.append_assoc, ← List.append_assoc]
  refine orderly_append st (fun w hw st' => ?_) fun st' _ _ => ?_
  · simp only [List.mem_append, List.mem_map] at hw
    rcases hw with (⟨p, -, rfl⟩ | ⟨height, -, rfl⟩) | ⟨p, -, rfl⟩
    · exact ⟨rfl, rfl⟩
    · exact ⟨rfl, rfl⟩
    · exact ⟨rfl, rfl⟩
  · exact ⟨fun _ _ hb => hb, fun hne => absurd rfl hne, trivial⟩

/-- The writes of a submission are orderly. -/
theorem Shuffles.orderly (hc : ChainInv K g c) {b : Block} {ws : List Write}
    (h : Shuffles (c.submitBlock K b).writes ws) : Orderly c.state ws := by
  obtain ⟨n, t, lo, hcan⟩ := hc.canonical
  rcases submitBlock_writes hc hcan b with
    ⟨-, hws⟩ | ⟨lp, a, p, s, hpl, ⟨-, hws⟩ | ⟨overlay, -, -, hws⟩⟩
  · rw [hws] at h
    obtain rfl := List.perm_nil.mp h.1
    trivial
  · rw [hws] at h
    obtain rfl := eq_of_map_other h.2 (other_storeWrites _ _ _)
    have hlast : Orderly c.state (storeWrites (blockId K b) b
        (branchWork ((blockId K b, b) :: lp)) ++ []) :=
      Orderly.store hpl.new b _ trivial
    rwa [List.append_nil] at hlast
  · -- the block comes first, the accounts in any order, the pointers last
    rw [hws] at h
    simp only [Commit.writes, List.append_assoc] at h
    rw [← List.append_assoc] at h
    obtain ⟨accs, -, rfl⟩ := Shuffles.split (other_storeWrites _ _ _) (Commit.other_pointers _) h
    rw [List.append_assoc]
    exact Orderly.store hpl.new b _ (Commit.orderly _ accs _)

/-! ## Accesses -/

/-- An entry of the height index is in place exactly if it is that of the chain of the
tip. -/
theorem Underway.inPlace_iff {n : UInt64} {t : Hash256} {l : BlockChain}
    (h : Underway K g c r n t l) (hkept : BlocksKept c.state st) (height : UInt64) :
    InPlace K g st r (.hashByHeight height)
      ↔ st.getHashByHeight height = c.state.getHashByHeight height := by
  have hindex : c.state.getHashByHeight height = (l.reverse.map Prod.fst)[height.toNat]? :=
    h.canonical.index height
  have hbranch := h.canonical.branch.kept hkept
  rw [hindex]
  constructor
  · intro hplace
    exact hplace n t l h.tip hbranch
  · intro heq n' t' l' htip hl'
    rw [h.tip] at htip
    obtain ⟨rfl, rfl⟩ := Prod.mk.inj (Option.some.inj htip)
    rw [heq, hbranch.unique hl']

/-- In place, a read finds what the chain of the tip holds. -/
theorem Underway.answer_eq (hc : ChainInv K g c) {n : UInt64} {t : Hash256} {l : BlockChain}
    (h : Underway K g c r n t l) {now : Chain} (hkept : BlocksKept c.state now.state)
    (hcache : now.datasetCache = none ∨ now.datasetCache = some (0, epochZeroDataset K)) {q : Query}
    (hq : q.Expected c.state n) (hplace : InPlace K g now.state r q) :
    now.answer K q = c.answer K q := by
  cases q with
  | tip => exact hq.elim
  | dataset height =>
    show (now.datasetForHeight K height).1 = (c.datasetForHeight K height).1
    rw [datasetForHeight_of_cache hcache hplace, datasetForHeight_low hc hplace]
  | hashByHeight height => exact (h.inPlace_iff hkept height).mp hplace
  | block hash =>
    obtain ⟨b, hb⟩ := Option.isSome_iff_exists.mp hq
    show now.state.blocks hash = c.state.blocks hash
    rw [hb, hkept hash b hb]

/-- A read that finds the store in place. -/
theorem Underway.step (hc : ChainInv K g c) {n : UInt64} {t : Hash256} {l : BlockChain}
    (h : Underway K g c r n t l) {now : Chain} (hkept : BlocksKept c.state now.state)
    (hcache : now.datasetCache = none ∨ now.datasetCache = some (0, epochZeroDataset K))
    (hplace : ∀ q, r.rest.query = some q → InPlace K g now.state r q) :
    Underway K g c (r.step K now) n t l := by
  have hagree : ∀ q, r.rest.query = some q → q.Expected c.state n →
      now.answer K q = c.answer K q :=
    fun q hquery hq => h.answer_eq hc hkept hcache hq (hplace q hquery)
  obtain ⟨halone, halong⟩ := h.along.step hagree
  refine ⟨h.canonical, ?_, halone.trans h.alone, halong, .inr ?_⟩
  · rw [Reader.step, if_neg]
    · exact h.tip
    · exact fun hquery => h.along.query hquery
  · rcases h.ready with ⟨height, hquery⟩ | hok
    · have hlow : height.toNat < epochLength.toNat := hplace _ hquery
      obtain rfl : height = n + 1 := h.along.query hquery
      exact alone_ok hc h.canonical r.call (.inr hlow)
    · exact hok

/-- More chains are complete. -/
theorem ReaderInv.mono {settled settled' : List Chain} (h : ReaderInv K g settled r)
    (hsub : ∀ c ∈ settled, c ∈ settled') : ReaderInv K g settled' r := by
  rcases h with hfresh | ⟨c, hc, hunder⟩
  · exact .inl hfresh
  · exact .inr ⟨c, hsub c hc, hunder⟩

namespace SharedInv

theorem start (hc : ChainInv K g c) : SharedInv K g (.start c) where
  ends := hc
  orderly := trivial
  tip := ⟨c, List.mem_singleton.mpr rfl, rfl⟩
  settled c' hc' := by
    obtain rfl := List.mem_singleton.mp hc'
    exact ⟨hc, .refl _⟩
  readers i r hr := by cases hr

theorem cache (h : SharedInv K g s) :
    s.now.datasetCache = none ∨ s.now.datasetCache = some (0, epochZeroDataset K) :=
  h.ends.cache

/-- A submission takes the lock. -/
theorem submit (h : SharedInv K g s) {b : Block} {ws : List Write}
    (hws : Submits K s (.submit b ws)) : SharedInv K g (s.submit K b ws) := by
  unfold SharedChain.submit
  cases htodo : s.todo with
  | cons w rest => exact h
  | nil =>
    have hnow : ChainInv K g s.now := by
      have hends := h.ends
      rw [htodo] at hends
      exact hends
    have hshuffles := hws htodo
    refine ⟨?_, hshuffles.orderly hnow, ⟨s.now, List.mem_cons_self, rfl⟩, fun c hc => ?_,
      fun i r hr => (h.readers i r hr).mono fun c hc => List.mem_cons_of_mem _ hc⟩
    · have hinv := hnow.submit b
      rw [Chain.submit] at hinv
      have hstate := Issued.writes hnow hshuffles
      rw [Chain.submit] at hstate
      simp only at hstate ⊢
      rw [hstate]
      exact hinv
    · rcases List.mem_cons.mp hc with rfl | hold
      · exact ⟨hnow, .refl _⟩
      · exact h.settled c hold

/-- One write. With the last one the submission is complete. -/
theorem write (h : SharedInv K g s) : SharedInv K g s.write := by
  unfold SharedChain.write
  cases htodo : s.todo with
  | nil => exact h
  | cons w ws =>
    have hends := h.ends
    have horderly := h.orderly
    rw [htodo] at hends horderly
    obtain ⟨hkept, htip, hrest⟩ := horderly
    have hsettled : ∀ c ∈ s.settled, ChainInv K g c ∧ BlocksKept c.state (s.now.state.write w) :=
      fun c hc => ⟨(h.settled c hc).1, (h.settled c hc).2.trans hkept⟩
    cases ws with
    | nil =>
      refine ⟨hends, hrest, ⟨_, List.mem_cons_self, rfl⟩, fun c hc => ?_,
        fun i r hr => (h.readers i r hr).mono fun c hc => List.mem_cons_of_mem _ hc⟩
      rcases List.mem_cons.mp hc with rfl | hold
      · exact ⟨hends, .refl _⟩
      · exact hsettled c hold
    | cons v ws =>
      obtain ⟨c, hc, heq⟩ := h.tip
      exact ⟨hends, hrest, ⟨c, hc, heq.trans (htip (List.cons_ne_nil v ws)).symm⟩, hsettled,
        h.readers⟩

theorem setReader (h : SharedInv K g s) (i : ℕ) (hr : ReaderInv K g s.settled r) :
    SharedInv K g (s.setReader i r) := by
  refine ⟨h.ends, h.orderly, h.tip, h.settled, fun j r' hr' => ?_⟩
  by_cases hj : j = i
  · rw [hj, SharedChain.readers_setReader, Function.update_self] at hr'
    obtain rfl := Option.some.inj hr'
    exact hr
  · rw [SharedChain.readers_setReader, Function.update_of_ne hj] at hr'
    exact h.readers j r' hr'

theorem setCache (h : SharedInv K g s) {cache : DatasetCache}
    (hcache : cache = none ∨ cache = some (0, epochZeroDataset K)) : SharedInv K g (s.setCache cache) :=
  ⟨⟨h.ends.genesis, hcache, h.ends.stored, h.ends.canonical⟩, h.orderly, h.tip, h.settled, h.readers⟩

/-- One read, of a call that has read nothing or of one under way. -/
theorem reader (h : SharedInv K g s) {i : ℕ} (hr : s.readers i = some r)
    (hplace : ∀ q, r.rest.query = some q → InPlace K g s.now.state r q) :
    ReaderInv K g s.settled (r.step K s.now) := by
  rcases h.readers i r hr with hfresh | ⟨c, hc, n, t, l, hunder⟩
  · obtain ⟨c, hc, htip⟩ := h.tip
    obtain ⟨hinv, -⟩ := h.settled c hc
    obtain ⟨n, t, l, hcan⟩ := hinv.canonical
    exact .inr ⟨c, hc, n, t, l, .of_tip hinv hcan htip hfresh⟩
  · obtain ⟨hinv, hkept⟩ := h.settled c hc
    exact .inr ⟨c, hc, n, t, l, hunder.step hinv hkept h.cache hplace⟩

theorem read (h : SharedInv K g s) {i : ℕ} (hplace : Undisturbed K g s (.read i)) :
    SharedInv K g (s.read K i) := by
  unfold SharedChain.read
  cases hr : s.readers i with
  | none => exact h
  | some r =>
    refine (h.setReader i (h.reader hr fun q hq => hplace r q hr hq)).setCache ?_
    unfold Reader.cacheAfter
    cases hquery : r.rest.query with
    | none => exact h.cache
    | some q =>
      cases q with
      | dataset height =>
        have hlow : height.toNat < epochLength.toNat := hplace r _ hr hquery
        have hlookup := datasetForHeight_of_cache h.cache hlow
        exact .inr (congrArg Prod.snd hlookup)
      | tip => exact h.cache
      | hashByHeight height => exact h.cache
      | block hash => exact h.cache

theorem step (h : SharedInv K g s) {access : Access} (hsubmits : Submits K s access)
    (hplace : Undisturbed K g s access) : SharedInv K g ((sharedMachine K g).step s access) := by
  cases access with
  | submit b ws => exact h.submit hsubmits
  | write => exact h.write
  | call i call => exact h.setReader i (.inl rfl)
  | read i => exact h.read hplace

/-- A call that has returned. -/
theorem consistently (h : SharedInv K g s) {i : ℕ} {call : Call} {tip : Option (UInt64 × Hash256)}
    {result : Except ChainError Reply} (hr : s.readers i = some ⟨call, tip, .ret result⟩) :
    Consistently K g s call result := by
  rcases h.readers i _ hr with hfresh | ⟨c, hc, n, t, l, hunder⟩
  · have hquery := query_reads (K := K) (g := g) call
    rw [← hfresh] at hquery
    cases hquery
  · obtain ⟨hinv, hkept⟩ := h.settled c hc
    have hresult : result = call.alone K c := hunder.alone
    rcases hunder.ready with ⟨height, hquery⟩ | ⟨reply, hok⟩
    · cases hquery
    · obtain ⟨hprev, hdiff⟩ := alone_reply hinv hunder.canonical hok
      obtain ⟨parent, rest, hparent, rfl⟩ := hunder.canonical.branch.head
      have hexpected := expectedDifficultyAfter_eq hinv.stored hunder.canonical.branch
      rw [hprev.symm] at hparent
      refine ⟨reply, hresult.trans hok, ⟨c, hc, hok⟩, parent, hkept _ _ hparent, ?_⟩
      rw [hdiff]
      exact expectedDifficultyAfter_kept hkept hexpected

end SharedInv

/-- **A call whose reads find the store in place answers as on one complete chain**, with
the difficulty that is expected after the block it names. -/
theorem readers_consistent
    (hs : (sharedMachine K g).Reach (fun s a => Submits K s a ∧ Undisturbed K g s a) s) {i : ℕ}
    {call : Call} {tip : Option (UInt64 × Hash256)} {result : Except ChainError Reply}
    (hr : s.readers i = some ⟨call, tip, .ret result⟩) : Consistently K g s call result := by
  refine SharedInv.consistently ?_ hr
  refine Machine.Reach.invariant (P := SharedInv K g) (fun s hinit => ?_)
    (fun s a _ hguard ih => ih.step hguard.1 hguard.2) hs
  obtain ⟨c, hc, rfl⟩ := hinit
  exact .start (chainInv hc)

/-! ## Reads one after another -/

/-- The reads after the tip, of a template in epoch 0 as well. -/
def Query.Low : Query → Prop
  | .tip => False
  | .dataset height => height.toNat < epochLength.toNat
  | _ => True

theorem cacheAfter_low (hcache : c.datasetCache = none ∨ c.datasetCache = some (0, epochZeroDataset K))
    {q : Query} (hq : q.Low) :
    c.cacheAfter K q = none ∨ c.cacheAfter K q = some (0, epochZeroDataset K) := by
  cases q with
  | dataset height => exact .inr (congrArg Prod.snd (datasetForHeight_of_cache hcache hq))
  | tip => exact hcache
  | hashByHeight height => exact hcache
  | block hash => exact hcache

theorem answer_low {c' : Chain} (hstate : c'.state = c.state)
    (hcache : c.datasetCache = none ∨ c.datasetCache = some (0, epochZeroDataset K))
    (hcache' : c'.datasetCache = none ∨ c'.datasetCache = some (0, epochZeroDataset K)) {q : Query}
    (hq : q.Low) : c'.answer K q = c.answer K q := by
  cases q with
  | dataset height =>
    show (c'.datasetForHeight K height).1 = (c.datasetForHeight K height).1
    rw [datasetForHeight_of_cache hcache hq, datasetForHeight_of_cache hcache' hq]
  | tip => exact hq.elim
  | hashByHeight height => exact congrArg (·.heights height) hstate
  | block hash => exact congrArg (·.blocks hash) hstate

theorem low_getBlockByHeight (answer : (q : Query) → q.Answer) (height : UInt64) :
    (getBlockByHeightReads height).Along answer Query.Low := by
  rw [getBlockByHeightReads, Reads.along_ask]
  refine ⟨trivial, ?_⟩
  cases answer (.hashByHeight height) with
  | none => trivial
  | some hash => exact ⟨trivial, trivial⟩

theorem low_computeNextDifficulty (answer : (q : Query) → q.Answer) (nextHeight : UInt64) :
    (computeNextDifficultyReads g nextHeight).Along answer Query.Low := by
  unfold computeNextDifficultyReads
  simp only
  split
  · trivial
  · rw [Reads.along_bind]
    refine ⟨low_getBlockByHeight answer _, ?_⟩
    cases (getBlockByHeightReads (nextHeight - 1)).alone answer with
    | none => trivial
    | some tipBlock =>
      simp only [Reads.along_bind]
      refine ⟨low_getBlockByHeight answer _, ?_⟩
      cases (getBlockByHeightReads (nextHeight - 1 - g.window)).alone answer with
      | none => trivial
      | some windowStartBlock => trivial

/-- What a template reads once it has read a tip of epoch 0. -/
theorem low_workTemplate (answer : (q : Query) → q.Answer) {n : UInt64} {t : Hash256}
    (htip : c.state.tip = some (n, t)) (hlow : (n + 1).toNat < epochLength.toNat) (miner : Address)
    (now : UInt64) (pendingTxs : TxVec) :
    ((workTemplateReads K g miner now pendingTxs).step (c.answer K)).Along answer Query.Low := by
  simp only [workTemplateReads, Reads.step, Chain.answer, htip]
  refine ⟨hlow, ?_⟩
  cases answer (.dataset (n + 1)) with
  | error e => trivial
  | ok dataset =>
    simp only [Reads.along_bind]
    refine ⟨low_computeNextDifficulty answer _, ?_⟩
    cases (computeNextDifficultyReads g (n + 1)).alone answer with
    | error e => trivial
    | ok difficulty => trivial

/-- Under the tip that a call has read every read is in place. -/
theorem InPlace.of_canonical {n : UInt64} {t : Hash256} {l : BlockChain}
    (hcan : Canonical K g st n t l) (htip : r.tip = some (n, t)) {q : Query} (hq : q.Low) :
    InPlace K g st r q := by
  cases q with
  | dataset height => exact hq
  | hashByHeight height =>
    intro n' t' l' htip' hl'
    rw [htip] at htip'
    obtain ⟨rfl, rfl⟩ := Prod.mk.inj (Option.some.inj htip')
    rw [ChainState.getHashByHeight, hcan.index, hcan.branch.unique hl']
  | tip => trivial
  | block hash => trivial

/-- A call that is not interrupted any more returns. -/
theorem reach_reads {G : SharedChain → Access → Prop} {i : ℕ} {call : Call}
    {tip : Option (UInt64 × Hash256)} {rest : Reading (Except ChainError Reply)} (c : Chain)
    (hs : (sharedMachine K g).Reach G s) (hr : s.readers i = some ⟨call, tip, rest⟩)
    (hstate : s.now.state = c.state)
    (hcache : c.datasetCache = none ∨ c.datasetCache = some (0, epochZeroDataset K))
    (hcache' : s.now.datasetCache = none ∨ s.now.datasetCache = some (0, epochZeroDataset K))
    (hlow : rest.Along (c.answer K) Query.Low)
    (hG : ∀ s : SharedChain, ∀ rest q, s.now.state = c.state →
      s.readers i = some ⟨call, tip, rest⟩ → rest.query = some q → q.Low → G s (.read i)) :
    ∃ s', (sharedMachine K g).Reach G s' ∧ s'.now.state = c.state ∧
      s'.readers i = some ⟨call, tip, .ret (rest.alone (c.answer K))⟩ := by
  induction rest generalizing s with
  | ret result => exact ⟨s, hs, hstate, hr⟩
  | ask q next ih =>
    -- one read: it has the answer it has when the reader is alone
    obtain ⟨hq, hnext⟩ := hlow
    have heq := answer_low hstate hcache hcache' hq
    have hread : (sharedMachine K g).step s (.read i)
        = (s.setReader i ⟨call, tip, next (c.answer K q)⟩).setCache (s.now.cacheAfter K q) := by
      have htip : (Reads.ask q next : Reading _).query ≠ some .tip := by
        rintro hquery
        obtain rfl := Option.some.inj hquery
        exact hq
      show s.read K i = _
      unfold SharedChain.read
      simp only [hr, Reader.step, if_neg htip, Reads.step, heq]
      rfl
    have hstep := hs.step (.read i) (hG s _ q hstate hr rfl hq)
    rw [hread] at hstep
    refine ih (c.answer K q) hstep ?_ hstate (cacheAfter_low hcache' hq) hnext
    exact Function.update_self _ _ _

/-- A submission that is not interrupted completes. -/
theorem reach_writes {G : SharedChain → Access → Prop} (hG : ∀ s, G s .write)
    (hs : (sharedMachine K g).Reach G s) : ∃ s', (sharedMachine K g).Reach G s' ∧
      s'.now = { s.now with state := s.now.state.writes s.todo } ∧ s'.readers = s.readers := by
  generalize htodo : s.todo = todo
  induction todo generalizing s with
  | nil => exact ⟨s, hs, rfl, rfl⟩
  | cons w ws ih =>
    have hwrite : (sharedMachine K g).step s .write = s.write := rfl
    have hstep := hs.step .write (hG s)
    rw [hwrite] at hstep
    have hparts : s.write.todo = ws ∧ s.write.readers = s.readers ∧
        s.write.now = { s.now with state := s.now.state.write w } := by
      unfold SharedChain.write
      rw [htodo]
      exact ⟨rfl, rfl, rfl⟩
    obtain ⟨htodo', hreaders, hnow⟩ := hparts
    obtain ⟨s', hs', hnow', hreaders'⟩ := ih hstep htodo'
    rw [hnow] at hnow'
    exact ⟨s', hs', hnow', hreaders'.trans hreaders⟩

theorem reach_submission {G : SharedChain → Access → Prop} (hG : ∀ s, G s .write) {b : Block}
    (hs : (sharedMachine K g).Reach G s) (hnow : s.now = c) (htodo : s.todo = [])
    (hsubmit : G s (.submit b (c.submitBlock K b).writes)) : ∃ s', (sharedMachine K g).Reach G s' ∧
      s'.now = c.submit K b ∧ s'.readers = s.readers := by
  have hstep := hs.step _ hsubmit
  have hlock : (sharedMachine K g).step s (.submit b (c.submitBlock K b).writes)
      = ⟨{ c with datasetCache := (c.submitBlock K b).cache }, (c.submitBlock K b).writes,
          c :: s.settled, s.readers⟩ := by
    show s.submit K b _ = _
    unfold SharedChain.submit
    rw [htodo, hnow]
  rw [hlock] at hstep
  exact reach_writes hG hstep

/-! ## A torn template -/

def tornCall : Call := .workTemplate premineAddress 0 noTxs

/-- The chain `c` once a template call has read its tip. -/
def tornStart (c : Chain) : SharedChain :=
  ((SharedChain.start c).setReader 0 ⟨tornCall, none, tornCall.reads smallCrates reorgGenesis⟩).read
    smallCrates 0

/-- The reads of a template after the tip of height 1. -/
def tornRest : Reading (Except ChainError Reply) :=
  (tornCall.reads smallCrates reorgGenesis).step (reorgChain₂.answer smallCrates)

/-- After the reorganisation they find the other branch. -/
theorem tornRest_alone : tornRest.alone (reorgChain₃.answer smallCrates) = .ok (.template
    ⟨{ height := 2, prevHash := nonceId 0, txRoot := merkleRoot smallCrates [], timestamp := 0
       difficulty := 1, miner := premineAddress, nonce := 0 }, noTxs⟩
    (epochZeroDataset smallCrates)) := by
  have hinv := chainInv reachable_reorg₃
  have htip : reorgChain₂.state.tip = some (1, nonceId 0) := reorgChain₂_canonical.1.tip
  have hdataset : (reorgChain₃.datasetForHeight smallCrates (1 + 1)).1
      = .ok (epochZeroDataset smallCrates) :=
    congrArg Prod.fst (datasetForHeight_low hinv (by decide))
  have hheight := reorgChain₃_canonical.getBlockByHeight
  have hdiff : reorgChain₃.computeNextDifficulty (1 + 1) = .ok 1 := by
    have hone : reorgChain₃.state.getBlockByHeight (1 + 1 - 1) = some reorgB := hheight 1
    have hzero : reorgChain₃.state.getBlockByHeight (1 + 1 - 1 - reorgGenesis.window)
        = some reorgGenesis.genesisBlock := hheight 0
    unfold Chain.computeNextDifficulty
    rw [hinv.genesis]
    simp only [hone, hzero]
    rfl
  have hreads := alone_computeNextDifficulty (K := smallCrates) reorgChain₃ (1 + 1)
  rw [hinv.genesis, hdiff] at hreads
  rw [tornRest, tornCall]
  simp only [Call.reads, workTemplateReads, Reads.step, Chain.answer, htip, Reads.alone_ask, hdataset,
    Reads.alone_bind, hreads]
  rfl

theorem reach_tornStart {G : SharedChain → Access → Prop} {c : Chain}
    (hc : (chainMachine smallCrates reorgGenesis).Reachable c)
    (hG : ∀ s a, (a = .call 0 tornCall ∨
      a = .read 0 ∧ ∀ r, s.readers 0 = some r → r.rest.query = some .tip) → G s a) :
    (sharedMachine smallCrates reorgGenesis).Reach G (tornStart c) := by
  have hcall := Machine.Reach.step (M := sharedMachine smallCrates reorgGenesis) (G := G)
    (s := SharedChain.start c) (.call 0 tornCall) (.init ⟨c, hc, rfl⟩) (hG _ _ (.inl rfl))
  refine Machine.Reach.step (.read 0) hcall (hG _ _ (.inr ⟨rfl, fun r hr => ?_⟩))
  obtain rfl := Option.some.inj hr
  rfl

theorem readers_tornStart (c : Chain) : (tornStart c).readers 0 = some ⟨tornCall, c.state.tip,
    (tornCall.reads smallCrates reorgGenesis).step (c.answer smallCrates)⟩ := rfl

theorem now_tornStart (c : Chain) : (tornStart c).now = c := rfl

theorem todo_tornStart (c : Chain) : (tornStart c).todo = [] := rfl

/-- A template whose tip was read on the chain `c`, the other reads on `d`. -/
theorem reach_template {G : SharedChain → Access → Prop} {c d : Chain} {t : Hash256}
    (htip : c.state.tip = some (1, t))
    (hcache : d.datasetCache = none ∨ d.datasetCache = some (0, epochZeroDataset smallCrates))
    (hs : (sharedMachine smallCrates reorgGenesis).Reach G s) (hnow : s.now = d)
    (hr : s.readers 0 = (tornStart c).readers 0)
    (hG : ∀ s : SharedChain, ∀ r q, s.now.state = d.state → s.readers 0 = some r →
      r.tip = some (1, t) → r.rest.query = some q → q.Low → G s (.read 0)) :
    ∃ s', (sharedMachine smallCrates reorgGenesis).Reach G s' ∧ s'.now.state = d.state ∧
      s'.readers 0 = some ⟨tornCall, some (1, t),
        .ret (((tornCall.reads smallCrates reorgGenesis).step (c.answer smallCrates)).alone
          (d.answer smallCrates))⟩ := by
  subst hnow
  rw [readers_tornStart, htip] at hr
  refine reach_reads s.now hs hr rfl hcache hcache
    (low_workTemplate _ htip (by decide) _ _ _) fun s rest q hstate hr hquery hlow => ?_
  exact hG s _ q hstate hr rfl hquery hlow

/-- The template of the first chain, its reads all under one tip. -/
theorem readers_consistent_small : ∃ (s : SharedChain) (result : Except ChainError Reply),
    (sharedMachine smallCrates reorgGenesis).Reach (fun s a => Submits smallCrates s a ∧
      Undisturbed smallCrates reorgGenesis s a) s ∧
    s.readers 0 = some ⟨tornCall, some (1, nonceId 0), .ret result⟩ ∧
    Consistently smallCrates reorgGenesis s tornCall result := by
  have hcan := reorgChain₁_canonical.1
  have hstart : (sharedMachine smallCrates reorgGenesis).Reach (fun s a => Submits smallCrates s a ∧
      Undisturbed smallCrates reorgGenesis s a) (tornStart reorgChain₁) := by
    refine reach_tornStart reachable_reorg₁ fun s a ha => ?_
    rcases ha with rfl | ⟨rfl, hquery⟩
    · exact ⟨trivial, trivial⟩
    · refine ⟨trivial, fun r q hr hq => ?_⟩
      rw [hquery r hr] at hq
      obtain rfl := Option.some.inj hq
      trivial
  obtain ⟨s, hs, -, hr⟩ := reach_template hcan.tip (chainInv reachable_reorg₁).cache hstart
    (now_tornStart _) rfl fun s r q hstate hr htip hq hlow => by
      refine ⟨trivial, fun r' q' hr' hq' => ?_⟩
      obtain rfl : r = r' := Option.some.inj (hr.symm.trans hr')
      obtain rfl : q = q' := Option.some.inj (hq.symm.trans hq')
      rw [hstate]
      exact .of_canonical hcan htip hlow
  exact ⟨s, _, hs, hr, readers_consistent hs hr⟩

/-- A template that reads the tip before a reorganisation and the heights after it: its
parent is the old tip, its difficulty that of a block on the new branch. -/
theorem torn_template : ∃ (s : SharedChain) (block : Block) (dataset : Dataset),
    (sharedMachine smallCrates reorgGenesis).Reach (Submits smallCrates) s ∧
    s.readers 0 = some ⟨tornCall, some (1, nonceId 0), .ret (.ok (.template block dataset))⟩ ∧
    block.header.prevHash = nonceId 0 ∧ block.header.difficulty = 1 ∧
    s.now.state.getBlock (nonceId 0) = some reorgA ∧
    expectedDifficultyAfter reorgGenesis s.now.state reorgA = .ok 4 ∧
    ¬ Consistently smallCrates reorgGenesis s tornCall (.ok (.template block dataset)) := by
  have hinv := chainInv reachable_reorg₃
  have hstart : (sharedMachine smallCrates reorgGenesis).Reach (Submits smallCrates)
      (tornStart reorgChain₂) := by
    refine reach_tornStart reachable_reorg₂ fun s a ha => ?_
    rcases ha with rfl | ⟨rfl, -⟩
    · trivial
    · trivial
  -- the whole reorganisation between the first read and the second
  obtain ⟨s, hs, hnow, hreaders⟩ := reach_submission (b := reorgC) (fun _ => trivial) hstart
    (now_tornStart _) (todo_tornStart _) (by
      intro _
      rw [now_tornStart]
      exact ⟨.refl _, rfl⟩)
  rw [← reorgChain₃] at hnow
  obtain ⟨s', hs', hstate, hr⟩ := reach_template reorgChain₂_canonical.1.tip hinv.cache hs hnow
    (congrFun hreaders 0) fun _ _ _ _ _ _ _ _ => trivial
  rw [← tornRest, tornRest_alone] at hr
  have hbranch := reorgChain₂_canonical.1.branch.submit (chainInv reachable_reorg₂) reorgC
  rw [← reorgChain₃] at hbranch
  have hblock : s'.now.state.getBlock (nonceId 0) = some reorgA := by
    rw [hstate]
    exact hbranch.mem_get List.mem_cons_self
  have hexpected : expectedDifficultyAfter reorgGenesis s'.now.state reorgA = .ok 4 := by
    rw [hstate, expectedDifficultyAfter_eq hinv.stored hbranch]
    rfl
  refine ⟨s', _, _, hs', hr, rfl, rfl, hblock, hexpected, ?_⟩
  rintro ⟨reply, hreply, -, parent, hparent, hdiff⟩
  obtain rfl := Except.ok.inj hreply
  obtain rfl : reorgA = parent := Option.some.inj (hblock.symm.trans hparent)
  rw [hexpected] at hdiff
  cases hdiff

end Ondris
