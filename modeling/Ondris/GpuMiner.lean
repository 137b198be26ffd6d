import Ondris.Lib.Stores
import Ondris.Agreement
import Ondris.Miner
import Ondris.Target

/-!
# The GPU miner

`MiningSession` and the loop of `ondris-miner-gpu`. The work items of a batch store what they
find in the same memory, without an order; the two words of a `ulong` are stored each on its
own. A call of OpenCL may fail. Counters wrap, as in a release build; the log is left aside.

Results:
1. `try_batch_exact`: a session that has been used before finds a nonce of the batch if there
   is one; the nonce is right if the batch has one upper word.
2. `gpu_block_first`: a block that is submitted solves its template, in the first batch that
   has a solution.
3. `gpu_search_ends`: the search gets to this batch and ends there.
4. `gpu_block_accepted`: the node accepts the block.
-/

namespace Ondris

/-! ## A batch on the device -/

namespace Kernel

/-- A word of `result_found` and `result_nonce`. -/
inductive Cell
  | found
  | low
  | high
deriving DecidableEq

abbrev Memory := Cell → UInt32

/-- The words of a nonce. -/
def lowWord (nonce : UInt64) : UInt32 := nonce.toUInt32

def highWord (nonce : UInt64) : UInt32 := (nonce >>> 32).toUInt32

def joinWords (high low : UInt32) : UInt64 := high.toUInt64 <<< 32 ||| low.toUInt64

def Memory.read (memory : Memory) : MineResult :=
  ⟨(memory .found).toInt32, joinWords (memory .high) (memory .low)⟩

/-- The arguments of `ondris_mine`, without the pointers to its results. -/
structure MineArgs where
  dataset : Bytes
  datasetLen : UInt64
  headerBytes : Bytes
  headerLen : UInt32
  nonceBase : UInt64
  accesses : UInt32
  target : Bytes

/-- What a work item that has found a nonce stores. -/
def wordOf (nonce : UInt64) : Cell → UInt32
  | .found => 1
  | .low => lowWord nonce
  | .high => highWord nonce

def nonceStores (nonce : UInt64) : List (Cell × UInt32) :=
  [.found, .low, .high].map fun cell => (cell, wordOf nonce cell)

/-- The stores of `ondris_mine` for the work item `gid`. -/
def mineStores (junk : UInt8) (args : MineArgs) (gid : UInt64) : Option (List (Cell × UInt32)) := do
  let nonce := args.nonceBase + gid
  let finalHash ← ondrisHashCore junk args.dataset args.datasetLen args.headerBytes args.headerLen
    nonce args.accesses
  let meets ← meetsFrom finalHash args.target 0 32
  some (if meets then nonceStores nonce else [])

/-- The stores of all work items. -/
def batchStores (junk : ℕ → UInt8) (args : MineArgs) (batchSize : UInt64) :
    Option (List (Cell × UInt32)) := do
  let stores ← (List.range batchSize.toNat).mapM fun gid =>
    mineStores (junk gid) args (UInt64.ofNat gid)
  some stores.flatten

end Kernel

/-! ## `MiningSession` -/

/-- The calls of OpenCL in a batch. -/
inductive DriverCall
  | uploadHeader
  | uploadTarget
  | resetFound
  | launch
  | readFound
  | readNonce
deriving DecidableEq

/-- What the device does in a batch. -/
structure BatchRun where
  /-- The uninitialised bytes that each work item starts with. -/
  junk : ℕ → UInt8
  /-- The order in which the stores take effect. -/
  order : List (Kernel.Cell × UInt32) → List (Kernel.Cell × UInt32)
  perm : ∀ stores, (order stores).Perm stores
  /-- The memory after an access out of range. -/
  undefined : Kernel.Memory
  fails : DriverCall → Bool

/-- The memory after the stores of the work items, `none` if one of them is undefined. -/
def BatchRun.execute (run : BatchRun) (memory : Kernel.Memory) :
    Option (List (Kernel.Cell × UInt32)) → Kernel.Memory
  | some stores => Stores.apply memory (run.order stores)
  | none => run.undefined

inductive TryBatchError
  | headerTooLong
  | driver (call : DriverCall)
deriving DecidableEq

/-- A buffer is its contents; a cached one stands next to what was uploaded into it. -/
structure MiningSession where
  datasetBuf : Bytes
  datasetLen : UInt64
  result : Kernel.Memory
  cachedHeader : Option (Bytes × Bytes)
  cachedTarget : Option (Bytes × Bytes)

/-- `mining_session`; the buffers of the results are not initialised. -/
def miningSession (dataset : Bytes) (result : Kernel.Memory) : MiningSession :=
  ⟨dataset, UInt64.ofNat dataset.length, result, none, none⟩

/-- Data is uploaded unless it is what the cache holds. -/
def isCached (cached : Option (Bytes × Bytes)) (data : Bytes) : Bool :=
  cached.map Prod.fst = some data

def upload (cached : Option (Bytes × Bytes)) (data : Bytes) : Option (Bytes × Bytes) :=
  if isCached cached data then cached else some (data, data)

namespace MiningSession

/-- The arguments of the launch; `none` where the source unwraps an empty cache. -/
def args (s : MiningSession) (headerBytes : Bytes) (nonceBase : UInt64) (accesses : UInt32) :
    Option Kernel.MineArgs := do
  let (_, headerBuf) ← s.cachedHeader
  let (_, targetBuf) ← s.cachedTarget
  some ⟨s.datasetBuf, s.datasetLen, headerBuf, UInt32.ofNat headerBytes.length, nonceBase, accesses,
    targetBuf⟩

/-- The memory after the kernel has run. -/
def launched (s : MiningSession) (headerBytes : Bytes) (nonceBase : UInt64) (accesses : UInt32)
    (batchSize : UInt64) (run : BatchRun) : Kernel.Memory :=
  run.execute s.result
    ((s.args headerBytes nonceBase accesses).bind (Kernel.batchStores run.junk · batchSize))

def tryBatch (s : MiningSession) (headerBytes : Bytes) (nonceBase : UInt64) (accesses : UInt32)
    (target : Bytes) (batchSize : UInt64) (run : BatchRun) :
    MiningSession × Except TryBatchError (Option UInt64) :=
  if headerBytes.length + 8 > 144 then (s, .error .headerTooLong)
  else if !isCached s.cachedHeader headerBytes && run.fails .uploadHeader then
    (s, .error (.driver .uploadHeader))
  else
    let s := { s with cachedHeader := upload s.cachedHeader headerBytes }
    if !isCached s.cachedTarget target && run.fails .uploadTarget then
      (s, .error (.driver .uploadTarget))
    else
      let s := { s with cachedTarget := upload s.cachedTarget target }
      if run.fails .resetFound then (s, .error (.driver .resetFound))
      else
        let s := { s with result := Function.update s.result .found 0 }
        if run.fails .launch then (s, .error (.driver .launch))
        else
          let s := { s with result := s.launched headerBytes nonceBase accesses batchSize run }
          let result := s.result.read
          if run.fails .readFound then (s, .error (.driver .readFound))
          else if result.found ≠ 0 then
            if run.fails .readNonce then (s, .error (.driver .readNonce))
            else (s, .ok (some result.nonce))
          else (s, .ok none)

end MiningSession

/-! ## The loop of the miner -/

/-- Where the miner is; in `mine_block_gpu` with the nonce that the next batch starts at. -/
inductive GpuPhase
  | fetching
  | searching (work : WorkTemplate) (dataset : Dataset) (nonceBase : UInt64)
  | exited

structure GpuMiner where
  cachedDataset : Option (UInt64 × Dataset)
  session : Option (UInt64 × MiningSession)
  phase : GpuPhase

inductive GpuInput
  | unreachable
  /-- The response is not a template. -/
  | malformed
  /-- A template, and what a new session finds in its buffers, unless it cannot be set up. -/
  | work (work : WorkTemplate) (target : work.target.length = 32) (fresh : Option Kernel.Memory)
  | batch (run : BatchRun)

/-- The call of `try_batch` in `mine_block_gpu`. -/
def MiningSession.mineBatch (s : MiningSession) (work : WorkTemplate) (nonceBase batchSize : UInt64)
    (run : BatchRun) : MiningSession × Except TryBatchError (Option UInt64) :=
  s.tryBatch work.block.header.bytesForPow nonceBase (UInt32.ofNat accesses) work.target batchSize run

namespace GpuMiner

/-- The dataset for a template; with a new one the session is dropped. -/
def fetch (K : Crates) (m : GpuMiner) (work : WorkTemplate) : GpuMiner × Dataset :=
  let renewed := ({ m with cachedDataset := some (work.epoch, work.dataset K), session := none },
    work.dataset K)
  match m.cachedDataset with
  | some (epoch, dataset) => if epoch = work.epoch then (m, dataset) else renewed
  | none => renewed

/-- From the template to the call of `mine_block_gpu`. -/
def prepare (K : Crates) (m : GpuMiner) (work : WorkTemplate) (fresh : Option Kernel.Memory) :
    GpuMiner :=
  let (m, dataset) := m.fetch K work
  match m.session, fresh with
  | some _, _ => { m with phase := .searching work dataset 0 }
  | none, some result =>
    { m with
      session := some (work.epoch, miningSession dataset.bytes result)
      phase := .searching work dataset 0 }
  | none, none => { m with phase := .exited }

/-- A pass of the loop of `mine_block_gpu`, with the block that it returns. -/
def searched (K : Crates) (batchSize : UInt64) (m : GpuMiner) (work : WorkTemplate)
    (dataset : Dataset) (nonceBase : UInt64) (run : BatchRun) : GpuMiner × Option Block :=
  match m.session with
  | none => (m, none)
  | some (epoch, session) =>
    let (session, result) := session.mineBatch work nonceBase batchSize run
    let m := { m with session := some (epoch, session) }
    match result with
    | .error _ => ({ m with phase := .exited }, none)
    | .ok found =>
      -- the nonce is checked again on the CPU
      match found.filter (hits K work.block.header.bytesForPow work.target dataset) with
      | some nonce => ({ m with phase := .fetching }, some (work.block.withNonce nonce))
      | none => ({ m with phase := .searching work dataset (nonceBase + batchSize) }, none)

/-- The miner goes on, perhaps with a block to submit; the answer to it is only logged. -/
def next (K : Crates) (batchSize : UInt64) (m : GpuMiner) : GpuInput → GpuMiner × Option Block
  | .unreachable => (m, none)
  | .malformed =>
    match m.phase with
    | .fetching => ({ m with phase := .exited }, none)
    | _ => (m, none)
  | .work work _ fresh =>
    match m.phase with
    | .fetching => (m.prepare K work fresh, none)
    | _ => (m, none)
  | .batch run =>
    match m.phase with
    | .searching work dataset nonceBase => m.searched K batchSize work dataset nonceBase run
    | _ => (m, none)

end GpuMiner

def gpuMining (K : Crates) (batchSize : UInt64) : Machine GpuMiner GpuInput (Option Block) where
  init m := m = ⟨none, none, .fetching⟩
  step m i := (m.next K batchSize i).1
  out m i := (m.next K batchSize i).2

/-! ## What the device stores -/

/-- The nonces that a batch tries. -/
def InBatch (nonceBase batchSize nonce : UInt64) : Prop :=
  ∃ gid < batchSize.toNat, nonce = nonceBase + UInt64.ofNat gid

/-- The test of a nonce, with a number of accesses. -/
def hitsWith (K : Crates) (headerBytes target : Bytes) (dataset : Dataset) (accesses : ℕ)
    (nonce : UInt64) : Bool :=
  meetsTarget (ondrisHashWithAccesses K headerBytes nonce dataset accesses) target

namespace Kernel

theorem toNat_joinWords (high low : UInt32) :
    (joinWords high low).toNat = high.toNat * 2 ^ 32 + low.toNat := by
  have hhigh := high.toNat_lt
  have hlow := low.toNat_lt
  have hshift : (32 : UInt64).toNat % 64 = 32 := rfl
  rw [joinWords, UInt64.toNat_or, UInt64.toNat_shiftLeft, UInt32.toNat_toUInt64,
    UInt32.toNat_toUInt64, hshift, Nat.shiftLeft_eq, Nat.mod_eq_of_lt (by omega), Nat.mul_comm,
    Nat.two_pow_add_eq_or_of_lt hlow]

theorem toNat_lowWord (nonce : UInt64) : (lowWord nonce).toNat = nonce.toNat % 2 ^ 32 :=
  UInt64.toNat_toUInt32 nonce

theorem toNat_highWord (nonce : UInt64) : (highWord nonce).toNat = nonce.toNat / 2 ^ 32 := by
  have hshift : (32 : UInt64).toNat % 64 = 32 := rfl
  have hlt := nonce.toNat_lt
  rw [highWord, UInt64.toNat_toUInt32, UInt64.toNat_shiftRight, hshift, Nat.shiftRight_eq_div_pow,
    Nat.mod_eq_of_lt (by omega)]

theorem joinWords_words (nonce : UInt64) : joinWords (highWord nonce) (lowWord nonce) = nonce := by
  refine UInt64.toNat_inj.mp ?_
  rw [toNat_joinWords, toNat_highWord, toNat_lowWord, Nat.div_add_mod']

theorem lowWord_joinWords (high low : UInt32) : lowWord (joinWords high low) = low := by
  refine UInt32.toNat_inj.mp ?_
  rw [toNat_lowWord, toNat_joinWords, Nat.mul_add_mod', Nat.mod_eq_of_lt low.toNat_lt]

theorem highWord_joinWords (high low : UInt32) : highWord (joinWords high low) = high := by
  refine UInt32.toNat_inj.mp ?_
  rw [toNat_highWord, toNat_joinWords, Nat.mul_comm, Nat.mul_add_div (Nat.two_pow_pos 32),
    Nat.div_eq_of_lt low.toNat_lt, Nat.add_zero]

theorem mem_nonceStores {nonce : UInt64} {store : Cell × UInt32} :
    store ∈ nonceStores nonce ↔ store.2 = wordOf nonce store.1 := by
  obtain ⟨cell, word⟩ := store
  cases cell <;> simp [nonceStores]

/-- A work item that runs on its own does what `ondrisMine` says. -/
theorem ondrisMine_eq (junk : UInt8) (args : MineArgs) (memory : Memory) (gid : UInt64) :
    ondrisMine junk args.dataset args.datasetLen args.headerBytes args.headerLen args.nonceBase
        args.accesses args.target memory.read gid
      = (mineStores junk args gid).map fun stores => Memory.read (Stores.apply memory stores) := by
  have hread : Memory.read (Stores.apply memory (nonceStores (args.nonceBase + gid)))
      = ⟨1, args.nonceBase + gid⟩ := by
    rw [Memory.read]
    congr 1
    exact joinWords_words (args.nonceBase + gid)
  unfold ondrisMine mineStores
  cases hcore : ondrisHashCore junk args.dataset args.datasetLen args.headerBytes args.headerLen
    (args.nonceBase + gid) args.accesses with
  | none => simp [hcore]
  | some finalHash =>
    cases hmeets : meetsFrom finalHash args.target 0 32 with
    | none => simp [hcore, hmeets]
    | some meets =>
      cases meets with
      | false => simp [hcore, hmeets]
      | true => simp [hcore, hmeets, hread]

section Batch

variable {K : Crates} {dataset : Dataset} {header target : Bytes}

/-- The arguments that the kernel ought to get. -/
def MineArgs.of (dataset : Dataset) (header target : Bytes) (nonceBase : UInt64)
    (accesses : UInt32) : MineArgs :=
  ⟨dataset.bytes, UInt64.ofNat dataset.lenBytes, header, UInt32.ofNat header.length, nonceBase,
    accesses, target⟩

/-- A work item stores a nonce that meets the target, and nothing else. -/
theorem mineStores_eq (hK : IsBlake3 K) (hheader : header.length ≤ 136)
    (hitem : Ondris.itemSize ≤ dataset.lenBytes) (hlt : dataset.lenBytes < 2 ^ 64)
    (htarget : target.length = 32) (junk : UInt8) (nonceBase : UInt64) (accesses : UInt32)
    (gid : UInt64) : mineStores junk (.of dataset header target nonceBase accesses) gid
      = some (if hitsWith K header target dataset accesses.toNat (nonceBase + gid)
        then nonceStores (nonceBase + gid) else []) := by
  have hheaderLen : (UInt32.ofNat header.length).toNat = header.length := by
    rw [UInt32.toNat_ofNat', Nat.mod_eq_of_lt (by omega)]
  have hdatasetLen : (UInt64.ofNat dataset.lenBytes).toNat = dataset.lenBytes := by
    rw [UInt64.toNat_ofNat', Nat.mod_eq_of_lt hlt]
  have hcore := ondrisHashCore_eq hK junk hheader hheaderLen (nonceBase + gid) hdatasetLen hitem
    accesses
  have hmeets := meetsFrom_eq (n := 32) (i := 0) (Hash256.length_asBytes
    (ondrisHashWithAccesses K header (nonceBase + gid) dataset accesses.toNat)) htarget
  rw [List.drop_zero, List.drop_zero] at hmeets
  unfold mineStores MineArgs.of
  simp only [hcore, hmeets, Option.bind_eq_bind, Option.bind_some]
  rfl

theorem batchStores_eq (hK : IsBlake3 K) (hheader : header.length ≤ 136)
    (hitem : Ondris.itemSize ≤ dataset.lenBytes) (hlt : dataset.lenBytes < 2 ^ 64)
    (htarget : target.length = 32) (junk : ℕ → UInt8) (nonceBase : UInt64) (accesses : UInt32)
    (batchSize : UInt64) :
    ∃ stores, batchStores junk (.of dataset header target nonceBase accesses) batchSize = some stores ∧
      ∀ store, store ∈ stores ↔ ∃ nonce, InBatch nonceBase batchSize nonce ∧
        hitsWith K header target dataset accesses.toNat nonce = true ∧ store ∈ nonceStores nonce := by
  have hitems := Buffers.mapM_eq_some (l := List.range batchSize.toNat) fun gid _ =>
    mineStores_eq hK hheader hitem hlt htarget (junk gid) nonceBase accesses (UInt64.ofNat gid)
  refine ⟨_, by rw [batchStores, hitems]; rfl, fun store => ?_⟩
  rw [← List.flatMap_def, List.mem_flatMap]
  constructor
  · rintro ⟨gid, hgid, hstore⟩
    split at hstore
    · next hhit => exact ⟨_, ⟨gid, List.mem_range.mp hgid, rfl⟩, hhit, hstore⟩
    · exact absurd hstore List.not_mem_nil
  · rintro ⟨nonce, ⟨gid, hgid, rfl⟩, hhit, hstore⟩
    refine ⟨gid, List.mem_range.mpr hgid, ?_⟩
    rw [if_pos hhit]
    exact hstore

end Batch

end Kernel

/-! ## A session -/

/-- A buffer of a cache holds what stands next to it. -/
def Coherent (cached : Option (Bytes × Bytes)) : Prop := ∀ entry ∈ cached, entry.2 = entry.1

theorem coherent_upload {cached : Option (Bytes × Bytes)} (h : Coherent cached) (data : Bytes) :
    upload cached data = some (data, data) := by
  unfold upload isCached
  split
  · next hkey =>
    obtain ⟨⟨key, buf⟩, hentry, rfl⟩ := Option.map_eq_some_iff.mp (of_decide_eq_true hkey)
    obtain rfl : buf = key := h _ hentry
    exact hentry
  · rfl

theorem coherent_some (data : Bytes) : Coherent (some (data, data)) := by
  rintro entry ⟨⟩
  rfl

/-- A session that hashes with the dataset. -/
structure MiningSession.Holds (s : MiningSession) (dataset : Dataset) : Prop where
  datasetBuf : s.datasetBuf = dataset.bytes
  datasetLen : s.datasetLen = UInt64.ofNat dataset.lenBytes
  header : Coherent s.cachedHeader
  target : Coherent s.cachedTarget

/-- What the host takes from the memory. -/
def Kernel.Memory.taken (memory : Kernel.Memory) : Option UInt64 :=
  if memory.read.found ≠ 0 then some memory.read.nonce else none

section Session

variable {K : Crates} {dataset : Dataset} {s : MiningSession} {headerBytes target : Bytes}
  {nonceBase batchSize : UInt64} {accesses : UInt32} {run : BatchRun}

theorem holds_miningSession (dataset : Dataset) (result : Kernel.Memory) :
    (miningSession dataset.bytes result).Holds dataset :=
  ⟨rfl, rfl, nofun, nofun⟩

namespace MiningSession.Holds

theorem tryBatch (h : s.Holds dataset) :
    (s.tryBatch headerBytes nonceBase accesses target batchSize run).1.Holds dataset := by
  have hheader : Coherent (upload s.cachedHeader headerBytes) := by
    rw [coherent_upload h.header]
    exact coherent_some headerBytes
  have htarget : Coherent (upload s.cachedTarget target) := by
    rw [coherent_upload h.target]
    exact coherent_some target
  unfold MiningSession.tryBatch
  simp only
  split
  · exact h
  split
  · exact h
  split
  · exact ⟨h.datasetBuf, h.datasetLen, hheader, h.target⟩
  split
  · exact ⟨h.datasetBuf, h.datasetLen, hheader, htarget⟩
  split
  · exact ⟨h.datasetBuf, h.datasetLen, hheader, htarget⟩
  split
  · exact ⟨h.datasetBuf, h.datasetLen, hheader, htarget⟩
  split
  · split <;> exact ⟨h.datasetBuf, h.datasetLen, hheader, htarget⟩
  · exact ⟨h.datasetBuf, h.datasetLen, hheader, htarget⟩

/-- The kernel gets the arguments that it ought to get. -/
theorem args (h : s.Holds dataset) {result : Kernel.Memory} :
    MiningSession.args ⟨s.datasetBuf, s.datasetLen, result, upload s.cachedHeader headerBytes,
        upload s.cachedTarget target⟩ headerBytes nonceBase accesses
      = some (.of dataset headerBytes target nonceBase accesses) := by
  rw [coherent_upload h.header, coherent_upload h.target, h.datasetBuf, h.datasetLen]
  rfl

/-- What a batch returns if no call fails. -/
theorem tryBatch_ok (h : s.Holds dataset) {found : Option UInt64}
    (hok : (s.tryBatch headerBytes nonceBase accesses target batchSize run).2 = .ok found) :
    headerBytes.length ≤ 136 ∧ ∃ memory : Kernel.Memory, memory .found = 0 ∧
      found = (run.execute memory (Kernel.batchStores run.junk
        (.of dataset headerBytes target nonceBase accesses) batchSize)).taken := by
  unfold MiningSession.tryBatch at hok
  simp only [launched, h.args, Option.bind_some] at hok
  split at hok
  · cases hok
  next hlong =>
  refine ⟨by omega, Function.update s.result .found 0, Function.update_self _ _ _, ?_⟩
  unfold Kernel.Memory.taken
  split at hok
  · cases hok
  split at hok
  · cases hok
  split at hok
  · cases hok
  split at hok
  · cases hok
  split at hok
  · cases hok
  split at hok
  · next hfound =>
    split at hok
    · cases hok
    · rw [if_pos hfound]
      exact (Except.ok.inj hok).symm
  · next hfound =>
    rw [if_neg hfound]
    exact (Except.ok.inj hok).symm

end MiningSession.Holds

/-- A batch returns something if no call fails. -/
theorem exists_tryBatch_ok (s : MiningSession) (hheader : headerBytes.length ≤ 136)
    (hrun : ∀ call, run.fails call = false) :
    ∃ found, (s.tryBatch headerBytes nonceBase accesses target batchSize run).2 = .ok found := by
  have hshort : ¬ headerBytes.length + 8 > 144 := by omega
  unfold MiningSession.tryBatch
  simp only [hshort, hrun, if_false, Bool.and_false, Bool.false_eq_true]
  split
  · exact ⟨_, rfl⟩
  · exact ⟨_, rfl⟩

end Session

/-! ## What a batch finds -/

/-- Each word of the nonce is that of a solution in the batch. -/
structure Pieced (good : UInt64 → Bool) (nonceBase batchSize nonce : UInt64) : Prop where
  low : ∃ n, InBatch nonceBase batchSize n ∧ good n = true ∧
    Kernel.lowWord nonce = Kernel.lowWord n
  high : ∃ n, InBatch nonceBase batchSize n ∧ good n = true ∧
    Kernel.highWord nonce = Kernel.highWord n

/-- With one upper word in the batch the words fit together. -/
theorem Pieced.eq {good : UInt64 → Bool} {nonceBase batchSize nonce : UInt64}
    (h : Pieced good nonceBase batchSize nonce) {word : UInt32}
    (hword : ∀ n, InBatch nonceBase batchSize n → Kernel.highWord n = word) :
    InBatch nonceBase batchSize nonce ∧ good nonce = true := by
  obtain ⟨n, hn, hgood, hlow⟩ := h.low
  obtain ⟨n', hn', -, hhigh⟩ := h.high
  have heq : nonce = n := by
    rw [← Kernel.joinWords_words nonce, hlow, hhigh, hword n' hn', ← hword n hn,
      Kernel.joinWords_words]
  rw [heq]
  exact ⟨hn, hgood⟩

/-- What a search over a batch may return. -/
structure Finds (good : UInt64 → Bool) (nonceBase batchSize : UInt64) (found : Option UInt64) :
    Prop where
  none : found = none → ∀ n, InBatch nonceBase batchSize n → good n = false
  some : ∀ nonce, found = some nonce → Pieced good nonceBase batchSize nonce

namespace Kernel

variable {K : Crates} {dataset : Dataset} {header target : Bytes} {memory : Memory}

theorem taken_of_zero (h : memory .found = 0) : memory.taken = none := by
  have hread : memory.read.found = 0 := congrArg UInt32.toInt32 h
  rw [Memory.taken, if_neg (not_not_intro hread)]

theorem taken_of_one (h : memory .found = 1) :
    memory.taken = some (joinWords (memory .high) (memory .low)) := by
  have hread : memory.read.found = 1 := congrArg UInt32.toInt32 h
  rw [Memory.taken, if_pos (by rw [hread]; decide)]
  rfl

/-- Whatever the order of the stores. -/
theorem execute_finds (hK : IsBlake3 K) (hheader : header.length ≤ 136)
    (hitem : Ondris.itemSize ≤ dataset.lenBytes) (hlt : dataset.lenBytes < 2 ^ 64)
    (htarget : target.length = 32) (run : BatchRun) (nonceBase batchSize : UInt64)
    (accesses : UInt32) (hmemory : memory .found = 0) :
    Finds (hitsWith K header target dataset accesses.toNat) nonceBase batchSize
      (run.execute memory (batchStores run.junk (.of dataset header target nonceBase accesses)
        batchSize)).taken := by
  obtain ⟨stores, hstores, hmem⟩ := batchStores_eq hK hheader hitem hlt htarget run.junk nonceBase
    accesses batchSize
  have hmem' : ∀ store, store ∈ run.order stores ↔ ∃ nonce, InBatch nonceBase batchSize nonce ∧
      hitsWith K header target dataset accesses.toNat nonce = true ∧ store ∈ nonceStores nonce :=
    fun store => (run.perm stores).mem_iff.trans (hmem store)
  rw [hstores, BatchRun.execute]
  by_cases hsome : ∃ nonce, InBatch nonceBase batchSize nonce ∧
      hitsWith K header target dataset accesses.toNat nonce = true
  · -- each cell holds what the work item of some solution has stored
    have hcell : ∀ cell, ∃ n, InBatch nonceBase batchSize n ∧
        hitsWith K header target dataset accesses.toNat n = true ∧
        Stores.apply memory (run.order stores) cell = wordOf n cell := by
      intro cell
      obtain ⟨nonce, hbatch, hhit⟩ := hsome
      have hstored : (cell, wordOf nonce cell) ∈ run.order stores :=
        (hmem' _).mpr ⟨nonce, hbatch, hhit, mem_nonceStores.mpr rfl⟩
      obtain ⟨store, hstore, rfl, hlast⟩ := Stores.apply_eq_stored (m := memory)
        ⟨_, hstored, rfl⟩
      obtain ⟨n, hn, hgood, hword⟩ := (hmem' store).mp hstore
      exact ⟨n, hn, hgood, hlast.trans (mem_nonceStores.mp hword)⟩
    obtain ⟨_, -, -, hfound⟩ := hcell .found
    obtain ⟨lo, hlo, hlogood, hlow⟩ := hcell .low
    obtain ⟨hi, hhi, hhigood, hhigh⟩ := hcell .high
    rw [taken_of_one hfound, hlow, hhigh]
    refine ⟨nofun, fun n hn => ?_⟩
    obtain rfl := Option.some.inj hn
    exact ⟨⟨lo, hlo, hlogood, lowWord_joinWords _ _⟩, ⟨hi, hhi, hhigood, highWord_joinWords _ _⟩⟩
  · -- no store at all
    have hnone : ∀ store ∈ run.order stores, store.1 ≠ .found := fun store hstore => by
      obtain ⟨nonce, hbatch, hhit, -⟩ := (hmem' store).mp hstore
      exact absurd ⟨nonce, hbatch, hhit⟩ hsome
    rw [taken_of_zero ((Stores.apply_eq_self hnone).trans hmemory)]
    exact ⟨fun _ n hn => Bool.eq_false_iff.mpr fun hhit => hsome ⟨n, hn, hhit⟩, nofun⟩

end Kernel

/-! ## Sessions over time -/

/-- A call of `try_batch`. -/
structure BatchCall where
  headerBytes : Bytes
  nonceBase : UInt64
  accesses : UInt32
  target : Bytes
  targetLength : target.length = 32
  batchSize : UInt64
  run : BatchRun

/-- The answer of a session to a call, and the session after it. -/
def MiningSession.answer (s : MiningSession) (c : BatchCall) :
    MiningSession × Except TryBatchError (Option UInt64) :=
  s.tryBatch c.headerBytes c.nonceBase c.accesses c.target c.batchSize c.run

/-- The session when the kernel is launched. -/
def MiningSession.uploaded (s : MiningSession) (c : BatchCall) : MiningSession :=
  { s with
    cachedHeader := upload s.cachedHeader c.headerBytes
    cachedTarget := upload s.cachedTarget c.target
    result := Function.update s.result .found 0 }

/-- What the kernel stores then, `none` if a work item accesses something out of range. -/
def MiningSession.kernelStores (s : MiningSession) (c : BatchCall) :
    Option (List (Kernel.Cell × UInt32)) :=
  ((s.uploaded c).args c.headerBytes c.nonceBase c.accesses).bind
    (Kernel.batchStores c.run.junk · c.batchSize)

/-- Sessions with the dataset, whatever was in their buffers at the start. -/
def miningSessions (dataset : Bytes) :
    Machine MiningSession BatchCall (Except TryBatchError (Option UInt64)) where
  init s := ∃ result, s = miningSession dataset result
  step s c := (s.answer c).1
  out s c := (s.answer c).2

theorem holds_of_reachable {dataset : Dataset} {s : MiningSession}
    (hs : (miningSessions dataset.bytes).Reachable s) : s.Holds dataset := by
  induction hs with
  | init h =>
    obtain ⟨result, rfl⟩ := h
    exact holds_miningSession dataset result
  | step c _ _ ih => exact ih.tryBatch

/-- **A session finds what there is to find.** It may have been used with other headers and
targets, and calls may have failed: the kernel accesses nothing out of range, a batch that
returns nothing has no solution, and what one returns is made of the words of solutions in it,
in whatever order the work items store them; it is a solution in the batch if all nonces there
have the same upper word. A batch without a failing call returns. -/
theorem try_batch_exact {K : Crates} (hK : IsBlake3 K) {dataset : Dataset}
    (hitem : itemSize ≤ dataset.lenBytes) (hlt : dataset.lenBytes < 2 ^ 64) {s : MiningSession}
    (hs : (miningSessions dataset.bytes).Reachable s) (c : BatchCall) :
    (c.headerBytes.length ≤ 136 → (s.kernelStores c).isSome) ∧
    (∀ found, (miningSessions dataset.bytes).out s c = .ok found →
      Finds (hitsWith K c.headerBytes c.target dataset c.accesses.toNat) c.nonceBase c.batchSize
        found) ∧
    (∀ nonce, (miningSessions dataset.bytes).out s c = .ok (some nonce) →
      (∃ word, ∀ n, InBatch c.nonceBase c.batchSize n → Kernel.highWord n = word) →
      InBatch c.nonceBase c.batchSize nonce ∧
        hitsWith K c.headerBytes c.target dataset c.accesses.toNat nonce = true) ∧
    (c.headerBytes.length ≤ 136 → (∀ call, c.run.fails call = false) →
      ∃ found, (miningSessions dataset.bytes).out s c = .ok found) := by
  have hholds := holds_of_reachable hs
  have hfinds : ∀ found, (miningSessions dataset.bytes).out s c = .ok found →
      Finds (hitsWith K c.headerBytes c.target dataset c.accesses.toNat) c.nonceBase c.batchSize
        found := by
    intro found hok
    obtain ⟨hheader, memory, hmemory, rfl⟩ := hholds.tryBatch_ok hok
    exact Kernel.execute_finds hK hheader hitem hlt c.targetLength c.run c.nonceBase c.batchSize
      c.accesses hmemory
  refine ⟨fun hheader => ?_, hfinds, fun nonce hok hword => ?_, fun hheader hrun => ?_⟩
  · obtain ⟨stores, hstores, -⟩ := Kernel.batchStores_eq hK hheader hitem hlt c.targetLength
      c.run.junk c.nonceBase c.accesses c.batchSize
    rw [MiningSession.kernelStores, MiningSession.uploaded, hholds.args, Option.bind_some, hstores]
    rfl
  · obtain ⟨word, hword⟩ := hword
    exact ((hfinds _ hok).some nonce rfl).eq hword
  · exact exists_tryBatch_ok s hheader hrun

/-! ## Batches side by side -/

section Aligned

variable {nonceBase batchSize nonce : UInt64}

/-- The batch after this one starts where this one ends. -/
theorem add_batchSize_le (hdvd : batchSize.toNat ∣ 2 ^ 32) (hbase : batchSize.toNat ∣ nonceBase.toNat) :
    nonceBase.toNat + batchSize.toNat ≤ 2 ^ 64 := by
  have hall : batchSize.toNat ∣ 2 ^ 64 := hdvd.trans (Nat.pow_dvd_pow 2 (by decide))
  have hrest : batchSize.toNat ∣ 2 ^ 64 - nonceBase.toNat := Nat.dvd_sub hall hbase
  have hlt := nonceBase.toNat_lt
  have hle := Nat.le_of_dvd (Nat.sub_pos_of_lt hlt) hrest
  omega

theorem inBatch_iff (hdvd : batchSize.toNat ∣ 2 ^ 32) (hbase : batchSize.toNat ∣ nonceBase.toNat) :
    InBatch nonceBase batchSize nonce ↔
      nonceBase.toNat ≤ nonce.toNat ∧ nonce.toNat < nonceBase.toNat + batchSize.toNat := by
  have hle := add_batchSize_le hdvd hbase
  constructor
  · rintro ⟨gid, hgid, rfl⟩
    rw [UInt64.toNat_add, UInt64.toNat_ofNat', Nat.mod_eq_of_lt (a := gid) (by omega),
      Nat.mod_eq_of_lt (by omega)]
    exact ⟨Nat.le_add_right _ _, Nat.add_lt_add_left hgid _⟩
  · rintro ⟨hge, hlt⟩
    refine ⟨nonce.toNat - nonceBase.toNat, by omega, UInt64.toNat_inj.mp ?_⟩
    rw [UInt64.toNat_add, UInt64.toNat_ofNat', Nat.mod_eq_of_lt (a := nonce.toNat - _) (by omega),
      Nat.mod_eq_of_lt (by omega)]
    omega

/-- The nonces of a batch have the same upper word. -/
theorem highWord_inBatch (hdvd : batchSize.toNat ∣ 2 ^ 32)
    (hbase : batchSize.toNat ∣ nonceBase.toNat) (hn : InBatch nonceBase batchSize nonce) :
    Kernel.highWord nonce = Kernel.highWord nonceBase := by
  obtain ⟨hge, hlt⟩ := (inBatch_iff hdvd hbase).mp hn
  obtain ⟨k, hk⟩ := hbase
  obtain ⟨m, hm⟩ := hdvd
  refine UInt32.toNat_inj.mp ?_
  rw [Kernel.toNat_highWord, Kernel.toNat_highWord, hm, ← Nat.div_div_eq_div_mul,
    ← Nat.div_div_eq_div_mul]
  have hpos : 0 < batchSize.toNat := Nat.pos_of_ne_zero fun hzero => by
    rw [hzero, Nat.zero_mul] at hm
    cases hm
  have hbase : nonceBase.toNat / batchSize.toNat = k := by
    rw [hk, Nat.mul_div_cancel_left k hpos]
  have hnonce : nonce.toNat / batchSize.toNat = k :=
    Nat.div_eq_of_lt_le (by rw [Nat.mul_comm]; omega) (by rw [Nat.succ_mul, Nat.mul_comm]; omega)
  rw [hbase, hnonce]

theorem dvd_next (hdvd : batchSize.toNat ∣ 2 ^ 32) (hbase : batchSize.toNat ∣ nonceBase.toNat) :
    batchSize.toNat ∣ (nonceBase + batchSize).toNat := by
  have hall : batchSize.toNat ∣ 2 ^ 64 := hdvd.trans (Nat.pow_dvd_pow 2 (by decide))
  rw [UInt64.toNat_add]
  exact (Nat.dvd_mod_iff hall).mpr (Nat.dvd_add hbase (Nat.dvd_refl _))

end Aligned

/-! ## The miner over time -/

/-- The templates that the miner gets. -/
def Gives (given : WorkTemplate → Prop) (_ : GpuMiner) : GpuInput → Prop
  | .work work _ _ => given work
  | _ => True

/-- Templates of one epoch have one dataset. -/
def SameDatasets (K : Crates) (given : WorkTemplate → Prop) : Prop :=
  ∀ w w', given w → given w' → w.epoch = w'.epoch → w.dataset K = w'.dataset K

/-- What the miner keeps: the dataset of an epoch, a session with this dataset, and in the
search a template of this epoch. -/
structure GpuInv (K : Crates) (given : WorkTemplate → Prop) (m : GpuMiner) : Prop where
  cached : ∀ epoch dataset, m.cachedDataset = some (epoch, dataset) →
    ∃ w, given w ∧ w.epoch = epoch ∧ dataset = w.dataset K
  session : ∀ epoch session, m.session = some (epoch, session) →
    ∃ cachedEpoch dataset, m.cachedDataset = some (cachedEpoch, dataset) ∧ session.Holds dataset
  searching : ∀ work dataset nonceBase, m.phase = .searching work dataset nonceBase →
    given work ∧ work.target.length = 32 ∧ m.cachedDataset = some (work.epoch, dataset) ∧
      m.session.isSome = true

section Miner

variable {K : Crates} {g : GenesisConfig} {given : WorkTemplate → Prop} {batchSize nonceBase : UInt64}
  {m : GpuMiner} {work : WorkTemplate} {dataset : Dataset} {run : BatchRun}

/-- The dataset is kept with the session, or both are new. -/
theorem fetch_spec (h : GpuInv K given m) (hwork : given work) :
    GpuInv K given { (m.fetch K work).1 with phase := .fetching } ∧
      (m.fetch K work).1.cachedDataset = some (work.epoch, (m.fetch K work).2) := by
  have hrenewed : GpuInv K given ⟨some (work.epoch, work.dataset K), none, .fetching⟩ := by
    refine ⟨fun epoch dataset hcached => ?_, nofun, nofun⟩
    obtain ⟨rfl, rfl⟩ := Prod.mk.inj (Option.some.inj hcached)
    exact ⟨work, hwork, rfl, rfl⟩
  unfold GpuMiner.fetch
  simp only
  split
  · next epoch dataset hcached =>
    split
    · next hepoch =>
      rw [← hepoch]
      exact ⟨⟨h.cached, h.session, nofun⟩, hcached⟩
    · exact ⟨hrenewed, rfl⟩
  · exact ⟨hrenewed, rfl⟩

theorem prepare_inv (h : GpuInv K given m) (hwork : given work) (htarget : work.target.length = 32)
    (fresh : Option Kernel.Memory) : GpuInv K given (m.prepare K work fresh) := by
  obtain ⟨hinv, hcached⟩ := fetch_spec h hwork
  unfold GpuMiner.prepare
  generalize m.fetch K work = fetched at hinv hcached
  obtain ⟨m', dataset⟩ := fetched
  simp only
  split
  · next _ hsession =>
    refine ⟨hinv.cached, hinv.session, fun work' dataset' base hphase => ?_⟩
    cases hphase
    exact ⟨hwork, htarget, hcached, Option.isSome_of_mem hsession⟩
  · next result _ =>
    refine ⟨hinv.cached, fun epoch session hnew => ?_, fun work' dataset' base hphase => ?_⟩
    · obtain ⟨rfl, rfl⟩ := Prod.mk.inj (Option.some.inj hnew)
      exact ⟨_, dataset, hcached, holds_miningSession dataset result⟩
    · cases hphase
      exact ⟨hwork, htarget, hcached, rfl⟩
  · exact ⟨hinv.cached, hinv.session, nofun⟩

/-- What comes out of a pass of the loop: the answer of a session that hashes with the dataset,
and what the miner makes of it. -/
inductive Pass (K : Crates) (batchSize : UInt64) (work : WorkTemplate) (dataset : Dataset)
    (nonceBase : UInt64) (epoch : UInt64) (session : MiningSession) (cached : Option (UInt64 × Dataset)) :
    Except TryBatchError (Option UInt64) → GpuMiner × Option Block → Prop
  | failed (e : TryBatchError) : Pass K batchSize work dataset nonceBase epoch session cached
      (.error e) (⟨cached, some (epoch, session), .exited⟩, none)
  | solved (nonce : UInt64)
      (hit : hits K work.block.header.bytesForPow work.target dataset nonce = true) :
      Pass K batchSize work dataset nonceBase epoch session cached (.ok (some nonce))
        (⟨cached, some (epoch, session), .fetching⟩, some (work.block.withNonce nonce))
  | passed (found : Option UInt64)
      (miss : ∀ nonce, found = some nonce →
        hits K work.block.header.bytesForPow work.target dataset nonce = false) :
      Pass K batchSize work dataset nonceBase epoch session cached (.ok found)
        (⟨cached, some (epoch, session), .searching work dataset (nonceBase + batchSize)⟩, none)

theorem searched_pass {epoch : UInt64} {session : MiningSession}
    (hsession : m.session = some (epoch, session)) :
    Pass K batchSize work dataset nonceBase epoch
      (session.mineBatch work nonceBase batchSize run).1 m.cachedDataset
      (session.mineBatch work nonceBase batchSize run).2
      (m.searched K batchSize work dataset nonceBase run) := by
  unfold GpuMiner.searched
  rw [hsession]
  simp only
  generalize session.mineBatch work nonceBase batchSize run = answer
  obtain ⟨session', result⟩ := answer
  cases result with
  | error e => exact .failed e
  | ok found =>
    simp only
    split
    · next nonce hnonce =>
      obtain ⟨rfl, hhit⟩ := Option.filter_eq_some_iff.mp hnonce
      exact .solved nonce hhit
    · next hnone =>
      exact .passed found fun nonce hfound =>
        Bool.eq_false_iff.mpr (Option.filter_eq_none_iff.mp hnone nonce hfound)

theorem lenBytes_dataset (work : WorkTemplate) : (work.dataset K).lenBytes = datasetSize := by
  rw [WorkTemplate.dataset, Dataset.generate, Dataset.lenBytes_generateWithSizes]
  rfl

/-- In the search there is a session, and it hashes with the dataset. -/
theorem GpuInv.session_holds (h : GpuInv K given m)
    (hphase : m.phase = .searching work dataset nonceBase) :
    ∃ epoch session, m.session = some (epoch, session) ∧ session.Holds dataset ∧
      dataset.lenBytes = datasetSize := by
  obtain ⟨-, -, hcached, hsome⟩ := h.searching _ _ _ hphase
  obtain ⟨⟨epoch, session⟩, hsession⟩ := Option.isSome_iff_exists.mp hsome
  obtain ⟨e, ds, hds, hholds⟩ := h.session _ _ hsession
  obtain ⟨rfl, rfl⟩ := Prod.mk.inj (Option.some.inj (hcached.symm.trans hds))
  obtain ⟨w, -, -, rfl⟩ := h.cached _ _ hcached
  exact ⟨epoch, session, hsession, hholds, lenBytes_dataset w⟩

theorem searched_inv (h : GpuInv K given m) (hphase : m.phase = .searching work dataset nonceBase) :
    GpuInv K given (m.searched K batchSize work dataset nonceBase run).1 := by
  obtain ⟨hgiven, htarget, hcached, -⟩ := h.searching _ _ _ hphase
  obtain ⟨epoch, session, hsession, hholds, -⟩ := h.session_holds hphase
  have hpass : Pass K batchSize work dataset nonceBase epoch _ _ _
    (m.searched K batchSize work dataset nonceBase run) := searched_pass hsession
  have hlater : (session.mineBatch work nonceBase batchSize run).1.Holds dataset :=
    hholds.tryBatch
  generalize session.mineBatch work nonceBase batchSize run = answer at hpass hlater
  obtain ⟨session', result⟩ := answer
  have hkept : ∀ epoch' later, some (epoch, session') = some (epoch', later) →
      ∃ cachedEpoch ds, m.cachedDataset = some (cachedEpoch, ds) ∧ later.Holds ds := by
    rintro epoch' later ⟨⟩
    exact ⟨work.epoch, dataset, hcached, hlater⟩
  generalize m.searched K batchSize work dataset nonceBase run = after at hpass
  cases hpass with
  | failed e => exact ⟨h.cached, hkept, nofun⟩
  | solved nonce hit => exact ⟨h.cached, hkept, nofun⟩
  | passed found miss =>
    refine ⟨h.cached, hkept, fun work' dataset' base hnext => ?_⟩
    cases hnext
    exact ⟨hgiven, htarget, hcached, rfl⟩

theorem next_inv (h : GpuInv K given m) {i : GpuInput} (hi : Gives given m i) :
    GpuInv K given (m.next K batchSize i).1 := by
  cases i with
  | unreachable => exact h
  | malformed =>
    simp only [GpuMiner.next]
    split
    · exact ⟨h.cached, h.session, nofun⟩
    · exact h
  | work work htarget fresh =>
    simp only [GpuMiner.next]
    split
    · exact prepare_inv h hi htarget fresh
    · exact h
  | batch run =>
    simp only [GpuMiner.next]
    split
    · next hphase => exact searched_inv h hphase
    · exact h

theorem gpuInv (hm : (gpuMining K batchSize).Reach (Gives given) m) : GpuInv K given m := by
  induction hm with
  | init h =>
    cases h
    exact ⟨nofun, nofun, nofun⟩
  | step i _ hi ih => exact next_inv ih hi

/-- The miner hashes with the dataset of the template. -/
theorem GpuInv.dataset_eq (h : GpuInv K given m) (hsame : SameDatasets K given)
    (hphase : m.phase = .searching work dataset nonceBase) : dataset = work.dataset K := by
  obtain ⟨hgiven, -, hcached, -⟩ := h.searching _ _ _ hphase
  obtain ⟨w, hw, hepoch, rfl⟩ := h.cached _ _ hcached
  exact hsame w work hw hgiven hepoch

theorem hitsWith_accesses (headerBytes target : Bytes) :
    hitsWith K headerBytes target dataset (UInt32.ofNat accesses).toNat
      = hits K headerBytes target dataset := rfl

/-- A batch of the loop finds a solution if there is one. -/
theorem mineBatch_finds (hK : IsBlake3 K) (hdvd : batchSize.toNat ∣ 2 ^ 32)
    (hbase : batchSize.toNat ∣ nonceBase.toNat) (htarget : work.target.length = 32)
    {session : MiningSession} (hholds : session.Holds dataset) (hsize : dataset.lenBytes = datasetSize)
    {found : Option UInt64} (hok : (session.mineBatch work nonceBase batchSize run).2 = .ok found) :
    (found = none → ∀ n, InBatch nonceBase batchSize n →
        hits K work.block.header.bytesForPow work.target dataset n = false) ∧
      ∀ nonce, found = some nonce → InBatch nonceBase batchSize nonce ∧
        hits K work.block.header.bytesForPow work.target dataset nonce = true := by
  obtain ⟨hheader, memory, hmemory, rfl⟩ := hholds.tryBatch_ok hok
  have hfinds := Kernel.execute_finds hK hheader (by rw [hsize]; decide) (by rw [hsize]; decide)
    htarget run nonceBase batchSize (UInt32.ofNat accesses) hmemory
  rw [hitsWith_accesses] at hfinds
  exact ⟨hfinds.none, fun nonce hnonce =>
    (hfinds.some nonce hnonce).eq fun n hn => highWord_inBatch hdvd hbase hn⟩

/-- A call in the loop returns unless the driver fails. -/
theorem exists_mineBatch_ok (session : MiningSession) (work : WorkTemplate)
    (nonceBase batchSize : UInt64) (run : BatchRun) (hrun : ∀ call, run.fails call = false) :
    ∃ found, (session.mineBatch work nonceBase batchSize run).2 = .ok found := by
  have hheader : work.block.header.bytesForPow.length ≤ 136 := by
    rw [BlockHeader.length_bytesForPow]
    decide
  exact exists_tryBatch_ok session hheader hrun

/-- In a pass of the loop a call fails, or a solution in the batch is submitted, or there is
none and the loop goes on. -/
theorem searched_cases (hK : IsBlake3 K) (hdvd : batchSize.toNat ∣ 2 ^ 32)
    (hbase : batchSize.toNat ∣ nonceBase.toNat) (h : GpuInv K given m)
    (hphase : m.phase = .searching work dataset nonceBase) (run : BatchRun) :
    ((m.searched K batchSize work dataset nonceBase run).1.phase = .exited ∧
      (m.searched K batchSize work dataset nonceBase run).2 = none ∧
      ∃ call, run.fails call = true) ∨
    ((m.searched K batchSize work dataset nonceBase run).1.phase = .fetching ∧ ∃ nonce,
      (m.searched K batchSize work dataset nonceBase run).2 = some (work.block.withNonce nonce) ∧
      InBatch nonceBase batchSize nonce ∧
      hits K work.block.header.bytesForPow work.target dataset nonce = true) ∨
    ((m.searched K batchSize work dataset nonceBase run).1.phase
        = .searching work dataset (nonceBase + batchSize) ∧
      (m.searched K batchSize work dataset nonceBase run).2 = none ∧
      ∀ n, InBatch nonceBase batchSize n →
        hits K work.block.header.bytesForPow work.target dataset n = false) := by
  obtain ⟨-, htarget, -, -⟩ := h.searching _ _ _ hphase
  obtain ⟨epoch, session, hsession, hholds, hsize⟩ := h.session_holds hphase
  have hpass : Pass K batchSize work dataset nonceBase epoch _ _ _
    (m.searched K batchSize work dataset nonceBase run) := searched_pass hsession
  cases hresult : (session.mineBatch work nonceBase batchSize run).2 with
  | error e =>
    have hfails : ∃ call, run.fails call = true := by
      by_contra hnone
      obtain ⟨found, hok⟩ := exists_mineBatch_ok session work nonceBase batchSize run
        fun call => Bool.eq_false_iff.mpr fun hcall => hnone ⟨call, hcall⟩
      rw [hresult] at hok
      cases hok
    rw [hresult] at hpass
    generalize m.searched K batchSize work dataset nonceBase run = after at hpass ⊢
    cases hpass
    exact .inl ⟨rfl, rfl, hfails⟩
  | ok found =>
    obtain ⟨hnone, hsome⟩ := mineBatch_finds hK hdvd hbase htarget hholds hsize hresult
    rw [hresult] at hpass
    generalize m.searched K batchSize work dataset nonceBase run = after at hpass ⊢
    cases hpass with
    | solved nonce hit => exact .inr (.inl ⟨rfl, nonce, rfl, (hsome nonce rfl).1, hit⟩)
    | passed _ miss =>
      refine .inr (.inr ⟨rfl, rfl, ?_⟩)
      -- what is found is a solution, so nothing was found
      cases found with
      | none => exact hnone rfl
      | some nonce => exact absurd (hsome nonce rfl).2 (Bool.eq_false_iff.mp (miss nonce rfl))

/-- No solution is behind the miner. -/
def NoneBehind (K : Crates) (batchSize : UInt64) (m : GpuMiner) : Prop :=
  ∀ work dataset nonceBase, m.phase = .searching work dataset nonceBase →
    batchSize.toNat ∣ nonceBase.toNat ∧ ∀ n : UInt64, n.toNat < nonceBase.toNat →
      hits K work.block.header.bytesForPow work.target dataset n = false

theorem searched_noneBehind (hK : IsBlake3 K) (hdvd : batchSize.toNat ∣ 2 ^ 32)
    (h : GpuInv K given m) (hbehind : NoneBehind K batchSize m)
    (hphase : m.phase = .searching work dataset nonceBase) :
    NoneBehind K batchSize (m.searched K batchSize work dataset nonceBase run).1 := by
  obtain ⟨hbase, hbelow⟩ := hbehind _ _ _ hphase
  intro work' dataset' base hnext
  rcases searched_cases hK hdvd hbase h hphase run with ⟨hafter, -⟩ | ⟨hafter, -⟩ | ⟨hafter, -, hmiss⟩
  · cases hafter.symm.trans hnext
  · cases hafter.symm.trans hnext
  · obtain ⟨rfl, rfl, rfl⟩ := GpuPhase.searching.inj (hafter.symm.trans hnext)
    refine ⟨dvd_next hdvd hbase, fun n hn => ?_⟩
    -- below the next batch: below this one, or in it
    have hle := add_batchSize_le hdvd hbase
    have hsum : (nonceBase + batchSize).toNat ≤ nonceBase.toNat + batchSize.toNat := by
      rw [UInt64.toNat_add]
      exact Nat.mod_le _ _
    by_cases hlt : n.toNat < nonceBase.toNat
    · exact hbelow n hlt
    · exact hmiss n ((inBatch_iff hdvd hbase).mpr ⟨by omega, by omega⟩)

theorem next_noneBehind (hK : IsBlake3 K) (hdvd : batchSize.toNat ∣ 2 ^ 32)
    (h : GpuInv K given m) (hbehind : NoneBehind K batchSize m) (i : GpuInput) :
    NoneBehind K batchSize (m.next K batchSize i).1 := by
  cases i with
  | unreachable => exact hbehind
  | malformed =>
    simp only [GpuMiner.next]
    split
    · exact nofun
    · exact hbehind
  | work work htarget fresh =>
    simp only [GpuMiner.next]
    split
    · -- a search starts at 0
      intro work' dataset' base hphase
      obtain rfl : base = 0 := by
        unfold GpuMiner.prepare at hphase
        generalize m.fetch K work = fetched at hphase
        obtain ⟨m', dataset⟩ := fetched
        simp only at hphase
        split at hphase <;> cases hphase <;> rfl
      exact ⟨Nat.dvd_zero _, fun n hn => absurd hn (Nat.not_lt_zero _)⟩
    · exact hbehind
  | batch run =>
    simp only [GpuMiner.next]
    split
    · next hphase => exact searched_noneBehind hK hdvd h hbehind hphase
    · exact hbehind

theorem noneBehind (hK : IsBlake3 K) (hdvd : batchSize.toNat ∣ 2 ^ 32)
    (hm : (gpuMining K batchSize).Reach (Gives given) m) : NoneBehind K batchSize m := by
  induction hm with
  | init h =>
    cases h
    exact nofun
  | step i hm _ ih => exact next_noneBehind hK hdvd (gpuInv hm) ih i

theorem next_batch (hphase : m.phase = .searching work dataset nonceBase) (run : BatchRun) :
    m.next K batchSize (.batch run) = m.searched K batchSize work dataset nonceBase run := by
  simp only [GpuMiner.next, hphase]

theorem gpuMining_step (m : GpuMiner) (i : GpuInput) :
    (gpuMining K batchSize).step m i = (m.next K batchSize i).1 := rfl

theorem gpuMining_out (m : GpuMiner) (i : GpuInput) :
    (gpuMining K batchSize).out m i = (m.next K batchSize i).2 := rfl

/-- A block is only submitted by a batch, in a search. -/
theorem exists_of_out {i : GpuInput} {block : Block}
    (hout : (m.next K batchSize i).2 = some block) :
    ∃ work dataset nonceBase run, m.phase = .searching work dataset nonceBase ∧
      (m.searched K batchSize work dataset nonceBase run).2 = some block := by
  cases i with
  | unreachable => cases hout
  | malformed =>
    simp only [GpuMiner.next] at hout
    split at hout <;> cases hout
  | work work htarget fresh =>
    simp only [GpuMiner.next] at hout
    split at hout <;> cases hout
  | batch run =>
    simp only [GpuMiner.next] at hout
    split at hout
    · next work dataset nonceBase hphase => exact ⟨work, dataset, nonceBase, run, hphase, hout⟩
    · cases hout

/-- **The first batch with a solution.** In every run of the miner a block is only submitted in
the first batch since its template came that has a solution: it solves the template, and no
nonce of the batches before does. -/
theorem gpu_block_first (hK : IsBlake3 K) (hdvd : batchSize.toNat ∣ 2 ^ 32)
    (hsame : SameDatasets K given) (hm : (gpuMining K batchSize).Reach (Gives given) m)
    {i : GpuInput} {block : Block} (hout : (gpuMining K batchSize).out m i = some block) :
    ∃ work nonceBase nonce, given work ∧ m.phase = .searching work (work.dataset K) nonceBase ∧
      block = work.block.withNonce nonce ∧ work.Solved K nonce ∧
      nonceBase.toNat ≤ nonce.toNat ∧ nonce.toNat < nonceBase.toNat + batchSize.toNat ∧
      ∀ n : UInt64, n.toNat < nonceBase.toNat → ¬ work.Solved K n := by
  have hinv := gpuInv hm
  obtain ⟨work, dataset, nonceBase, run, hphase, hblock⟩ := exists_of_out hout
  obtain ⟨hbase, hbelow⟩ := noneBehind hK hdvd hm _ _ _ hphase
  obtain rfl := hinv.dataset_eq hsame hphase
  rcases searched_cases hK hdvd hbase hinv hphase run with ⟨-, hnone, -⟩ |
    ⟨-, nonce, hsome, hin, hhit⟩ | ⟨-, hnone, -⟩
  · cases hnone.symm.trans hblock
  · obtain rfl := Option.some.inj (hsome.symm.trans hblock)
    obtain ⟨hge, hlt⟩ := (inBatch_iff hdvd hbase).mp hin
    exact ⟨work, nonceBase, nonce, (hinv.searching _ _ _ hphase).1, hphase, rfl, hhit, hge, hlt,
      fun n hn => Bool.eq_false_iff.mp (hbelow n hn)⟩
  · cases hnone.symm.trans hblock

/-- **The search ends.** If a template has a solution, the batches up to the one of this
solution are enough to submit a block, as long as no call of OpenCL fails. -/
theorem gpu_search_ends (hK : IsBlake3 K) (hdvd : batchSize.toNat ∣ 2 ^ 32)
    (hsame : SameDatasets K given) (hm : (gpuMining K batchSize).Reach (Gives given) m)
    (hphase : m.phase = .searching work dataset nonceBase) {nonce : UInt64}
    (hsolved : work.Solved K nonce) {runs : List BatchRun}
    (hruns : ∀ run ∈ runs, ∀ call, run.fails call = false)
    (hlong : nonce.toNat < nonceBase.toNat + runs.length * batchSize.toNat) :
    ∃ block, some block ∈ (gpuMining K batchSize).outputs m (runs.map .batch) := by
  have hinv := gpuInv hm
  obtain rfl := hinv.dataset_eq hsame hphase
  induction runs generalizing m nonceBase with
  | nil =>
    -- the solution would be behind the miner
    obtain ⟨-, hbelow⟩ := noneBehind hK hdvd hm _ _ _ hphase
    rw [List.length_nil, Nat.zero_mul, Nat.add_zero] at hlong
    exact absurd hsolved (Bool.eq_false_iff.mp (hbelow nonce hlong))
  | cons run runs ih =>
    obtain ⟨hbase, hbelow⟩ := noneBehind hK hdvd hm _ _ _ hphase
    have hm' : (gpuMining K batchSize).Reach (Gives given) (m.next K batchSize (.batch run)).1 :=
      Machine.Reach.step (GpuInput.batch run) hm trivial
    rw [List.map_cons, Machine.outputs]
    change ∃ block, some block ∈ (m.next K batchSize (.batch run)).2
      :: (gpuMining K batchSize).outputs (m.next K batchSize (.batch run)).1 (runs.map .batch)
    rw [next_batch hphase] at hm' ⊢
    rcases searched_cases hK hdvd hbase hinv hphase run with ⟨-, -, call, hfails⟩ |
      ⟨-, nonce', hsome, -⟩ | ⟨hafter, -, hmiss⟩
    · cases (hruns run List.mem_cons_self call).symm.trans hfails
    · rw [hsome]
      exact ⟨_, List.mem_cons_self⟩
    · -- the solution is not in this batch, and not before it
      have hout : ¬ InBatch nonceBase batchSize nonce := fun hin =>
        Bool.eq_false_iff.mp (hmiss nonce hin) hsolved
      have hge : ¬ nonce.toNat < nonceBase.toNat := fun hlt =>
        Bool.eq_false_iff.mp (hbelow nonce hlt) hsolved
      rw [inBatch_iff hdvd hbase] at hout
      have hlt := nonce.toNat_lt
      have hsum : (nonceBase + batchSize).toNat = nonceBase.toNat + batchSize.toNat := by
        rw [UInt64.toNat_add, Nat.mod_eq_of_lt (by omega)]
      rw [List.length_cons, Nat.succ_mul] at hlong
      obtain ⟨block, hblock⟩ := ih hm' (fun r hr => hruns r (List.mem_cons_of_mem run hr))
        (by rw [hsum]; omega) (gpuInv hm') hafter
      exact ⟨block, List.mem_cons_of_mem _ hblock⟩

/-- Whatever the GPU says, what is submitted has passed the check on the CPU. -/
theorem searched_some (h : GpuInv K given m) (hphase : m.phase = .searching work dataset nonceBase)
    {block : Block} (hblock : (m.searched K batchSize work dataset nonceBase run).2 = some block) :
    ∃ nonce, block = work.block.withNonce nonce ∧
      hits K work.block.header.bytesForPow work.target dataset nonce = true := by
  obtain ⟨epoch, session, hsession, -, -⟩ := h.session_holds hphase
  have hpass : Pass K batchSize work dataset nonceBase epoch _ _ _
    (m.searched K batchSize work dataset nonceBase run) := searched_pass hsession
  generalize m.searched K batchSize work dataset nonceBase run = after at hpass hblock
  generalize (session.mineBatch work nonceBase batchSize run).2 = result at hpass
  cases hpass with
  | failed e => cases hblock
  | passed found miss => cases hblock
  | solved nonce hit => exact ⟨nonce, (Option.some.inj hblock).symm, hit⟩

/-- **A block mined on the GPU is accepted.** The session has been used for other templates of
the network before, and the stores of a nonce may be torn; the node has gone on in the
meantime, but its tip is the same. -/
theorem gpu_block_accepted {node : Node} (hnode : (nodeMachine K g).Reachable node)
    {text : Bytes} {now : UInt64} (hwork : (node.getWork K text now).2 = .ok work)
    (hm : (gpuMining K batchSize).Reach (Gives (HandedOut K g)) m)
    (hphase : m.phase = .searching work dataset nonceBase) {i : GpuInput} {block : Block}
    (hout : (gpuMining K batchSize).out m i = some block)
    (is : List NodeInput) {node' : Node}
    (hnode' : node' = (nodeMachine K g).run node (.getWork text now :: is))
    {n : UInt64} {t : Hash256} (htip : node.chain.state.tip = some (n, t))
    (htip' : node'.chain.state.tip = some (n, t))
    (hexec : Executable K node.chain.state.getAccount (node.chain.state.mempool.map Prod.snd))
    (hnew : ∀ nonce, work.Solved K nonce → node'.chain.state.blocks (work.hash K nonce) = none)
    (hdiff : n.toNat + 1 ≤ g.window.toNat → 1 ≤ g.initialDifficulty) :
    ∃ nonce, block = work.block.withNonce nonce ∧
      (node'.submitBlock K block).2 = .ok ⟨work.hash K nonce, n + 1⟩ := by
  have hinv := gpuInv hm
  obtain ⟨work', dataset', base, run, hphase', hblock⟩ := exists_of_out hout
  obtain ⟨rfl, rfl, rfl⟩ := GpuPhase.searching.inj (hphase'.symm.trans hphase)
  obtain ⟨nonce, rfl, hhit⟩ := searched_some hinv hphase hblock
  have hsame : SameDatasets K (HandedOut K g) := fun w w' hw hw' _ => by
    rw [hw.dataset_eq, hw'.dataset_eq]
  obtain rfl := hinv.dataset_eq hsame hphase
  have hsolved : work'.Solved K nonce := hhit
  exact ⟨nonce, rfl, solved_accepted hnode hwork is hnode' htip htip' hexec hsolved
    (hnew nonce hsolved) hdiff⟩

end Miner

/-! ## A small batch -/

/-- The stores take effect in reverse, and no call fails. -/
def reversedRun : BatchRun where
  junk _ := 0
  order := List.reverse
  perm := List.reverse_perm
  undefined _ := 0
  fails _ := false

theorem length_easyTarget : (targetForDifficulty 1).length = 32 :=
  length_targetForDifficulty (UInt64.le_refl 1)

/-- The nonces 5 to 8, with one item of zeros as the dataset. -/
def smallCall : BatchCall where
  headerBytes := ascii "header"
  nonceBase := 5
  accesses := 64
  target := targetForDifficulty 1
  targetLength := length_easyTarget
  batchSize := 4
  run := reversedRun

theorem try_batch_exact_small : ∃ nonce, (miningSessions zeroDataset.bytes).out
    (miningSession zeroDataset.bytes fun _ => 0) smallCall = .ok (some nonce) ∧ InBatch 5 4 nonce := by
  obtain ⟨-, hfinds, hword, hreturns⟩ := try_batch_exact isBlake3_blake3Crates
    (by rw [lenBytes_zeroDataset]; decide) (by rw [lenBytes_zeroDataset]; decide)
    (Machine.Reach.init ⟨_, rfl⟩) smallCall
  obtain ⟨found, hok⟩ := hreturns (by decide) fun _ => rfl
  cases found with
  | none =>
    have hmiss := (hfinds none hok).none rfl 5 ⟨0, by decide, by decide⟩
    rw [hitsWith, show smallCall.target = targetForDifficulty 1 from rfl, meetsTarget_one] at hmiss
    cases hmiss
  | some nonce =>
    have hhigh : ∀ n, InBatch 5 4 n → Kernel.highWord n = 0 := by
      rintro n ⟨gid, hgid, rfl⟩
      have hgid : gid < 4 := hgid
      interval_cases gid <;> decide
    exact ⟨nonce, hok, (hword nonce hok ⟨0, hhigh⟩).1⟩

/-- With an easy target the first batch is enough, whatever the crates are: the kernel computes
BLAKE3. -/
theorem searched_easy {K : Crates} {given : WorkTemplate → Prop} {m : GpuMiner} {work : WorkTemplate}
    {dataset : Dataset} (h : GpuInv K given m) (hphase : m.phase = .searching work dataset 0)
    (htarget : work.target = targetForDifficulty 1) :
    ∃ epoch session block, m.searched K 4 work dataset 0 reversedRun
      = (⟨m.cachedDataset, some (epoch, session), .fetching⟩, some block) := by
  have heasy : ∀ (K : Crates) (nonce : UInt64),
      hits K work.block.header.bytesForPow work.target dataset nonce = true := by
    intro K nonce
    rw [hits, htarget]
    exact meetsTarget_one _
  obtain ⟨epoch, session, hsession, hholds, hsize⟩ := h.session_holds hphase
  obtain ⟨found, hok⟩ := exists_mineBatch_ok session work 0 4 reversedRun fun _ => rfl
  have hnone := (mineBatch_finds isBlake3_blake3Crates (by decide) (Nat.dvd_zero _)
    (htarget ▸ length_easyTarget) hholds hsize hok).1
  have hpass : Pass K 4 work dataset 0 epoch _ _ _ (m.searched K 4 work dataset 0 reversedRun) :=
    searched_pass hsession
  rw [hok] at hpass
  generalize m.searched K 4 work dataset 0 reversedRun = after at hpass ⊢
  cases hpass with
  | solved nonce hit => exact ⟨_, _, _, rfl⟩
  | passed _ miss =>
    cases found with
    | none => cases (heasy blake3Crates 0).symm.trans (hnone rfl 0 ⟨0, by decide, by decide⟩)
    | some nonce => cases (heasy K nonce).symm.trans (miss nonce rfl)

/-- The miner has got a template. -/
def smallGpuMiner (K : Crates) : GpuMiner :=
  ((⟨none, none, .fetching⟩ : GpuMiner).next K 4
    (.work (smallTemplate noTxs) length_easyTarget (some fun _ => 0))).1

theorem reach_smallGpuMiner (K : Crates) {given : WorkTemplate → Prop}
    (h : given (smallTemplate noTxs)) : (gpuMining K 4).Reach (Gives given) (smallGpuMiner K) := by
  have hstart : (gpuMining K 4).Reach (Gives given) ⟨none, none, .fetching⟩ := .init rfl
  exact Machine.Reach.step
    (GpuInput.work (smallTemplate noTxs) length_easyTarget (some fun _ => 0)) hstart h

theorem phase_smallGpuMiner (K : Crates) : (smallGpuMiner K).phase
    = .searching (smallTemplate noTxs) ((smallTemplate noTxs).dataset K) 0 := by
  unfold smallGpuMiner
  simp only [GpuMiner.next, GpuMiner.prepare, GpuMiner.fetch]

theorem sameDatasets_single (K : Crates) (work : WorkTemplate) : SameDatasets K (· = work) := by
  rintro w w' rfl rfl -
  rfl

theorem gpu_block_first_small : ∃ block nonce,
    (gpuMining blake3Crates 4).out (smallGpuMiner blake3Crates) (.batch reversedRun) = some block ∧
      block = (smallTemplate noTxs).block.withNonce nonce ∧
      (smallTemplate noTxs).Solved blake3Crates nonce := by
  have hm : (gpuMining blake3Crates 4).Reach (Gives (· = smallTemplate noTxs))
    (smallGpuMiner blake3Crates) := reach_smallGpuMiner blake3Crates rfl
  have hphase := phase_smallGpuMiner blake3Crates
  obtain ⟨_, _, block, hafter⟩ := searched_easy (gpuInv hm) hphase rfl
  have hblock := congrArg Prod.snd hafter
  rw [← next_batch hphase, ← gpuMining_out] at hblock
  obtain ⟨work, base, nonce, rfl, -, hnonce, hsolved, -⟩ := gpu_block_first isBlake3_blake3Crates
    (by decide) (sameDatasets_single _ _) hm hblock
  exact ⟨block, nonce, hblock, hnonce, hsolved⟩

theorem gpu_search_ends_small : ∃ block, some block ∈
    (gpuMining blake3Crates 4).outputs (smallGpuMiner blake3Crates) [.batch reversedRun] := by
  have hsolved : (smallTemplate noTxs).Solved blake3Crates 0 := by
    rw [WorkTemplate.Solved, show (smallTemplate noTxs).target = targetForDifficulty 1 from rfl]
    exact meetsTarget_one _
  have hruns : ∀ run ∈ [reversedRun], ∀ call, run.fails call = false := fun run hrun call => by
    rw [List.mem_singleton.mp hrun]
    rfl
  exact gpu_search_ends isBlake3_blake3Crates (by decide)
    (sameDatasets_single _ (smallTemplate noTxs)) (reach_smallGpuMiner blake3Crates rfl)
    (phase_smallGpuMiner blake3Crates) hsolved hruns (by decide)

/-- The miner has found its block and got the next template, for which it keeps dataset and
session. -/
def nextGpuMiner (K : Crates) : GpuMiner :=
  (gpuMining K 4).run (smallGpuMiner K)
    [.batch reversedRun, .work (smallTemplate orderedTxs) length_easyTarget none]

theorem reach_nextGpuMiner (K : Crates) {given : WorkTemplate → Prop} (h : given (smallTemplate noTxs))
    (h' : given (smallTemplate orderedTxs)) :
    (gpuMining K 4).Reach (Gives given) (nextGpuMiner K) :=
  Machine.Reach.run (reach_smallGpuMiner K h) ⟨trivial, h', trivial⟩

theorem phase_nextGpuMiner (K : Crates) : (nextGpuMiner K).phase
    = .searching (smallTemplate orderedTxs) ((smallTemplate noTxs).dataset K) 0 := by
  have hm : (gpuMining K 4).Reach (Gives (· = smallTemplate noTxs)) (smallGpuMiner K) :=
    reach_smallGpuMiner K rfl
  have hphase := phase_smallGpuMiner K
  obtain ⟨epoch, session, block, hafter⟩ := searched_easy (gpuInv hm) hphase rfl
  have hcached : (smallGpuMiner K).cachedDataset = some (0, (smallTemplate noTxs).dataset K) := rfl
  have hstep : (gpuMining K 4).step (smallGpuMiner K) (.batch reversedRun)
      = ⟨some (0, (smallTemplate noTxs).dataset K), some (epoch, session), .fetching⟩ := by
    rw [gpuMining_step, next_batch hphase, hafter, hcached]
  rw [nextGpuMiner, Machine.run_cons, hstep]
  rfl

theorem gpu_block_accepted_ordered : ∃ block nonce,
    (gpuMining smallCrates 4).out (nextGpuMiner smallCrates) (.batch reversedRun) = some block ∧
      (laterNode.submitBlock smallCrates block).2
        = .ok ⟨(smallTemplate orderedTxs).hash smallCrates nonce, 0 + 1⟩ := by
  have hgiven : HandedOut smallCrates smallGenesis (smallTemplate orderedTxs) :=
    ⟨orderedNode, minerText, 0, reachable_pairNode _ _, getWork_orderedNode⟩
  have hm := reach_nextGpuMiner smallCrates handedOut_empty hgiven
  have hphase := phase_nextGpuMiner smallCrates
  obtain ⟨_, _, block, hafter⟩ := searched_easy (gpuInv hm) hphase rfl
  have hblock := congrArg Prod.snd hafter
  rw [← next_batch hphase, ← gpuMining_out] at hblock
  have hlater : laterNode = (nodeMachine smallCrates smallGenesis).run orderedNode
      (.getWork minerText 0 :: [.submitTx (freeTx 2)]) := rfl
  obtain ⟨nonce, -, haccepted⟩ := gpu_block_accepted (reachable_pairNode _ _) getWork_orderedNode hm
    hphase hblock _ hlater (tip_of_core_small core_orderedNode) (tip_of_core_small core_laterNode)
    executable_orderedNode (fun nonce _ => blocks_laterNode _ nonce) (fun _ => UInt64.le_refl 1)
  exact ⟨block, nonce, hblock, haccepted⟩

end Ondris
