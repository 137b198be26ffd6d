import Ondris.Runs

/-!
# A small instance

Crate functions simple enough to compute with, and a genesis configuration.
Keyed on the length of its input, the hash sends the bytes of a proof-of-work
attempt to its nonce, so the identifier of a block shows the nonce and nothing
else; every signature is accepted.

Results:
1. `id_small`: the identifier of a block under the small crates shows its nonce.
2. `emptyBlock_ok`: an empty block is well formed on every branch of its height.
3. `reorgChain₃_canonical`: a chain whose second branch, with transactions, takes the tip
   from the first one.
-/

namespace Ondris

open Encoding

/-- The bytes, cut or filled up with zeros to 32. -/
def pad32 (bs : Bytes) : List.Vector UInt8 32 := fill 32 bs

theorem toList_pad32 {bs : Bytes} (h : bs.length ≤ 32) :
    (pad32 bs).toList = bs ++ List.replicate (32 - bs.length) 0 := by
  have hmin : min (32 - bs.length) 32 = 32 - bs.length := by omega
  rw [pad32, fill, List.Vector.toList_mk, List.take_append, List.take_of_length_le h, List.take_replicate,
    hmin]

/-- A polynomial over the bytes. -/
def checksum (bs : Bytes) : ℕ := bs.foldl (fun acc b => (acc * 257 + b.toNat + 1) % 2 ^ 64) 0

/-- The 116 bytes of an attempt give the nonce after a mark, the 64 bytes of seed
and mix the nonce after another, any other input its checksum. -/
def smallBlake3 (bs : Bytes) : List.Vector UInt8 32 :=
  if bs.length = 116 then pad32 (1 :: bs.drop 108)
  else if bs.length = 64 ∧ bs.head? = some 1 then pad32 (4 :: (bs.drop 1).take 8)
  else pad32 (3 :: leBytes 8 (checksum bs))

def smallCrates : Crates where
  blake3 := smallBlake3
  blake3Xof := fun _ n => List.Vector.replicate n 0
  verifyingKeyOk := fun _ => true
  verifySignature := fun _ _ _ => true

/-- A genesis whose difficulty stays 1 for as long as its chains can grow. -/
def smallGenesis : GenesisConfig where
  networkName := ascii "small"
  timestamp := 0
  initialDifficulty := 1
  initialReward := 50
  halvingInterval := 100
  targetBlockTimeSecs := 60
  retargetWindow := 4096
  premine := [⟨ascii "0000000000000000000000000000000000000001", 7⟩]

/-- The address of the only premine entry. -/
def premineAddress : Address := ⟨⟨List.replicate 19 0 ++ [1], by decide⟩⟩

/-- The identifier that shows a nonce. -/
def nonceId (nonce : UInt64) : Hash256 := ⟨pad32 (4 :: le64 nonce)⟩

theorem attemptSeed_small (header : BlockHeader) :
    attemptSeed smallCrates header.bytesForPow header.nonce = ⟨pad32 (1 :: le64 header.nonce)⟩ := by
  have hlen : (header.bytesForPow ++ le64 header.nonce).length = 116 := by simp
  rw [attemptSeed, Hash256.hash, smallCrates]
  simp only [smallBlake3, if_pos hlen]
  rw [List.drop_append_of_le_length (by simp), List.drop_eq_nil_of_le (by simp), List.nil_append]

/-- An identifier under the small crates shows the nonce, whatever the dataset. -/
theorem id_small (header : BlockHeader) (dataset : Dataset) :
    header.id smallCrates dataset = nonceId header.nonce := by
  rw [BlockHeader.id, ondrisHash_eq, attemptSeed_small, Hash256.asBytes, toList_pad32 (by simp)]
  generalize hmix : attemptMix smallCrates _ _ _ = mix
  have hlen : mix.length = 32 := by rw [← hmix, length_attemptMix]
  rw [Hash256.hash, smallCrates, nonceId]
  simp only [smallBlake3]
  rw [if_neg (by simp [hlen]), if_pos (by simp [hlen]), List.cons_append, List.cons_append,
    List.drop_one, List.tail_cons, List.append_assoc,
    List.take_append_of_le_length (by simp), List.take_of_length_le (by simp)]

theorem blockId_small (b : Block) : blockId smallCrates b = nonceId b.header.nonce :=
  id_small _ _

theorem head_pad32 (x : UInt8) (bs : Bytes) : (pad32 (x :: bs)).toList.head? = some x := rfl

theorem nonceId_injective {m n : UInt64} (h : nonceId m = nonceId n) : m = n := by
  have hbytes := congrArg Hash256.asBytes h
  simp only [Hash256.asBytes, nonceId] at hbytes
  rw [toList_pad32 (by simp), toList_pad32 (by simp)] at hbytes
  have hcons := (List.append_inj hbytes (by simp)).1
  exact le64_injective (List.cons.inj hcons).2

theorem nonceId_ne {m n : UInt64} (h : m ≠ n) : nonceId m ≠ nonceId n :=
  fun heq => h (nonceId_injective heq)

theorem nonceId_ne_genesisHash (n : UInt64) : nonceId n ≠ smallGenesis.genesisHash smallCrates := by
  have hmark : (smallGenesis.genesisHash smallCrates).asBytes.head? = some 3 := by decide
  intro heq
  rw [← heq, Hash256.asBytes, nonceId, toList_pad32 (by simp)] at hmark
  simp at hmark

theorem genesisHash_small_ne_zero : smallGenesis.genesisHash smallCrates ≠ Hash256.zero := by
  decide

/-- Every identifier meets the target of difficulty 1. -/
theorem meetsTarget_nonceId (n : UInt64) : meetsTarget (nonceId n) (targetForDifficulty 1) = true := by
  have htarget : targetForDifficulty 1 = 255 :: List.replicate 31 255 := by decide
  rw [meetsTarget, decide_eq_true_iff, htarget, Hash256.toU256Be, Hash256.asBytes, nonceId,
    toList_pad32 (by simp), List.cons_append]
  exact List.cons_le_cons_iff.mpr (.inl (by decide))

/-- The writes of genesis initialisation. -/
def smallOpening : List Write :=
  creditAll ChainState.empty [(premineAddress, 7)] ++
    [.setChainwork (smallGenesis.genesisHash smallCrates) (blockWork 1),
      .storeBlock (smallGenesis.genesisHash smallCrates) smallGenesis.genesisBlock,
      .setCanonicalHeight 0 (smallGenesis.genesisHash smallCrates),
      .setTip 0 (smallGenesis.genesisHash smallCrates)]

/-- The chain of the small genesis, opened on an empty data directory. -/
def smallOpen : Chain := ⟨ChainState.empty.writes smallOpening, smallGenesis, none⟩

theorem premineParsed_small : smallGenesis.premineParsed = .ok [(premineAddress, 7)] := by
  decide

theorem openWrites_small :
    openWrites smallCrates smallGenesis ChainState.empty = .ok smallOpening := by
  show initGenesis smallCrates smallGenesis ChainState.empty = _
  rw [initGenesis, premineParsed_small]
  rfl

theorem init_small : (chainMachine smallCrates smallGenesis).init smallOpen := by
  show Chain.openDb smallCrates smallGenesis ChainState.empty = _
  rw [Chain.openDb, openWrites_small]
  rfl

theorem canonical_smallOpen : Canonical smallCrates smallGenesis smallOpen.state 0
      (smallGenesis.genesisHash smallCrates)
      [(smallGenesis.genesisHash smallCrates, smallGenesis.genesisBlock)] ∧
    ∀ h, h ≠ smallGenesis.genesisHash smallCrates → smallOpen.state.blocks h = none :=
  (openDb_canonical init_small).2

/-- No account of the opened chain has sent anything. -/
theorem nonce_smallOpen (addr : Address) : (smallOpen.state.getAccount addr).nonce = 0 := by
  have haccounts : smallOpen.state.accounts
      = Function.update (fun _ => none) premineAddress (some ⟨satAdd 0 7, 0⟩) := rfl
  rw [ChainState.getAccount, haccounts]
  by_cases haddr : addr = premineAddress
  · rw [haddr, Function.update_self]
    rfl
  · rw [Function.update_of_ne haddr]
    rfl

/-- A block without transactions. -/
def emptyBlock (height : UInt64) (prevHash : Hash256) (nonce : UInt64) : Block where
  header :=
    { height, prevHash, txRoot := Hash256.zero, timestamp := 0, difficulty := 1
      miner := ⟨List.Vector.replicate 20 0⟩, nonce }
  transactions := noTxs

/-- An empty block at the right height is well formed on every branch. -/
theorem emptyBlock_ok {branch : List Block} {height : UInt64} (prevHash : Hash256) (nonce : UInt64)
    (hheight : height.toNat = branch.length) (hlt : branch.length < epochLength.toNat) :
    BlockOk smallCrates smallGenesis branch (nonceId nonce) (emptyBlock height prevHash nonce) where
  id := blockId_small _
  root := (merkleRoot_nil smallCrates).symm
  target := meetsTarget_nonceId nonce
  signed := fun tx htx => absurd htx List.not_mem_nil
  height := hheight
  height_lt := hlt
  difficulty := by
    rw [retarget_of_le]
    · rfl
    · have hwindow : smallGenesis.window.toNat = 4096 := by decide
      rw [toNat_epochLength] at hlt
      omega

/-- The small chain after one block. -/
def smallChain : Chain :=
  smallOpen.submit smallCrates (emptyBlock 1 (smallGenesis.genesisHash smallCrates) 0)

theorem reachable_small : (chainMachine smallCrates smallGenesis).Reachable smallChain :=
  Machine.Reachable.step (.init init_small) _

theorem supplyBound_small : SupplyBound smallGenesis := by
  unfold SupplyBound
  decide

/-! ## A funded sender -/

/-- A signed transaction of the zero key. -/
def sampleTx (nonce : UInt64) : Transaction where
  fromKey := ⟨List.Vector.replicate 32 0⟩
  toAddr := premineAddress
  amount := 1
  fee := 0
  accountNonce := nonce
  signature := some ⟨List.Vector.replicate 64 0⟩

/-- The sender of the sample transactions. -/
def sampleSender : Address := (sampleTx 0).sender smallCrates

/-- A genesis with one funded account, that of the sender. -/
def GenesisConfig.funded (g : GenesisConfig) (balance : UInt64) : GenesisConfig :=
  { g with premine := [⟨sampleSender.display, balance⟩] }

/-- The chain of such a genesis, opened on an empty data directory. -/
def GenesisConfig.openFunded (g : GenesisConfig) (balance : UInt64) : Chain :=
  ⟨ChainState.empty.writes (creditAll ChainState.empty [(sampleSender, balance)] ++
    genesisWrites smallCrates (g.funded balance)), g.funded balance, none⟩

theorem init_openFunded (g : GenesisConfig) (balance : UInt64) :
    (chainMachine smallCrates (g.funded balance)).init (g.openFunded balance) := by
  have hpremine : (g.funded balance).premineParsed = .ok [(sampleSender, balance)] := by
    rw [GenesisConfig.premineParsed, GenesisConfig.funded, List.mapM_cons,
      Address.fromStr_display]
    rfl
  have hws : openWrites smallCrates (g.funded balance) ChainState.empty
      = .ok (creditAll ChainState.empty [(sampleSender, balance)] ++
        genesisWrites smallCrates (g.funded balance)) := by
    show initGenesis smallCrates (g.funded balance) ChainState.empty = _
    rw [initGenesis, hpremine]
    rfl
  show Chain.openDb smallCrates (g.funded balance) ChainState.empty = _
  rw [Chain.openDb, hws]
  rfl

/-- The small genesis with one funded account. -/
def fundedGenesis (balance : UInt64) : GenesisConfig := smallGenesis.funded balance

def fundedOpen (balance : UInt64) : Chain := smallGenesis.openFunded balance

theorem init_funded (balance : UInt64) :
    (chainMachine smallCrates (fundedGenesis balance)).init (fundedOpen balance) :=
  init_openFunded smallGenesis balance

/-! ## A reorganisation -/

/-- A genesis that retargets after every block. -/
def reorgGenesis : GenesisConfig := { smallGenesis with retargetWindow := 1 }.funded 9

/-- A block of difficulty 1 with the given transactions and their root. -/
def timedBlock (height : UInt64) (prevHash : Hash256) (nonce timestamp : UInt64) (txs : TxVec) :
    Block :=
  ⟨{ (emptyBlock height prevHash nonce).header with
      timestamp, txRoot := merkleRoot smallCrates (txs.val.map (·.hash smallCrates)) }, txs⟩

/-- The first tip, found at once: the next difficulty is 4. -/
def reorgA : Block :=
  timedBlock 1 (reorgGenesis.genesisHash smallCrates) 0 0 (.single (sampleTx 0))

/-- The block beside it, found in time: the next difficulty is 1. It spends the same nonce. -/
def reorgB : Block :=
  timedBlock 1 (reorgGenesis.genesisHash smallCrates) 1 60
    (.single { sampleTx 0 with amount := 3, fee := 1 })

/-- Its child, which moves the tip: the next difficulty is 4. -/
def reorgC : Block := timedBlock 2 (nonceId 1) 2 75 (.single (sampleTx 1))

/-- The branch of the first tip. -/
def branchA : BlockChain :=
  [(nonceId 0, reorgA), (reorgGenesis.genesisHash smallCrates, reorgGenesis.genesisBlock)]

/-- The branch beside it. -/
def branchB : BlockChain :=
  [(nonceId 1, reorgB), (reorgGenesis.genesisHash smallCrates, reorgGenesis.genesisBlock)]

def reorgOpen : Chain := { smallGenesis with retargetWindow := 1 }.openFunded 9

def reorgChain₁ : Chain := reorgOpen.submit smallCrates reorgA

def reorgChain₂ : Chain := reorgChain₁.submit smallCrates reorgB

def reorgChain₃ : Chain := reorgChain₂.submit smallCrates reorgC

theorem init_reorg : (chainMachine smallCrates reorgGenesis).init reorgOpen := init_openFunded _ 9

theorem reachable_reorg₁ : (chainMachine smallCrates reorgGenesis).Reachable reorgChain₁ :=
  Machine.Reachable.step (.init init_reorg) reorgA

theorem reachable_reorg₂ : (chainMachine smallCrates reorgGenesis).Reachable reorgChain₂ :=
  Machine.Reachable.step reachable_reorg₁ reorgB

theorem reachable_reorg₃ : (chainMachine smallCrates reorgGenesis).Reachable reorgChain₃ :=
  Machine.Reachable.step reachable_reorg₂ reorgC

theorem supplyBound_reorg : SupplyBound reorgGenesis := by
  unfold SupplyBound
  decide

theorem blockId_timedBlock (height : UInt64) (prevHash : Hash256) (nonce timestamp : UInt64)
    (txs : TxVec) : blockId smallCrates (timedBlock height prevHash nonce timestamp txs)
      = nonceId nonce :=
  blockId_small _

theorem timedBlock_ok {branch : List Block} {height nonce timestamp : UInt64} (prevHash : Hash256)
    {txs : TxVec} (hheight : height.toNat = branch.length)
    (hlt : branch.length < epochLength.toNat) (hdiff : retarget reorgGenesis branch = 1)
    (hsigned : ∀ tx ∈ txs.val, tx.isSignatureValid smallCrates = true) :
    BlockOk smallCrates reorgGenesis branch
      (blockId smallCrates (timedBlock height prevHash nonce timestamp txs))
      (timedBlock height prevHash nonce timestamp txs) where
  id := rfl
  root := rfl
  target := by
    rw [blockId_timedBlock]
    exact meetsTarget_nonceId nonce
  signed := hsigned
  height := hheight
  height_lt := hlt
  difficulty := hdiff.symm

/-- A submission stores nothing under the identifier of another nonce. -/
theorem free_submit {g : GenesisConfig} {c : Chain} (hc : ChainInv smallCrates g c) {b : Block}
    {m : UInt64} (hfree : c.state.blocks (nonceId m) = none) (hm : m ≠ b.header.nonce) :
    (c.submit smallCrates b).state.blocks (nonceId m) = none := by
  refine blocks_submit_of_ne hc hfree ?_
  rw [blockId_small]
  exact nonceId_ne hm

theorem canonical_reorgOpen : Canonical smallCrates reorgGenesis reorgOpen.state 0
      (reorgGenesis.genesisHash smallCrates)
      [(reorgGenesis.genesisHash smallCrates, reorgGenesis.genesisBlock)] ∧
    ∀ m, reorgOpen.state.blocks (nonceId m) = none :=
  ⟨(openDb_canonical init_reorg).2.1, fun m =>
    (openDb_canonical init_reorg).2.2 _ (nonceId_ne_genesisHash m)⟩

theorem reorgChain₁_canonical : Canonical smallCrates reorgGenesis reorgChain₁.state 1 (nonceId 0)
      branchA ∧ ∀ m, 0 < m → reorgChain₁.state.blocks (nonceId m) = none := by
  obtain ⟨hcan, hfree⟩ := canonical_reorgOpen
  have hinv : ChainInv smallCrates reorgGenesis reorgOpen := chainInv (.init init_reorg)
  have hid : blockId smallCrates reorgA = nonceId 0 := blockId_timedBlock _ _ _ _ _
  have hpl := Placement.of_tip (b := reorgA) hcan rfl (by rw [hid]; exact hfree 0)
    (timedBlock_ok _ rfl (by decide) (by decide) (by decide))
  obtain ⟨-, hcan'⟩ := hpl.overtakes hinv (ledgerInv supplyBound_reorg (.init init_reorg)) hcan
    (hpl.hasRoom supplyBound_reorg hinv.stored) (branchWork_lt_cons (UInt64.le_refl 1) _)
    (by rw [hid]; decide +kernel)
  rw [hid] at hcan'
  exact ⟨hcan', fun m hm => free_submit hinv (hfree m) (UInt64.ne_of_lt hm).symm⟩

/-- The block beside the tip is only stored. -/
theorem reorgChain₂_canonical : Canonical smallCrates reorgGenesis reorgChain₂.state 1 (nonceId 0)
      branchA ∧ Branch smallCrates reorgGenesis reorgChain₂.state (nonceId 1) branchB ∧
    ∀ m, 1 < m → reorgChain₂.state.blocks (nonceId m) = none := by
  obtain ⟨hcan, hfree⟩ := reorgChain₁_canonical
  have hinv := chainInv reachable_reorg₁
  have hid : blockId smallCrates reorgB = nonceId 1 := blockId_timedBlock _ _ _ _ _
  have hpl : Placement smallCrates reorgGenesis reorgChain₁.state branchA reorgB
      [(reorgGenesis.genesisHash smallCrates, reorgGenesis.genesisBlock)] [(nonceId 0, reorgA)]
      [(nonceId 1, reorgB)] [(reorgGenesis.genesisHash smallCrates, reorgGenesis.genesisBlock)] := by
    refine ⟨?_, canonical_reorgOpen.1.branch.submit (chainInv (.init init_reorg)) reorgA, ?_, ?_⟩
    · rw [hid]
      exact hfree 1 (by decide)
    · exact timedBlock_ok _ rfl (by decide) (by decide) (by decide)
    · rw [hid]
      exact ⟨rfl, rfl, List.cons_ne_nil _ _, by
        simpa using nonceId_ne (m := 0) (n := 1) (by decide)⟩
  obtain ⟨-, hcan', hbranch⟩ := submit_side hinv hcan hpl (by
    simp only [branchA, branchWork_cons]
    decide)
  rw [hid] at hbranch
  exact ⟨hcan', hbranch, fun m hm => free_submit hinv (hfree m (UInt64.lt_trans (by decide) hm))
    (UInt64.ne_of_lt hm).symm⟩

theorem placement_reorgC : Placement smallCrates reorgGenesis reorgChain₂.state branchA reorgC
    branchB [(nonceId 0, reorgA)] [(nonceId 2, reorgC), (nonceId 1, reorgB)]
    [(reorgGenesis.genesisHash smallCrates, reorgGenesis.genesisBlock)] := by
  obtain ⟨-, hbranch, hfree⟩ := reorgChain₂_canonical
  have hid : blockId smallCrates reorgC = nonceId 2 := blockId_timedBlock _ _ _ _ _
  refine ⟨?_, hbranch, ?_, ?_⟩
  · rw [hid]
    exact hfree 2 (by decide)
  · exact timedBlock_ok _ rfl (by decide) (by decide) (by decide)
  · rw [hid]
    refine ⟨rfl, rfl, List.cons_ne_nil _ _, ?_⟩
    simpa using ⟨nonceId_ne (m := 0) (n := 2) (by decide), nonceId_ne (m := 0) (n := 1) (by decide)⟩

/-- Its child moves the tip; the transaction of the first block comes back. -/
theorem submit_reorgC :
    (reorgChain₂.submitBlock smallCrates reorgC).result
        = .ok (.accepted (nonceId 2) 2 true [sampleTx 0]) ∧
      Canonical smallCrates reorgGenesis reorgChain₃.state 2 (nonceId 2)
        ((nonceId 2, reorgC) :: branchB) := by
  obtain ⟨hcan, -⟩ := reorgChain₂_canonical
  have hinv := chainInv reachable_reorg₂
  have hid : blockId smallCrates reorgC = nonceId 2 := blockId_timedBlock _ _ _ _ _
  have hpl := placement_reorgC
  obtain ⟨hresult, hcan'⟩ := hpl.overtakes hinv (ledgerInv supplyBound_reorg reachable_reorg₂) hcan
    (hpl.hasRoom supplyBound_reorg hinv.stored) (by
      simp only [branchA, branchB, branchWork_cons]
      decide) (by
      rw [hid]
      decide +kernel)
  rw [hid] at hresult hcan'
  refine ⟨hresult.trans ?_, hcan'⟩
  have hmoved : nonceId 0 ≠ reorgC.header.prevHash := nonceId_ne (by decide)
  have hback : requeueOf smallCrates [(nonceId 0, reorgA)]
      [(nonceId 2, reorgC), (nonceId 1, reorgB)].reverse = [sampleTx 0] := by decide +kernel
  rw [hback, decide_eq_true hmoved]
  rfl

theorem reorgChain₃_canonical : Canonical smallCrates reorgGenesis reorgChain₃.state 2 (nonceId 2)
    ((nonceId 2, reorgC) :: branchB) := submit_reorgC.2

end Ondris
