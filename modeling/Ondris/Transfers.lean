import Ondris.Mempool
import Ondris.Supply
import Ondris.Undo

/-!
# Transfers

The amounts that one transaction moves in the apply loop of `reconsider_tip`: the check
saturates the sum of amount and fee, the debit and the undo loop wrap it, and the credit
saturates.

Results:
1. `exactTransfer_iff`: the transfers that move exact amounts and destroy exactly the fee.
2. `transfers_exact_iff`: over every run, the calls whose transfers are all exact.
3. `safeCall_of_bound`: below the supply bound every call is one of them.
-/

namespace Ondris

open CappedCounter Ledger

/-! ## Definitions -/

/-- The transfers that the apply loop makes in one block: each transaction that passes
the checks, with the overlay that it finds. -/
def appliedTxs (K : Crates) (st : ChainState) (hash : Hash256) (height : UInt64) :
    Overlay → List Transaction → List (Overlay × Transaction)
  | _, [] => []
  | overlay, tx :: txs =>
    match applyTx K st hash height overlay tx with
    | .error _ => []
    | .ok next => (overlay, tx) :: appliedTxs K st hash height next txs

/-- The transfers of the whole apply loop. -/
def appliedBlocks (K : Crates) (g : GenesisConfig) (st : ChainState) :
    Overlay → BlockChain → List (Overlay × Transaction)
  | _, [] => []
  | overlay, p :: bs =>
    appliedTxs K st p.1 p.2.header.height overlay p.2.transactions.val ++
      match applyBlock K g st overlay p.1 p.2 with
      | .error _ => []
      | .ok next => appliedBlocks K g st next bs

/-- The call reaches `reconsider_tip`, which undoes `a` and applies `p`, both top first. -/
def Reorganises (K : Crates) (g : GenesisConfig) (st : ChainState) (b : Block)
    (a p : BlockChain) : Prop :=
  ∃ n t lo lp s, Canonical K g st n t lo ∧ Placement K g st lo b lp a p s ∧
    branchWork lo < branchWork ((blockId K b, b) :: lp)

/-- The call makes the transfer `tx` on the accounts of `overlay`. -/
def Makes (K : Crates) (g : GenesisConfig) (st : ChainState) (b : Block) (overlay : Overlay)
    (tx : Transaction) : Prop :=
  ∃ a p, Reorganises K g st b a p ∧
    (overlay, tx) ∈ appliedBlocks K g st (undoBlocks K g st ∅ a) p.reverse

/-- The sum of all balances of an overlay over the store. -/
def overlayTotal (st : ChainState) (overlay : Overlay) : ℕ := ∑ addr, overlayBalance st overlay addr

/-- A transfer moves amount and fee out of the sender, the amount into the recipient, and
destroys the fee. -/
structure ExactTransfer (K : Crates) (st : ChainState) (overlay overlay' : Overlay)
    (tx : Transaction) : Prop where
  sum : tx.amount.toNat + tx.fee.toNat < 2 ^ 64
  covered : tx.amount.toNat + tx.fee.toNat ≤ overlayBalance st overlay (tx.sender K)
  moved : ∀ addr, overlayBalance st overlay' addr
      + (if tx.sender K = addr then tx.amount.toNat + tx.fee.toNat else 0)
    = overlayBalance st overlay addr + (if tx.toAddr = addr then tx.amount.toNat else 0)
  total : overlayTotal st overlay' + tx.fee.toNat = overlayTotal st overlay

/-- The sum of a transfer fits `u64`, and so does what its recipient has afterwards. -/
structure SafeTransfer (K : Crates) (st : ChainState) (overlay : Overlay) (tx : Transaction) :
    Prop where
  sum : tx.amount.toNat + tx.fee.toNat < 2 ^ 64
  room : tx.sender K = tx.toAddr ∨
    overlayBalance st overlay tx.toAddr + tx.amount.toNat < 2 ^ 64

/-- Every transfer that the call makes is safe. -/
def SafeCall (K : Crates) (g : GenesisConfig) (c : Chain) (b : Block) : Prop :=
  ∀ overlay tx, Makes K g c.state b overlay tx → SafeTransfer K c.state overlay tx

/-- Every transfer that the call makes is exact, and no sum of the undo loop overflows. -/
structure ExactCall (K : Crates) (g : GenesisConfig) (c : Chain) (b : Block) : Prop where
  applied : ∀ overlay tx, Makes K g c.state b overlay tx → ∃ hash height overlay',
    applyTx K c.state hash height overlay tx = .ok overlay' ∧
      ExactTransfer K c.state overlay overlay' tx
  undone : ∀ a p, Reorganises K g c.state b a p → ∀ tx ∈ blockTxs a,
    tx.amount.toNat + tx.fee.toNat < 2 ^ 64

variable {K : Crates} {g : GenesisConfig} {c : Chain} {st : ChainState}
  {overlay overlay' : Overlay} {tx : Transaction}

/-! ## One transfer -/

theorem sum_le_balance {hash : Hash256} {height : UInt64}
    (h : applyTx K st hash height overlay tx = .ok overlay')
    (hsum : tx.amount.toNat + tx.fee.toNat < 2 ^ 64) :
    tx.amount.toNat + tx.fee.toNat ≤ overlayBalance st overlay (tx.sender K) := by
  have hcovered := ((applyTx_ok_iff hash height).mp ⟨overlay', h⟩).covered
  rw [UInt64.le_iff_toNat_le, toNat_satAdd_of_lt hsum] at hcovered
  exact hcovered

theorem SafeTransfer.moved {hash : Hash256} {height : UInt64}
    (h : applyTx K st hash height overlay tx = .ok overlay') (hsafe : SafeTransfer K st overlay tx)
    (addr : Address) : overlayBalance st overlay' addr
        + (if tx.sender K = addr then tx.amount.toNat + tx.fee.toNat else 0)
      = overlayBalance st overlay addr + (if tx.toAddr = addr then tx.amount.toNat else 0) := by
  have hcovered := sum_le_balance h hsafe.sum
  have hroom := hsafe.room
  have hle := overlayBalance_le st overlay addr
  rw [(balance_applyTx h addr).2, txEntries, toNat_add_of_lt hsafe.sum]
  unfold maxU64 at *
  by_cases hfrom : tx.sender K = addr
  · rw [hfrom] at hcovered
    by_cases hto : tx.toAddr = addr
    · -- to oneself: the amount comes back into what was left
      simp only [if_pos hfrom, if_pos hto, List.cons_append, List.nil_append, run_cons, act,
        run_nil]
      omega
    · simp only [if_pos hfrom, if_neg hto, List.append_nil, run_cons, act, run_nil]
      omega
  · by_cases hto : tx.toAddr = addr
    · rw [hto] at hroom
      have hroom' := hroom.resolve_left hfrom
      simp only [if_neg hfrom, if_pos hto, List.nil_append, run_cons, act, run_nil]
      omega
    · simp only [if_neg hfrom, if_neg hto, List.append_nil, run_nil]

/-- A transfer that passes the checks is exact exactly if it is safe. -/
theorem exactTransfer_iff {hash : Hash256} {height : UInt64}
    (h : applyTx K st hash height overlay tx = .ok overlay') :
    ExactTransfer K st overlay overlay' tx ↔ SafeTransfer K st overlay tx := by
  constructor
  · intro hexact
    refine ⟨hexact.sum, ?_⟩
    by_cases hself : tx.sender K = tx.toAddr
    · exact .inl hself
    · have hmoved := hexact.moved tx.toAddr
      have hle := overlayBalance_le st overlay' tx.toAddr
      rw [if_neg hself, if_pos rfl] at hmoved
      unfold maxU64 at hle
      exact .inr (by omega)
  · intro hsafe
    have hmoved := hsafe.moved h
    refine ⟨hsafe.sum, sum_le_balance h hsafe.sum, hmoved, ?_⟩
    -- the sum over all accounts of what moved
    have hall : ∑ addr, (overlayBalance st overlay' addr
          + (if tx.sender K = addr then tx.amount.toNat + tx.fee.toNat else 0))
        = ∑ addr, (overlayBalance st overlay addr
          + (if tx.toAddr = addr then tx.amount.toNat else 0)) :=
      Finset.sum_congr rfl fun addr _ => hmoved addr
    rw [Finset.sum_add_distrib, Finset.sum_add_distrib, Finset.sum_ite_eq, Finset.sum_ite_eq,
      if_pos (Finset.mem_univ _), if_pos (Finset.mem_univ _)] at hall
    unfold overlayTotal
    omega

/-! ## The transfers of a call -/

/-- A transfer of a list is that of its head, or one of the rest after it. -/
theorem mem_appliedTxs_cons {hash : Hash256} {height : UInt64} {t : Transaction}
    {txs : List Transaction} {start : Overlay}
    (h : (overlay, tx) ∈ appliedTxs K st hash height start (t :: txs)) :
    ∃ next, applyTx K st hash height start t = .ok next ∧
      ((overlay, tx) = (start, t) ∨ (overlay, tx) ∈ appliedTxs K st hash height next txs) := by
  unfold appliedTxs at h
  cases ht : applyTx K st hash height start t with
  | error e =>
    rw [ht] at h
    cases h
  | ok next =>
    rw [ht] at h
    exact ⟨next, rfl, List.mem_cons.mp h⟩

/-- A transfer of a list of blocks is one of the first block, or one of the rest after it. -/
theorem mem_appliedBlocks_cons {p : Hash256 × Block} {bs : BlockChain} {start : Overlay}
    (h : (overlay, tx) ∈ appliedBlocks K g st start (p :: bs)) :
    (overlay, tx) ∈ appliedTxs K st p.1 p.2.header.height start p.2.transactions.val ∨
      ∃ next, applyBlock K g st start p.1 p.2 = .ok next ∧
        (overlay, tx) ∈ appliedBlocks K g st next bs := by
  unfold appliedBlocks at h
  rcases List.mem_append.mp h with h | h
  · exact .inl h
  · cases happ : applyBlock K g st start p.1 p.2 with
    | error e =>
      rw [happ] at h
      cases h
    | ok next =>
      rw [happ] at h
      exact .inr ⟨next, rfl, h⟩

theorem ok_of_mem_appliedTxs {hash : Hash256} {height : UInt64} {txs : List Transaction}
    {start : Overlay} (h : (overlay, tx) ∈ appliedTxs K st hash height start txs) :
    ∃ overlay', applyTx K st hash height overlay tx = .ok overlay' := by
  induction txs generalizing start with
  | nil => cases h
  | cons t txs ih =>
    obtain ⟨next, ht, heq | h⟩ := mem_appliedTxs_cons h
    · obtain ⟨rfl, rfl⟩ := Prod.mk.inj heq
      exact ⟨next, ht⟩
    · exact ih h

theorem ok_of_mem_appliedBlocks {bs : BlockChain} {start : Overlay}
    (h : (overlay, tx) ∈ appliedBlocks K g st start bs) :
    ∃ hash height overlay', applyTx K st hash height overlay tx = .ok overlay' := by
  induction bs generalizing start with
  | nil => cases h
  | cons p bs ih =>
    rcases mem_appliedBlocks_cons h with h | ⟨next, -, h⟩
    · obtain ⟨overlay', h⟩ := ok_of_mem_appliedTxs h
      exact ⟨_, _, overlay', h⟩
    · exact ih h

/-- If the loop accepts a block, it makes all its transfers. -/
theorem mem_appliedTxs_of_ok {hash : Hash256} {height : UInt64} {txs : List Transaction}
    {start : Overlay} (h : applyTxs K st hash height start txs = .ok overlay') (htx : tx ∈ txs) :
    ∃ overlay, (overlay, tx) ∈ appliedTxs K st hash height start txs := by
  induction txs generalizing start with
  | nil => cases htx
  | cons t txs ih =>
    obtain ⟨next, ht, h⟩ := applyTxs_cons_ok h
    rw [appliedTxs, ht]
    rcases List.mem_cons.mp htx with rfl | htx
    · exact ⟨start, List.mem_cons_self⟩
    · obtain ⟨overlay, hmem⟩ := ih h htx
      exact ⟨overlay, List.mem_cons_of_mem _ hmem⟩

theorem mem_appliedBlocks_of_ok {bs : BlockChain} {start : Overlay}
    (h : applyBlocks K g st start bs = .ok overlay') (htx : tx ∈ blockTxs bs) :
    ∃ overlay, (overlay, tx) ∈ appliedBlocks K g st start bs := by
  induction bs generalizing start with
  | nil => cases htx
  | cons p bs ih =>
    have hsplit : blockTxs (p :: bs) = p.2.transactions.val ++ blockTxs bs := rfl
    obtain ⟨next, happ, h⟩ := applyBlocks_cons_ok h
    rw [hsplit, List.mem_append] at htx
    rw [appliedBlocks, happ]
    rcases htx with htx | htx
    · obtain ⟨after, htxs, -⟩ := applyBlock_ok happ
      obtain ⟨overlay, hmem⟩ := mem_appliedTxs_of_ok htxs htx
      exact ⟨overlay, List.mem_append_left _ hmem⟩
    · obtain ⟨overlay, hmem⟩ := ih h htx
      exact ⟨overlay, List.mem_append_right _ hmem⟩

/-! ## Runs -/

/-- The sums of the canonical transactions fit `u64`. -/
def SumsFit (K : Crates) (g : GenesisConfig) (st : ChainState) : Prop :=
  ∀ n t l, Canonical K g st n t l → ∀ tx ∈ blockTxs l, tx.amount.toNat + tx.fee.toNat < 2 ^ 64

/-- A safe call keeps the sums of the canonical transactions within `u64`. -/
theorem SumsFit.submit (hc : ChainInv K g c) (hfit : SumsFit K g c.state) {b : Block}
    (hsafe : SafeCall K g c b) : SumsFit K g (c.submit K b).state := by
  obtain ⟨n, t, lo, hcan⟩ := hc.canonical
  intro n' t' l' hcan' tx htx
  rcases submit_cases hc hcan b with
    ⟨-, hst⟩ | ⟨lp, a, p, s, hpl, ⟨-, hst⟩ | ⟨o, hwork, hsim, hst⟩⟩
  · rw [hst] at hcan'
    exact hfit n' t' l' hcan' tx htx
  · rw [hst] at hcan'
    obtain ⟨-, -, rfl⟩ := hcan'.unique (hpl.canonical_stored hcan)
    exact hfit n t l' hcan tx htx
  · rw [hst] at hcan'
    obtain ⟨-, -, rfl⟩ := hcan'.unique (hpl.canonical hc.stored hcan o)
    rw [hpl.fork.new, blockTxs_append, List.mem_append] at htx
    rcases htx with happlied | hcommon
    · -- a new block: all its transfers were made by this call
      obtain ⟨overlay, hmem⟩ := mem_appliedBlocks_of_ok hsim (mem_blockTxs_reverse.mpr happlied)
      exact (hsafe overlay tx ⟨a, p, ⟨n, t, lo, lp, s, hcan, hpl, hwork⟩, hmem⟩).sum
    · refine hfit n t lo hcan tx ?_
      rw [hpl.fork.old, blockTxs_append]
      exact List.mem_append_right _ hcommon

/-- After safe calls the sums of the canonical transactions fit `u64`. -/
theorem sumsFit (hc : (chainMachine K g).Reach (SafeCall K g) c) : SumsFit K g c.state := by
  refine Machine.Reach.invariant (P := fun c => SumsFit K g c.state) (fun c hinit => ?_)
    (fun c b hr hsafe ih => ih.submit (chainInv hr.reachable) hsafe) hc
  obtain ⟨-, hcan₀, -⟩ := openDb_canonical hinit
  intro n t l hcan tx htx
  obtain ⟨-, -, rfl⟩ := hcan.unique hcan₀
  exact absurd htx List.not_mem_nil

/-- **After safe calls, a call is exact exactly if it is safe.** -/
theorem transfers_exact_iff (hc : (chainMachine K g).Reach (SafeCall K g) c) (b : Block) :
    ExactCall K g c b ↔ SafeCall K g c b := by
  have hfit := sumsFit hc
  constructor
  · intro hexact overlay tx hmakes
    obtain ⟨hash, height, overlay', h, htransfer⟩ := hexact.applied overlay tx hmakes
    exact (exactTransfer_iff h).mp htransfer
  · intro hsafe
    refine ⟨fun overlay tx hmakes => ?_, ?_⟩
    · obtain ⟨a, p, -, hmem⟩ := id hmakes
      obtain ⟨hash, height, overlay', h⟩ := ok_of_mem_appliedBlocks hmem
      exact ⟨hash, height, overlay', h, (exactTransfer_iff h).mpr (hsafe overlay tx hmakes)⟩
    · rintro a p ⟨n, t, lo, lp, s, hcan, hpl, -⟩ tx htx
      refine hfit n t lo hcan tx ?_
      rw [hpl.fork.old, blockTxs_append]
      exact List.mem_append_left _ htx

/-! ## Below the supply bound -/

/-- A transfer is safe if all balances together stay below `u64::MAX`. -/
theorem SafeTransfer.of_total {hash : Hash256} {height : UInt64}
    (h : applyTx K st hash height overlay tx = .ok overlay')
    (htotal : overlayTotal st overlay < 2 ^ 64 - 1) : SafeTransfer K st overlay tx := by
  have hcovered := ((applyTx_ok_iff hash height).mp ⟨overlay', h⟩).covered
  have hle : overlayBalance st overlay (tx.sender K) ≤ overlayTotal st overlay :=
    balance_le_supply (overlayLedger st overlay) (tx.sender K)
  rw [UInt64.le_iff_toNat_le, toNat_satAdd] at hcovered
  change _ ≤ overlayBalance st overlay (tx.sender K) at hcovered
  have hsum : tx.amount.toNat + tx.fee.toNat ≤ overlayBalance st overlay (tx.sender K) := by
    omega
  refine ⟨by omega, ?_⟩
  by_cases hself : tx.sender K = tx.toAddr
  · exact .inl hself
  · have hboth : overlayBalance st overlay (tx.sender K) + overlayBalance st overlay tx.toAddr
        ≤ overlayTotal st overlay :=
      balance_add_le_supply (overlayLedger st overlay) hself
    exact .inr (by omega)

theorem overlayTotal_applyTx {hash : Hash256} {height : UInt64}
    (h : applyTx K st hash height overlay tx = .ok overlay')
    (htotal : overlayTotal st overlay < 2 ^ 64 - 1) :
    overlayTotal st overlay' ≤ overlayTotal st overlay := by
  have hexact := (exactTransfer_iff h).mpr (.of_total h htotal)
  exact Nat.le_of_add_right_le (Nat.le_of_eq hexact.total)

theorem overlayTotal_applyTxs {hash : Hash256} {height : UInt64} {txs : List Transaction}
    (h : applyTxs K st hash height overlay txs = .ok overlay')
    (htotal : overlayTotal st overlay < 2 ^ 64 - 1) :
    overlayTotal st overlay' ≤ overlayTotal st overlay := by
  induction txs generalizing overlay with
  | nil =>
    obtain rfl := Except.ok.inj h
    exact Nat.le_refl _
  | cons tx txs ih =>
    obtain ⟨next, htx, h⟩ := applyTxs_cons_ok h
    have hnext := overlayTotal_applyTx htx htotal
    exact Nat.le_trans (ih h (by omega)) hnext

/-- A block adds at most its reward to the total. -/
theorem overlayTotal_applyBlock {hash : Hash256} {b : Block}
    (h : applyBlock K g st overlay hash b = .ok overlay')
    (htotal : overlayTotal st overlay < 2 ^ 64 - 1) :
    overlayTotal st overlay' ≤ overlayTotal st overlay + (b.page K g).reward := by
  obtain ⟨next, htxs, rfl⟩ := applyBlock_ok h
  have hpaid := overlayTotal_applyTxs htxs htotal
  have hcredit := supply_update (overlayLedger st next) b.header.miner
    { getAcc st next b.header.miner with
      balance := satAdd (getAcc st next b.header.miner).balance
        (g.blockReward b.header.height) : Account }.holding
  rw [← overlayLedger_insert] at hcredit
  simp only [Account.holding, toNat_satAdd, overlayLedger_balance] at hcredit
  change overlayTotal st _ + _ = overlayTotal st next + _ at hcredit
  rw [Block.reward_page]
  omega

theorem SafeTransfer.of_mem_appliedTxs {hash : Hash256} {height : UInt64}
    {txs : List Transaction} {start : Overlay} (htotal : overlayTotal st start < 2 ^ 64 - 1)
    (h : (overlay, tx) ∈ appliedTxs K st hash height start txs) :
    SafeTransfer K st overlay tx := by
  induction txs generalizing start with
  | nil => cases h
  | cons t txs ih =>
    obtain ⟨next, ht, heq | h⟩ := mem_appliedTxs_cons h
    · obtain ⟨rfl, rfl⟩ := Prod.mk.inj heq
      exact .of_total ht htotal
    · have hnext := overlayTotal_applyTx ht htotal
      exact ih (by omega) h

theorem SafeTransfer.of_mem_appliedBlocks {bs : BlockChain} {start : Overlay}
    (htotal : overlayTotal st start + (bs.map fun p => (p.2.page K g).reward).sum < 2 ^ 64 - 1)
    (h : (overlay, tx) ∈ appliedBlocks K g st start bs) : SafeTransfer K st overlay tx := by
  induction bs generalizing start with
  | nil => cases h
  | cons p bs ih =>
    rw [List.map_cons, List.sum_cons] at htotal
    rcases mem_appliedBlocks_cons h with h | ⟨next, happ, h⟩
    · exact .of_mem_appliedTxs (by omega) h
    · have hnext := overlayTotal_applyBlock happ (by omega)
      exact ih (by omega) h

/-- Below the supply bound every call is safe. -/
theorem safeCall_of_bound (hbound : SupplyBound g) (hc : (chainMachine K g).Reachable c)
    (b : Block) : SafeCall K g c b := by
  have hinv := chainInv hc
  rintro overlay tx ⟨a, p, ⟨n, t, lo, lp, s, hcan, hpl, -⟩, hmem⟩
  obtain ⟨hold, hledger⟩ := ledgerInv hbound hc n t lo hcan
  have hnew := credited_lt hbound (hpl.wellStored hinv.stored) (hpl.branch hinv.stored)
  have hcommon := undoBlocks_fork hold hpl.fork hledger
  rw [hpl.fork.new] at hnew
  have hroom := branchLedger_supply hnew hpl.fork.common hcommon
  refine .of_mem_appliedBlocks ?_ hmem
  rw [List.map_reverse, List.sum_reverse]
  exact hroom

/-! ## A funded sender -/

/-- The first transaction of the funded account. -/
def fundedTx (amount fee : UInt64) : Transaction := { sampleTx 0 with amount, fee }

def fundedBlock (amount fee : UInt64) : Block :=
  sampleBlock [fundedTx amount fee] (show 1 < 2 ^ 53 by decide)

theorem blockOk_funded (balance amount fee : UInt64) :
    BlockOk smallCrates (fundedGenesis balance) [(fundedGenesis balance).genesisBlock]
      (blockId smallCrates (fundedBlock amount fee)) (fundedBlock amount fee) :=
  { id := rfl
    root := rfl
    target := by
      rw [blockId_small]
      exact meetsTarget_nonceId 0
    signed := fun tx htx => by
      rw [List.mem_singleton.mp htx]
      rfl
    height := rfl
    height_lt := by
      rw [toNat_epochLength]
      exact show 1 < 2048 by decide
    difficulty := rfl }

theorem getAccount_fundedOpen (balance : UInt64) :
    (fundedOpen balance).state.getAccount sampleSender = ⟨balance, 0⟩ := by
  have haccounts : (fundedOpen balance).state.accounts
      = Function.update (fun _ => none) sampleSender (some ⟨satAdd 0 balance, 0⟩) := rfl
  have hbalance : satAdd 0 balance = balance := by
    refine UInt64.toNat_inj.mp ?_
    have hlt := balance.toNat_lt
    rw [toNat_satAdd_of_lt (by simp [hlt])]
    simp
  rw [ChainState.getAccount, haccounts, Function.update_self, hbalance]
  rfl

theorem follows_funded {balance amount fee : UInt64} (h : satAdd amount fee ≤ balance) :
    Follows smallCrates (getAcc (fundedOpen balance).state ∅) [] (fundedTx amount fee) := by
  have hacc : getAcc (fundedOpen balance).state ∅ ((fundedTx amount fee).sender smallCrates)
      = ⟨balance, 0⟩ := getAccount_fundedOpen balance
  refine ⟨?_, ?_⟩
  · rw [hacc]
    rfl
  · rw [hacc]
    exact h

/-- The account makes every transfer that it can pay with saturation. -/
theorem makes_funded {balance amount fee : UInt64} (h : satAdd amount fee ≤ balance) :
    Makes smallCrates (fundedGenesis balance) (fundedOpen balance).state (fundedBlock amount fee) ∅
      (fundedTx amount fee) := by
  obtain ⟨-, hcan, honly⟩ := openDb_canonical (init_funded balance)
  have hid : blockId smallCrates (fundedBlock amount fee) = nonceId 0 := blockId_small _
  have hpl := Placement.of_tip (b := fundedBlock amount fee) hcan rfl
    (by rw [hid]; exact honly _ (nonceId_ne_genesisHash 0)) (blockOk_funded balance amount fee)
  refine ⟨_, _, ⟨_, _, _, _, _, hcan, hpl, branchWork_lt_cons (UInt64.le_refl 1) _⟩, ?_⟩
  -- the first transaction of the only block
  obtain ⟨next, hnext⟩ := (applyTx_ok_iff (blockId smallCrates (fundedBlock amount fee))
    (fundedBlock amount fee).header.height).mpr (follows_funded h)
  refine List.mem_append_left _ ?_
  show _ ∈ appliedTxs smallCrates (fundedOpen balance).state _ _ ∅ [fundedTx amount fee]
  rw [appliedTxs, hnext]
  exact List.mem_cons_self

theorem transfers_exact_iff_funded :
    Makes smallCrates (fundedGenesis 9) (fundedOpen 9).state (fundedBlock 5 1) ∅ (fundedTx 5 1) ∧
      (ExactCall smallCrates (fundedGenesis 9) (fundedOpen 9) (fundedBlock 5 1) ↔
        SafeCall smallCrates (fundedGenesis 9) (fundedOpen 9) (fundedBlock 5 1)) :=
  ⟨makes_funded (by decide), transfers_exact_iff (.init (init_funded 9)) (fundedBlock 5 1)⟩

/-- Amount and fee of `u64::MAX` and 1 coins are debited as 0 from an account that holds
`u64::MAX`. -/
theorem not_exact_funded :
    (chainMachine smallCrates (fundedGenesis 18446744073709551615)).Reachable
        (fundedOpen 18446744073709551615) ∧
      ¬ ExactCall smallCrates (fundedGenesis 18446744073709551615)
        (fundedOpen 18446744073709551615) (fundedBlock 18446744073709551615 1) := by
  refine ⟨.init (init_funded _), fun hexact => ?_⟩
  obtain ⟨hash, height, overlay', -, htransfer⟩ :=
    hexact.applied ∅ (fundedTx 18446744073709551615 1) (makes_funded (by decide))
  exact absurd htransfer.sum (by decide)

end Ondris
