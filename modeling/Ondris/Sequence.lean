import Ondris.Consensus
import Ondris.Pending

/-!
# Account nonces

Applying a transaction counts its sender's nonce up, undoing one counts it down,
so the stored nonces are the numbers of transactions on the canonical chain. Unlike
the balances this needs no supply bound: a chain holds fewer than `2^64`
transactions.

Results:
1. `applyBlocks_nonces`, `undoBlocks_nonces`: what the two loops do to the nonces.
2. `nonceInv`: in every reachable chain the transactions of a sender are numbered
   from 0 up to the stored nonce.
3. `replay_protection`: no transaction occurs twice on the canonical chain.
-/

namespace Ondris

/-! ## Definitions -/

/-- The transactions that `addr` sent, in order. -/
def sentBy (K : Crates) (addr : Address) (txs : List Transaction) : List Transaction :=
  txs.filter fun tx => tx.sender K = addr

/-- The transactions carry consecutive nonces of their senders, from `start` on. -/
def Numbered (K : Crates) (start : Address → ℕ) (txs : List Transaction) : Prop :=
  ∀ addr, (sentBy K addr txs).map (·.accountNonce.toNat)
    = List.range' (start addr) (sentBy K addr txs).length

/-- The nonces of the accounts of an overlay. -/
def overlayNonce (st : ChainState) (overlay : Overlay) (addr : Address) : ℕ :=
  (getAcc st overlay addr).nonce.toNat

/-- The transactions of a list of blocks, in order. -/
def blockTxs (bs : BlockChain) : List Transaction := bs.flatMap fun p => p.2.transactions.val

/-- The stored nonces number the transactions of the canonical chain. -/
def NonceInv (K : Crates) (g : GenesisConfig) (st : ChainState) : Prop :=
  ∀ n t l, Canonical K g st n t l → Numbered K (fun _ => 0) (blockTxs l.reverse) ∧
    ∀ addr, (st.getAccount addr).nonce.toNat = (sentBy K addr (blockTxs l.reverse)).length

variable {K : Crates} {g : GenesisConfig} {c : Chain} {st : ChainState}

/-! ## Lists -/

@[simp] theorem sentBy_append (addr : Address) (xs ys : List Transaction) :
    sentBy K addr (xs ++ ys) = sentBy K addr xs ++ sentBy K addr ys :=
  List.filter_append ..

theorem length_sentBy_singleton (addr : Address) (tx : Transaction) :
    (sentBy K addr [tx]).length = if tx.sender K = addr then 1 else 0 := by
  unfold sentBy
  rw [List.filter_singleton]
  split <;> simp_all

theorem length_sentBy_le (addr : Address) (txs : List Transaction) :
    (sentBy K addr txs).length ≤ txs.length :=
  List.length_filter_le ..

theorem length_sentBy_cons (addr : Address) (tx : Transaction) (txs : List Transaction) :
    (sentBy K addr (tx :: txs)).length
      = (sentBy K addr [tx]).length + (sentBy K addr txs).length := by
  rw [← List.singleton_append, sentBy_append, List.length_append]

theorem numbered_nil (start : Address → ℕ) : Numbered K start [] := fun _ => rfl

theorem numbered_append {start : Address → ℕ} {xs ys : List Transaction} :
    Numbered K start (xs ++ ys) ↔
      Numbered K start xs ∧ Numbered K (fun addr => start addr + (sentBy K addr xs).length) ys := by
  have hparts : ∀ addr, (sentBy K addr (xs ++ ys)).map (·.accountNonce.toNat)
        = List.range' (start addr) (sentBy K addr (xs ++ ys)).length ↔
      (sentBy K addr xs).map (·.accountNonce.toNat)
          = List.range' (start addr) (sentBy K addr xs).length ∧
        (sentBy K addr ys).map (·.accountNonce.toNat)
          = List.range' (start addr + (sentBy K addr xs).length) (sentBy K addr ys).length := by
    intro addr
    rw [sentBy_append, List.map_append, List.length_append, ← List.range'_append_1]
    constructor
    · exact fun h => List.append_inj h (by simp)
    · rintro ⟨hxs, hys⟩
      rw [hxs, hys]
  constructor
  · exact fun h => ⟨fun addr => ((hparts addr).mp (h addr)).1, fun addr => ((hparts addr).mp (h addr)).2⟩
  · exact fun h addr => (hparts addr).mpr ⟨h.1 addr, h.2 addr⟩

/-- Numbered transactions are distinct: equal ones would have one sender and one
nonce. -/
theorem Numbered.nodup {start : Address → ℕ} {txs : List Transaction}
    (h : Numbered K start txs) : txs.Nodup := by
  rw [List.nodup_iff_count_le_one]
  intro tx
  have hnd : (sentBy K (tx.sender K) txs).Nodup := by
    refine List.Nodup.of_map (·.accountNonce.toNat) ?_
    rw [h (tx.sender K)]
    exact List.nodup_range'
  have hcount : (sentBy K (tx.sender K) txs).count tx = txs.count tx :=
    List.count_filter (by simp)
  rw [← hcount]
  exact List.nodup_iff_count_le_one.mp hnd tx

theorem blockTxs_append (bs cs : BlockChain) : blockTxs (bs ++ cs) = blockTxs bs ++ blockTxs cs :=
  List.flatMap_append

/-! ## The loops -/

theorem overlayNonce_credit (overlay : Overlay) (addr : Address) (balance : UInt64) :
    overlayNonce st (overlay.insert addr { getAcc st overlay addr with balance })
      = overlayNonce st overlay := by
  funext b
  rw [overlayNonce, getAcc_insert]
  by_cases hb : b = addr
  · subst hb
    rw [Function.update_self, overlayNonce]
  · rw [Function.update_of_ne hb, overlayNonce]

theorem applyTx_nonces {hash : Hash256} {height : UInt64} {overlay overlay' : Overlay}
    {tx : Transaction} (h : applyTx K st hash height overlay tx = .ok overlay')
    (hroom : overlayNonce st overlay (tx.sender K) + 1 < 2 ^ 64) :
    Numbered K (overlayNonce st overlay) [tx] ∧
      ∀ addr, overlayNonce st overlay' addr
        = overlayNonce st overlay addr + (sentBy K addr [tx]).length := by
  have hnext : tx.accountNonce = (getAcc st overlay (tx.sender K)).nonce := by
    have hfollows := (applyTx_ok_iff hash height).mp ⟨overlay', h⟩
    exact hfollows.nonce.trans (UInt64.add_zero _)
  refine ⟨fun addr => ?_, fun addr => ?_⟩
  · by_cases haddr : tx.sender K = addr
    · have hsent : sentBy K addr [tx] = [tx] := by simp [sentBy, haddr]
      rw [hsent, ← haddr, overlayNonce, ← hnext]
      rfl
    · have hsent : sentBy K addr [tx] = [] := by simp [sentBy, haddr]
      rw [hsent]
      rfl
  · have hafter : getAcc st overlay' addr = accountsAfter K (getAcc st overlay) tx addr :=
      congrFun (getAcc_applyTx h) addr
    rw [overlayNonce, hafter, accountsAfter, length_sentBy_singleton]
    simp only
    split
    · next haddr =>
      subst haddr
      rw [toNat_add_one_of_lt hroom, overlayNonce]
    · rw [overlayNonce, Nat.add_zero]

theorem applyTxs_nonces {hash : Hash256} {height : UInt64} {txs : List Transaction}
    {overlay overlay' : Overlay} (h : applyTxs K st hash height overlay txs = .ok overlay')
    (hroom : ∀ addr, overlayNonce st overlay addr + (sentBy K addr txs).length < 2 ^ 64) :
    Numbered K (overlayNonce st overlay) txs ∧
      ∀ addr, overlayNonce st overlay' addr
        = overlayNonce st overlay addr + (sentBy K addr txs).length := by
  induction txs generalizing overlay with
  | nil =>
    obtain rfl := Except.ok.inj h
    exact ⟨numbered_nil _, fun _ => rfl⟩
  | cons tx txs ih =>
    obtain ⟨next, htx, h⟩ := applyTxs_cons_ok h
    have hfirst := hroom (tx.sender K)
    rw [length_sentBy_cons, length_sentBy_singleton, if_pos rfl] at hfirst
    obtain ⟨hnum, hnonce⟩ := applyTx_nonces htx (by omega)
    have hstart : overlayNonce st next
        = fun addr => overlayNonce st overlay addr + (sentBy K addr [tx]).length :=
      funext hnonce
    -- the rest starts from the nonces the first transaction leaves
    obtain ⟨hnum', hnonce'⟩ := ih h fun addr => by
      have hroom' := hroom addr
      rw [length_sentBy_cons] at hroom'
      rw [hnonce]
      omega
    rw [hstart] at hnum'
    refine ⟨numbered_append.mpr ⟨hnum, hnum'⟩, fun addr => ?_⟩
    rw [hnonce', hnonce, length_sentBy_cons addr tx txs, Nat.add_assoc]

/-- The apply loop numbers the transactions on from the nonces it starts with. -/
theorem applyBlocks_nonces {bs : BlockChain} {overlay overlay' : Overlay}
    (h : applyBlocks K g st overlay bs = .ok overlay')
    (hroom : ∀ addr, overlayNonce st overlay addr + (sentBy K addr (blockTxs bs)).length < 2 ^ 64) :
    Numbered K (overlayNonce st overlay) (blockTxs bs) ∧
      ∀ addr, overlayNonce st overlay' addr
        = overlayNonce st overlay addr + (sentBy K addr (blockTxs bs)).length := by
  induction bs generalizing overlay with
  | nil =>
    obtain rfl := Except.ok.inj h
    exact ⟨numbered_nil _, fun _ => rfl⟩
  | cons p bs ih =>
    have hsplit : blockTxs (p :: bs) = p.2.transactions.val ++ blockTxs bs := rfl
    simp only [hsplit, sentBy_append, List.length_append] at hroom ⊢
    obtain ⟨after, happ, h⟩ := applyBlocks_cons_ok h
    obtain ⟨next, htxs, rfl⟩ := applyBlock_ok happ
    obtain ⟨hnum, hnonce⟩ := applyTxs_nonces htxs fun addr => by
      have hroom' := hroom addr
      omega
    -- the reward leaves the nonces alone
    have hstart : overlayNonce st (next.insert p.2.header.miner
          { getAcc st next p.2.header.miner with
            balance := satAdd (getAcc st next p.2.header.miner).balance
              (g.blockReward p.2.header.height) })
        = fun addr => overlayNonce st overlay addr
          + (sentBy K addr p.2.transactions.val).length := by
      rw [overlayNonce_credit]
      exact funext hnonce
    obtain ⟨hnum', hnonce'⟩ := ih h fun addr => by
      rw [hstart]
      simpa only [Nat.add_assoc] using hroom addr
    rw [hstart] at hnum' hnonce'
    refine ⟨numbered_append.mpr ⟨hnum, hnum'⟩, fun addr => ?_⟩
    rw [hnonce', Nat.add_assoc]

theorem undoTx_nonces (overlay : Overlay) (tx : Transaction) (addr : Address) :
    overlayNonce st (undoTx K st overlay tx) addr
      = overlayNonce st overlay addr - (sentBy K addr [tx]).length := by
  have hback : overlayNonce st (overlay.insert tx.toAddr
      { getAcc st overlay tx.toAddr with
        balance := satSub (getAcc st overlay tx.toAddr).balance tx.amount })
      = overlayNonce st overlay := overlayNonce_credit overlay tx.toAddr _
  have hone : (1 : UInt64).toNat = 1 := rfl
  unfold undoTx
  rw [overlayNonce, getAcc_insert, length_sentBy_singleton]
  by_cases haddr : tx.sender K = addr
  · subst haddr
    rw [Function.update_self, if_pos rfl, toNat_satSub, hone, ← hback, overlayNonce]
  · rw [Function.update_of_ne (Ne.symm haddr), if_neg haddr, Nat.sub_zero, ← hback, overlayNonce]

theorem undoTxs_nonces (txs : List Transaction) (overlay : Overlay) (addr : Address) :
    overlayNonce st (txs.reverse.foldl (undoTx K st) overlay) addr
      = overlayNonce st overlay addr - (sentBy K addr txs).length := by
  induction txs with
  | nil => rfl
  | cons tx txs ih =>
    rw [List.reverse_cons, List.foldl_append, List.foldl_cons, List.foldl_nil, undoTx_nonces, ih,
      length_sentBy_cons addr tx txs, Nat.sub_sub, Nat.add_comm]

/-- The undo loop, tip first, takes the numbers of transactions off the nonces. -/
theorem undoBlocks_nonces (bs : BlockChain) (overlay : Overlay) (addr : Address) :
    overlayNonce st (undoBlocks K g st overlay bs) addr
      = overlayNonce st overlay addr - (sentBy K addr (blockTxs bs.reverse)).length := by
  induction bs generalizing overlay with
  | nil => rfl
  | cons p bs ih =>
    have hsplit : blockTxs (p :: bs).reverse = blockTxs bs.reverse ++ p.2.transactions.val := by
      rw [List.reverse_cons, blockTxs_append, blockTxs, blockTxs, List.flatMap_singleton]
    have hblock : overlayNonce st (undoBlock K g st overlay p.2) addr
        = overlayNonce st overlay addr - (sentBy K addr p.2.transactions.val).length := by
      rw [undoBlock, undoTxs_nonces, overlayNonce_credit]
    have hstep : undoBlocks K g st overlay (p :: bs)
        = undoBlocks K g st (undoBlock K g st overlay p.2) bs := rfl
    rw [hstep, ih, hblock, hsplit, sentBy_append, List.length_append, Nat.sub_sub, Nat.add_comm]

/-! ## Runs -/

/-- No branch holds more transactions than a nonce can count. -/
theorem length_branchTxs_lt (K : Crates) (hs : WellStored K g st) {h : Hash256} {l : BlockChain}
    (hl : Branch K g st h l) : (blockTxs l.reverse).length < 2 ^ 64 := by
  obtain ⟨t, rfl⟩ := hs.genesis_prefix hl
  have hpay := branch_payments_lt hs hl
  have hgen : g.genesisBlock.transactions.val = [] := rfl
  rw [List.dropLast_concat] at hpay
  simp only [Block.length_payments_page] at hpay
  rw [List.reverse_append, blockTxs_append, List.length_append, blockTxs, blockTxs,
    List.length_flatMap, List.length_flatMap, List.map_reverse, List.sum_reverse]
  simpa [hgen] using hpay

/-- The nonces after a simulation number the new branch. -/
theorem simulate_nonces (hs : WellStored K g st) {new : Hash256} {a p s : BlockChain}
    (hnew : Branch K g st new (p ++ s)) {overlay : Overlay}
    (hsim : simulate K g st a p = .ok overlay)
    (hnum : Numbered K (fun _ => 0) (blockTxs (a ++ s).reverse))
    (hnonce : ∀ addr, (st.getAccount addr).nonce.toNat
      = (sentBy K addr (blockTxs (a ++ s).reverse)).length) :
    Numbered K (fun _ => 0) (blockTxs (p ++ s).reverse) ∧
      ∀ addr, overlayNonce st overlay addr
        = (sentBy K addr (blockTxs (p ++ s).reverse)).length := by
  have hempty : overlayNonce st ∅ = fun addr => (st.getAccount addr).nonce.toNat := rfl
  have hlen := length_branchTxs_lt K hs hnew
  simp only [List.reverse_append, blockTxs_append] at hnum hnonce hlen ⊢
  -- undoing goes back to the common part
  have hundone : overlayNonce st (undoBlocks K g st ∅ a)
      = fun addr => 0 + (sentBy K addr (blockTxs s.reverse)).length := by
    funext addr
    rw [undoBlocks_nonces, hempty]
    simp only
    rw [hnonce, sentBy_append, List.length_append]
    omega
  obtain ⟨hnum', hnonce'⟩ := applyBlocks_nonces hsim fun addr => by
    have hle := length_sentBy_le (K := K) addr (blockTxs s.reverse ++ blockTxs p.reverse)
    rw [sentBy_append, List.length_append] at hle
    rw [hundone]
    simp only
    omega
  rw [hundone] at hnum' hnonce'
  refine ⟨numbered_append.mpr ⟨(numbered_append.mp hnum).1, hnum'⟩, fun addr => ?_⟩
  have hover := hnonce' addr
  simp only [Nat.zero_add] at hover
  rw [hover, sentBy_append, List.length_append]

theorem NonceInv.submit (hc : ChainInv K g c) (hnonce : NonceInv K g c.state) (b : Block) :
    NonceInv K g (c.submit K b).state := by
  obtain ⟨n, t, lo, hcan⟩ := hc.canonical
  intro n' t' l' hcan'
  rcases submit_cases hc hcan b with ⟨-, hst⟩ | ⟨lp, a, p, s, hpl, ⟨-, hst⟩ | ⟨o, -, hsim, hst⟩⟩
  · rw [hst] at hcan' ⊢
    exact hnonce n' t' l' hcan'
  · rw [hst] at hcan' ⊢
    obtain ⟨-, -, rfl⟩ := hcan'.unique (hpl.canonical_stored hcan)
    exact hnonce n t l' hcan
  · -- the overlay of the simulation becomes the accounts
    rw [hst] at hcan' ⊢
    obtain ⟨-, -, rfl⟩ := hcan'.unique (hpl.canonical hc.stored hcan o)
    have hs := hpl.wellStored hc.stored
    have haccounts : (stateWith K c.state b lp).accounts = c.state.accounts := rfl
    have hbranch := hpl.branch hc.stored
    obtain ⟨hnum, hstored⟩ := hnonce n t lo hcan
    rw [hpl.fork.new] at hbranch ⊢
    rw [hpl.fork.old] at hnum hstored
    rw [← simulate_congr haccounts] at hsim
    obtain ⟨hnum', hover⟩ := simulate_nonces hs hbranch hsim hnum hstored
    refine ⟨hnum', fun addr => ?_⟩
    rw [← hover]
    have hledger : ((stateWith K c.state b lp).writes
        (commitOf o a p.reverse (blockId K b) b.header.height).writes).ledger
          = overlayLedger (stateWith K c.state b lp) o := commit_ledger (List.Perm.refl _)
    exact congrArg Holding.seq (congrFun hledger addr)

theorem nonce_creditAll (ps : List (Address × UInt64)) (st : ChainState) (addr : Address) :
    ((st.writes (creditAll st ps)).getAccount addr).nonce = (st.getAccount addr).nonce := by
  induction ps generalizing st with
  | nil => rfl
  | cons p ps ih =>
    rw [creditAll, ChainState.writes_cons, ih]
    by_cases haddr : addr = p.1
    · subst haddr
      simp [ChainState.credit, ChainState.write, ChainState.getAccount]
    · simp [ChainState.credit, ChainState.write, ChainState.getAccount, haddr]

/-- Genesis initialisation leaves every nonce at 0. -/
theorem nonce_initGenesis {ws : List Write} (hws : initGenesis K g ChainState.empty = .ok ws)
    (addr : Address) : ((ChainState.empty.writes ws).getAccount addr).nonce = 0 := by
  obtain ⟨ps, -, rfl⟩ := initGenesis_cases hws
  rw [ChainState.writes_append]
  exact nonce_creditAll ps ChainState.empty addr

/-- The stored nonces number the transactions of the canonical chain, whatever was
extended and reorganised before. -/
theorem nonceInv (hc : (chainMachine K g).Reachable c) : NonceInv K g c.state := by
  refine Machine.Reach.invariant (P := fun c => NonceInv K g c.state) (fun c hinit => ?_)
    (fun c b hr _ ih => ih.submit (chainInv hr) b) hc
  obtain ⟨-, hcan₀, -⟩ := openDb_canonical hinit
  obtain ⟨ws, hws, rfl⟩ := openDb_empty hinit
  intro n t l hcan
  obtain ⟨-, -, rfl⟩ := hcan.unique hcan₀
  refine ⟨numbered_nil _, fun addr => ?_⟩
  rw [nonce_initGenesis hws]
  rfl

/-- The transactions of the canonical blocks are those of the branch: genesis has
none. -/
theorem WellStored.flatMap_transactions (hs : WellStored K g st) {h : Hash256} {l : BlockChain}
    (hl : Branch K g st h l) :
    (l.dropLast.map Prod.snd).reverse.flatMap (·.transactions.val) = blockTxs l.reverse := by
  obtain ⟨t, rfl⟩ := hs.genesis_prefix hl
  have hgen : blockTxs [(g.genesisHash K, g.genesisBlock)] = [] := rfl
  rw [List.dropLast_concat, List.reverse_append, blockTxs_append, List.reverse_singleton, hgen,
    List.nil_append, blockTxs, ← List.map_reverse, List.flatMap_map]

/-- **Replay protection.** -/
theorem replay_protection (hc : (chainMachine K g).Reachable c) :
    ∃ blocks, CanonicalBlocks c.state blocks ∧
      (∀ addr, (sentBy K addr (blocks.flatMap (·.transactions.val))).map (·.accountNonce.toNat)
        = List.range (c.state.getAccount addr).nonce.toNat) ∧
      (∀ addr, ∀ tx ∈ sentBy K addr (blocks.flatMap (·.transactions.val)),
        tx.isSignatureValid K = true ∧ tx.fromKey.toAddress K = addr) ∧
      (blocks.flatMap (·.transactions.val)).Nodup := by
  have hinv := chainInv hc
  obtain ⟨n, t, l, hcan⟩ := hinv.canonical
  obtain ⟨hnum, hnonce⟩ := nonceInv hc n t l hcan
  refine ⟨_, hcan.canonicalBlocks, ?_⟩
  rw [hinv.stored.flatMap_transactions hcan.branch]
  refine ⟨fun addr => ?_, fun addr tx htx => ?_, hnum.nodup⟩
  · rw [hnum addr, hnonce addr, List.range_eq_range']
  · obtain ⟨hmem, hsender⟩ := List.mem_filter.mp htx
    obtain ⟨p, hp, htx⟩ := List.mem_flatMap.mp hmem
    exact ⟨hcan.branch.signed hinv.stored (List.mem_reverse.mp hp) htx, of_decide_eq_true hsender⟩

theorem replay_protection_reorg : reorgChain₃.state.tip = some (2, nonceId 2) ∧
    ∃ blocks, CanonicalBlocks reorgChain₃.state blocks ∧
    (∀ addr, (sentBy smallCrates addr (blocks.flatMap (·.transactions.val))).map
        (·.accountNonce.toNat) = List.range (reorgChain₃.state.getAccount addr).nonce.toNat) ∧
    (∀ addr, ∀ tx ∈ sentBy smallCrates addr (blocks.flatMap (·.transactions.val)),
      tx.isSignatureValid smallCrates = true ∧ tx.fromKey.toAddress smallCrates = addr) ∧
    (blocks.flatMap (·.transactions.val)).Nodup :=
  ⟨reorgChain₃_canonical.tip, replay_protection reachable_reorg₃⟩

end Ondris
