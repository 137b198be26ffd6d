import Ondris.Chain

/-!
# Pending transactions

What the apply loop asks of a list of transactions, said without the loop: every
transaction carries the nonce that its sender has reached by then, and the sender
still owns what it spends.

Results:
1. `applyTx_ok_iff`, `getAcc_applyTx`: one turn of the loop.
   `applyTxs_cons_ok`, `applyBlock_ok`, `applyBlocks_cons_ok`: the turns of a loop that succeeds.
2. `applyTxs_ok_iff`: the loop accepts exactly the executable lists.
3. `Executable.insert`: where a transaction stands does not matter if its sender has no other.
-/

namespace Ondris

/-! ## Definitions -/

/-- What `addr` owns after a transaction, if it owned `balance` before. -/
def Transaction.balanceAfter (K : Crates) (tx : Transaction) (addr : Address) (balance : UInt64) :
    UInt64 :=
  let kept := if tx.sender K = addr then balance - (tx.amount + tx.fee) else balance
  if tx.toAddr = addr then satAdd kept tx.amount else kept

/-- What `addr` owns after a list of transactions. -/
def runningBalance (K : Crates) (addr : Address) (balance : UInt64) (txs : List Transaction) :
    UInt64 :=
  txs.foldl (fun balance tx => tx.balanceAfter K addr balance) balance

/-- The transaction may come right after the transactions `pre`: its nonce is that
of its sender plus one for each transaction of the sender in `pre`, and they leave
enough to pay for it. -/
structure Follows (K : Crates) (accounts : Address → Account) (pre : List Transaction)
    (tx : Transaction) : Prop where
  nonce : tx.accountNonce = (accounts (tx.sender K)).nonce +
    UInt64.ofNat (pre.countP fun p => p.sender K = tx.sender K)
  covered : satAdd tx.amount tx.fee ≤
    runningBalance K (tx.sender K) (accounts (tx.sender K)).balance pre

/-- Every transaction of the list may come right after those before it. -/
def Executable (K : Crates) (accounts : Address → Account) (txs : List Transaction) : Prop :=
  ∀ pre tx post, txs = pre ++ tx :: post → Follows K accounts pre tx

/-- The accounts after one transaction. -/
def accountsAfter (K : Crates) (accounts : Address → Account) (tx : Transaction) :
    Address → Account := fun addr =>
  { balance := tx.balanceAfter K addr (accounts addr).balance
    nonce := if tx.sender K = addr then (accounts addr).nonce + 1 else (accounts addr).nonce }

/-- The accounts `accounts'` are those of `accounts` or richer, apart from `addr`. -/
structure Enriches (addr : Address) (accounts accounts' : Address → Account) : Prop where
  nonce : ∀ a, a ≠ addr → (accounts' a).nonce = (accounts a).nonce
  balance : ∀ a, a ≠ addr → (accounts a).balance ≤ (accounts' a).balance

variable {K : Crates} {st : ChainState} {accounts : Address → Account}

/-! ## Lists -/

theorem executable_nil : Executable K accounts [] := by
  intro pre tx post h
  exact absurd h.symm (List.append_ne_nil_of_right_ne_nil _ (List.cons_ne_nil _ _))

/-- A transaction at the head can be moved into the accounts. -/
theorem follows_cons {p tx : Transaction} {pre : List Transaction} :
    Follows K accounts (p :: pre) tx ↔ Follows K (accountsAfter K accounts p) pre tx := by
  have hnonce : (accounts (tx.sender K)).nonce +
        UInt64.ofNat ((p :: pre).countP fun q => q.sender K = tx.sender K)
      = (accountsAfter K accounts p (tx.sender K)).nonce +
        UInt64.ofNat (pre.countP fun q => q.sender K = tx.sender K) := by
    rw [List.countP_cons, accountsAfter]
    simp only [decide_eq_true_eq]
    split
    · rw [UInt64.ofNat_add, UInt64.ofNat_one, UInt64.add_assoc, UInt64.add_comm 1]
    · rw [Nat.add_zero]
  have hbalance : runningBalance K (tx.sender K) (accounts (tx.sender K)).balance (p :: pre)
      = runningBalance K (tx.sender K) (accountsAfter K accounts p (tx.sender K)).balance pre := rfl
  constructor
  · rintro ⟨hn, hb⟩
    exact ⟨hn.trans hnonce, hbalance ▸ hb⟩
  · rintro ⟨hn, hb⟩
    exact ⟨hn.trans hnonce.symm, hbalance ▸ hb⟩

theorem executable_cons {tx : Transaction} {txs : List Transaction} :
    Executable K accounts (tx :: txs) ↔
      Follows K accounts [] tx ∧ Executable K (accountsAfter K accounts tx) txs := by
  constructor
  · intro h
    refine ⟨h [] tx txs rfl, fun pre p post heq => follows_cons.mp (h (tx :: pre) p post ?_)⟩
    rw [heq, List.cons_append]
  · rintro ⟨hhead, htail⟩ pre p post heq
    cases pre with
    | nil =>
      obtain ⟨rfl, -⟩ := List.cons.inj heq
      exact hhead
    | cons q pre =>
      obtain ⟨rfl, htxs⟩ := List.cons.inj heq
      exact follows_cons.mpr (htail pre p post htxs)

instance (pre : List Transaction) (tx : Transaction) : Decidable (Follows K accounts pre tx) :=
  decidable_of_iff (_ ∧ _) ⟨fun h => ⟨h.1, h.2⟩, fun h => ⟨h.nonce, h.covered⟩⟩

instance decidableExecutable (accounts : Address → Account) :
    (txs : List Transaction) → Decidable (Executable K accounts txs)
  | [] => .isTrue executable_nil
  | tx :: txs =>
    have := decidableExecutable (accountsAfter K accounts tx) txs
    decidable_of_iff (Follows K accounts [] tx ∧ Executable K (accountsAfter K accounts tx) txs)
      executable_cons.symm

/-! ## One transaction more -/

section Insert

variable {addr : Address} {accounts' : Address → Account} {tx : Transaction}
  {pre post : List Transaction}

/-- An account that nobody pays out of only grows. -/
theorem Transaction.le_balanceAfter (h : tx.sender K ≠ addr) (balance : UInt64) :
    balance ≤ tx.balanceAfter K addr balance := by
  unfold Transaction.balanceAfter
  simp only [if_neg h]
  split
  · exact le_satAdd balance tx.amount
  · exact UInt64.le_refl balance

/-- Who has more before a transaction that is covered has more after it. -/
theorem Transaction.balanceAfter_mono {balance balance' : UInt64} (hle : balance ≤ balance')
    (hcovered : tx.sender K = addr → satAdd tx.amount tx.fee ≤ balance) :
    tx.balanceAfter K addr balance ≤ tx.balanceAfter K addr balance' := by
  have hkept : (if tx.sender K = addr then balance - (tx.amount + tx.fee) else balance)
      ≤ if tx.sender K = addr then balance' - (tx.amount + tx.fee) else balance' := by
    split
    · next hsender =>
      have hpaid := hcovered hsender
      have hlt := balance'.toNat_lt
      rw [UInt64.le_iff_toNat_le, toNat_satAdd] at hpaid
      rw [UInt64.le_iff_toNat_le] at hle ⊢
      rcases Nat.lt_or_ge (tx.amount.toNat + tx.fee.toNat) (2 ^ 64) with hsum | hsum
      · have hfee := toNat_add_of_lt hsum
        rw [toNat_sub_of_le (by omega), toNat_sub_of_le (by omega)]
        omega
      · -- only the largest balance covers a sum that saturates
        have heq : balance = balance' := UInt64.toNat_inj.mp (by omega)
        rw [heq]
    · exact hle
  unfold Transaction.balanceAfter
  simp only
  split
  · rw [UInt64.le_iff_toNat_le] at hkept ⊢
    rw [toNat_satAdd, toNat_satAdd]
    omega
  · exact hkept

/-- A transaction takes nothing from others than its sender. -/
theorem enriches_accountsAfter (accounts : Address → Account) (tx : Transaction) :
    Enriches (tx.sender K) accounts (accountsAfter K accounts tx) where
  nonce _ ha := if_neg ha.symm
  balance a ha := tx.le_balanceAfter ha.symm (accounts a).balance

/-- The richer accounts can make a transaction that the others can make. -/
theorem Enriches.follows (h : Enriches addr accounts accounts') (hsender : tx.sender K ≠ addr)
    (hfollows : Follows K accounts [] tx) : Follows K accounts' [] tx where
  nonce := by
    rw [h.nonce _ hsender]
    exact hfollows.nonce
  covered := UInt64.le_trans hfollows.covered (h.balance _ hsender)

theorem Enriches.after (h : Enriches addr accounts accounts')
    (hfollows : Follows K accounts [] tx) :
    Enriches addr (accountsAfter K accounts tx) (accountsAfter K accounts' tx) where
  nonce a ha := by
    simp only [accountsAfter, h.nonce a ha]
  balance a ha := by
    refine Transaction.balanceAfter_mono (h.balance a ha) fun hsender => ?_
    have hcovered := hfollows.covered
    rw [hsender] at hcovered
    exact hcovered

theorem Executable.enriched {txs : List Transaction} (h : Executable K accounts txs)
    (hrich : Enriches addr accounts accounts') (hothers : ∀ p ∈ txs, p.sender K ≠ addr) :
    Executable K accounts' txs := by
  induction txs generalizing accounts accounts' with
  | nil => exact executable_nil
  | cons p txs ih =>
    obtain ⟨hhead, htail⟩ := executable_cons.mp h
    refine executable_cons.mpr ⟨hrich.follows (hothers p List.mem_cons_self) hhead, ?_⟩
    exact ih htail (hrich.after hhead) fun q hq => hothers q (List.mem_cons_of_mem _ hq)

/-- A transaction of a sender who has no other one fits anywhere into a list that is executable. -/
theorem Executable.insert (h : Executable K accounts (pre ++ post))
    (hothers : ∀ p ∈ pre ++ post, p.sender K ≠ tx.sender K)
    (hnonce : tx.accountNonce = (accounts (tx.sender K)).nonce)
    (hcovered : satAdd tx.amount tx.fee ≤ (accounts (tx.sender K)).balance) :
    Executable K accounts (pre ++ tx :: post) := by
  induction pre generalizing accounts with
  | nil =>
    refine executable_cons.mpr ⟨⟨hnonce.trans (UInt64.add_zero _).symm, hcovered⟩, ?_⟩
    exact h.enriched (enriches_accountsAfter accounts tx) hothers
  | cons p pre ih =>
    obtain ⟨hhead, htail⟩ := executable_cons.mp h
    have hp : p.sender K ≠ tx.sender K := hothers p List.mem_cons_self
    have hrich := enriches_accountsAfter (K := K) accounts p
    refine executable_cons.mpr ⟨hhead, ih htail ?_ ?_ ?_⟩
    · exact fun q hq => hothers q (List.mem_cons_of_mem _ hq)
    · rw [hrich.nonce _ hp.symm]
      exact hnonce
    · exact UInt64.le_trans hcovered (hrich.balance _ hp.symm)

end Insert

/-! ## The apply loop -/

theorem getAcc_insert (overlay : Overlay) (addr : Address) (a : Account) :
    getAcc st (overlay.insert addr a) = Function.update (getAcc st overlay) addr a := by
  funext b
  by_cases hb : b = addr
  · subst hb
    rw [getAcc, AList.lookup_insert, Function.update_self]
  · rw [getAcc, AList.lookup_insert_ne hb, Function.update_of_ne hb, getAcc]

/-- The two checks of the loop. -/
theorem applyTx_ok_iff (hash : Hash256) (height : UInt64) {overlay : Overlay} {tx : Transaction} :
    (∃ overlay', applyTx K st hash height overlay tx = .ok overlay') ↔
      Follows K (getAcc st overlay) [] tx := by
  have hzero : (getAcc st overlay (tx.sender K)).nonce +
      UInt64.ofNat (([] : List Transaction).countP fun p => p.sender K = tx.sender K)
        = (getAcc st overlay (tx.sender K)).nonce := UInt64.add_zero _
  unfold applyTx
  simp only
  split
  · next hnonce =>
    -- out of sequence
    refine ⟨?_, fun h => absurd (h.nonce.trans hzero) hnonce⟩
    rintro ⟨overlay', h⟩
    cases h
  · next hnonce =>
    split
    · next hpoor =>
      -- not covered
      refine ⟨?_, fun h => absurd hpoor (UInt64.not_lt.mpr h.covered)⟩
      rintro ⟨overlay', h⟩
      cases h
    · next hrich =>
      refine ⟨fun _ => ⟨?_, UInt64.not_lt.mp hrich⟩, fun _ => ⟨_, rfl⟩⟩
      exact (not_not.mp hnonce).trans hzero.symm

/-- What a transaction that passes does to the accounts. -/
theorem getAcc_applyTx {hash : Hash256} {height : UInt64} {overlay overlay' : Overlay}
    {tx : Transaction} (h : applyTx K st hash height overlay tx = .ok overlay') :
    getAcc st overlay' = accountsAfter K (getAcc st overlay) tx := by
  unfold applyTx at h
  simp only at h
  split at h
  · cases h
  · split at h
    · cases h
    · obtain rfl := Except.ok.inj h
      funext addr
      rw [getAcc_insert, getAcc_insert, accountsAfter, Transaction.balanceAfter]
      by_cases hto : tx.toAddr = addr
      · subst hto
        by_cases hfrom : tx.sender K = tx.toAddr
        · simp [hfrom]
        · simp [hfrom, Function.update_of_ne (Ne.symm hfrom)]
      · by_cases hfrom : tx.sender K = addr
        · subst hfrom
          simp [hto, Function.update_of_ne (Ne.symm hto)]
        · simp [hto, hfrom, Function.update_of_ne (Ne.symm hto), Function.update_of_ne (Ne.symm hfrom)]

/-- The turns of a loop over transactions that succeeds. -/
theorem applyTxs_cons_ok {hash : Hash256} {height : UInt64} {overlay overlay' : Overlay}
    {tx : Transaction} {txs : List Transaction}
    (h : applyTxs K st hash height overlay (tx :: txs) = .ok overlay') :
    ∃ next, applyTx K st hash height overlay tx = .ok next ∧
      applyTxs K st hash height next txs = .ok overlay' := by
  unfold applyTxs at h
  cases htx : applyTx K st hash height overlay tx with
  | error e =>
    rw [htx] at h
    cases h
  | ok next =>
    rw [htx] at h
    exact ⟨next, rfl, h⟩

/-- A block that is applied: its transactions, then the reward. -/
theorem applyBlock_ok {g : GenesisConfig} {overlay overlay' : Overlay} {hash : Hash256} {b : Block}
    (h : applyBlock K g st overlay hash b = .ok overlay') :
    ∃ next, applyTxs K st hash b.header.height overlay b.transactions.val = .ok next ∧
      overlay' = next.insert b.header.miner
        { balance := satAdd (getAcc st next b.header.miner).balance
            (g.blockReward b.header.height)
          nonce := (getAcc st next b.header.miner).nonce } := by
  unfold applyBlock at h
  cases htxs : applyTxs K st hash b.header.height overlay b.transactions.val with
  | error e =>
    rw [htxs] at h
    cases h
  | ok next =>
    rw [htxs] at h
    exact ⟨next, rfl, (Except.ok.inj h).symm⟩

/-- The turns of a loop over blocks that succeeds. -/
theorem applyBlocks_cons_ok {g : GenesisConfig} {overlay overlay' : Overlay} {p : Hash256 × Block}
    {bs : BlockChain} (h : applyBlocks K g st overlay (p :: bs) = .ok overlay') :
    ∃ next, applyBlock K g st overlay p.1 p.2 = .ok next ∧
      applyBlocks K g st next bs = .ok overlay' := by
  unfold applyBlocks at h
  cases happ : applyBlock K g st overlay p.1 p.2 with
  | error e =>
    rw [happ] at h
    cases h
  | ok next =>
    rw [happ] at h
    exact ⟨next, rfl, h⟩

/-- **The apply loop accepts exactly the executable lists.** -/
theorem applyTxs_ok_iff {hash : Hash256} {height : UInt64} {overlay : Overlay}
    {txs : List Transaction} :
    (∃ overlay', applyTxs K st hash height overlay txs = .ok overlay') ↔
      Executable K (getAcc st overlay) txs := by
  induction txs generalizing overlay with
  | nil => exact ⟨fun _ => executable_nil, fun _ => ⟨overlay, rfl⟩⟩
  | cons tx txs ih =>
    rw [executable_cons, ← applyTx_ok_iff hash height, applyTxs]
    cases htx : applyTx K st hash height overlay tx with
    | error e =>
      constructor
      · rintro ⟨overlay', h⟩
        cases h
      · rintro ⟨⟨overlay', h⟩, -⟩
        cases h
    | ok next =>
      rw [← getAcc_applyTx htx, ← ih]
      exact ⟨fun h => ⟨⟨next, rfl⟩, h⟩, fun h => h.2⟩

end Ondris
