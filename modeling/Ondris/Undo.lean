import Ondris.Lib.CappedCounter
import Ondris.Commitment
import Ondris.Sequence

/-!
# Undo

The undo loop of `reconsider_tip` against its apply loop, on accounts with any balances
and nonces. For one account the two loops are a list of credits and debits and that list
taken back.

Results:
1. `balance_applyBlocks`, `balance_undoBlocks`: the balance of an account after each loop.
2. `undo_apply_iff`: undoing restores the accounts exactly if no balance saturates, up to
   a first credit at 0, and no nonce wraps.
-/

namespace Ondris

open CappedCounter

/-! ## Definitions -/

/-- `u64::MAX`. -/
def maxU64 : ℕ := 2 ^ 64 - 1

def overlayBalance (st : ChainState) (overlay : Overlay) (addr : Address) : ℕ :=
  (getAcc st overlay addr).balance.toNat

/-- What a transaction does to the balance of an account, in the order of the apply loop. -/
def txEntries (K : Crates) (addr : Address) (tx : Transaction) : List Entry :=
  (if tx.sender K = addr then [.debit (tx.amount + tx.fee).toNat] else []) ++
    if tx.toAddr = addr then [.credit tx.amount.toNat] else []

/-- What a block does to it: its transactions, then the reward. -/
def blockEntries (K : Crates) (g : GenesisConfig) (addr : Address) (b : Block) : List Entry :=
  b.transactions.val.flatMap (txEntries K addr) ++
    if b.header.miner = addr then [.credit (g.blockReward b.header.height).toNat] else []

/-- What a list of blocks does to it. -/
def chainEntries (K : Crates) (g : GenesisConfig) (addr : Address) (bs : BlockChain) : List Entry :=
  bs.flatMap fun p => blockEntries K g addr p.2

/-- The account is restored: no credit saturates before the first one at balance 0, and
its nonce does not wrap, unless it was 0. -/
structure Restored (K : Crates) (g : GenesisConfig) (st : ChainState) (overlay : Overlay)
    (bs : BlockChain) (addr : Address) : Prop where
  balance : Recoverable maxU64 (overlayBalance st overlay addr) (chainEntries K g addr bs)
  nonce : overlayNonce st overlay addr = 0 ∨
    overlayNonce st overlay addr + (sentBy K addr (blockTxs bs)).length < 2 ^ 64

variable {K : Crates} {g : GenesisConfig} {st : ChainState} {overlay overlay' : Overlay}
  {addr : Address}

/-! ## One transaction -/

theorem overlayBalance_le (st : ChainState) (overlay : Overlay) (addr : Address) :
    overlayBalance st overlay addr ≤ maxU64 :=
  Nat.le_sub_one_of_lt (getAcc st overlay addr).balance.toNat_lt

theorem overlayBalance_insert (overlay : Overlay) (a addr : Address) (x : Account) :
    overlayBalance st (overlay.insert a x) addr
      = if a = addr then x.balance.toNat else overlayBalance st overlay addr := by
  rw [overlayBalance, getAcc_insert]
  split
  · next heq => rw [heq, Function.update_self]
  · next hne => rw [Function.update_of_ne (Ne.symm hne), overlayBalance]

/-- The wrapping sum is at most the saturating one. -/
theorem toNat_add_le_satAdd (a b : UInt64) : (a + b).toNat ≤ (satAdd a b).toNat := by
  have hlt := (a + b).toNat_lt
  have hmod := Nat.mod_le (a.toNat + b.toNat) (2 ^ 64)
  rw [toNat_satAdd]
  rw [UInt64.toNat_add] at hlt ⊢
  omega

theorem toNat_satAdd_eq_act (a r : UInt64) :
    (satAdd a r).toNat = act maxU64 a.toNat (.credit r.toNat) :=
  toNat_satAdd a r

theorem balance_applyTx {hash : Hash256} {height : UInt64} {tx : Transaction}
    (h : applyTx K st hash height overlay tx = .ok overlay') (addr : Address) :
    Covers maxU64 (overlayBalance st overlay addr) (txEntries K addr tx) ∧
      overlayBalance st overlay' addr
        = run maxU64 (overlayBalance st overlay addr) (txEntries K addr tx) := by
  have hcovered : (tx.amount + tx.fee).toNat ≤ overlayBalance st overlay (tx.sender K) :=
    Nat.le_trans (toNat_add_le_satAdd _ _)
      (UInt64.le_iff_toNat_le.mp ((applyTx_ok_iff hash height).mp ⟨overlay', h⟩).covered)
  have hafter : overlayBalance st overlay' addr
      = (tx.balanceAfter K addr (getAcc st overlay addr).balance).toNat := by
    rw [overlayBalance, getAcc_applyTx h]
    rfl
  rw [hafter, Transaction.balanceAfter, txEntries]
  by_cases hfrom : tx.sender K = addr
  · rw [hfrom] at hcovered
    have hsub : ((getAcc st overlay addr).balance - (tx.amount + tx.fee)).toNat
        = act maxU64 (overlayBalance st overlay addr) (.debit (tx.amount + tx.fee).toNat) :=
      toNat_sub_of_le hcovered
    rw [if_pos hfrom, if_pos hfrom]
    by_cases hto : tx.toAddr = addr
    · rw [if_pos hto, if_pos hto, toNat_satAdd_eq_act, hsub]
      exact ⟨⟨hcovered, trivial⟩, rfl⟩
    · rw [if_neg hto, if_neg hto, hsub]
      exact ⟨⟨hcovered, trivial⟩, rfl⟩
  · rw [if_neg hfrom, if_neg hfrom]
    by_cases hto : tx.toAddr = addr
    · rw [if_pos hto, if_pos hto, toNat_satAdd_eq_act]
      exact ⟨trivial, rfl⟩
    · rw [if_neg hto, if_neg hto]
      exact ⟨trivial, rfl⟩

theorem balance_undoTx (overlay : Overlay) (tx : Transaction) (addr : Address) :
    overlayBalance st (undoTx K st overlay tx) addr
      = rewind maxU64 (overlayBalance st overlay addr) (txEntries K addr tx) := by
  have hfirst : ∀ a, overlayBalance st (overlay.insert tx.toAddr
      { getAcc st overlay tx.toAddr with
        balance := satSub (getAcc st overlay tx.toAddr).balance tx.amount }) a
      = rewind maxU64 (overlayBalance st overlay a)
          (if tx.toAddr = a then [.credit tx.amount.toNat] else []) := by
    intro a
    rw [overlayBalance_insert]
    split
    · next heq =>
      subst heq
      exact toNat_satSub _ _
    · rfl
  unfold undoTx
  rw [overlayBalance_insert, txEntries, rewind_append, ← hfirst]
  split
  · next heq =>
    subst heq
    exact toNat_satAdd_eq_act _ _
  · rfl

/-! ## The loops -/

theorem balance_applyTxs {hash : Hash256} {height : UInt64} {txs : List Transaction}
    (h : applyTxs K st hash height overlay txs = .ok overlay') (addr : Address) :
    Covers maxU64 (overlayBalance st overlay addr) (txs.flatMap (txEntries K addr)) ∧
      overlayBalance st overlay' addr
        = run maxU64 (overlayBalance st overlay addr) (txs.flatMap (txEntries K addr)) := by
  induction txs generalizing overlay with
  | nil =>
    obtain rfl := Except.ok.inj h
    exact ⟨trivial, rfl⟩
  | cons tx txs ih =>
    obtain ⟨next, htx, h⟩ := applyTxs_cons_ok h
    obtain ⟨hcovers, hnext⟩ := balance_applyTx htx addr
    obtain ⟨hcovers', hlast⟩ := ih h
    rw [List.flatMap_cons, covers_append, run_append, ← hnext]
    exact ⟨⟨hcovers, hcovers'⟩, hlast⟩

theorem balance_applyBlock {hash : Hash256} {b : Block}
    (h : applyBlock K g st overlay hash b = .ok overlay') (addr : Address) :
    Covers maxU64 (overlayBalance st overlay addr) (blockEntries K g addr b) ∧
      overlayBalance st overlay' addr
        = run maxU64 (overlayBalance st overlay addr) (blockEntries K g addr b) := by
  obtain ⟨next, htxs, rfl⟩ := applyBlock_ok h
  obtain ⟨hcovers, hnext⟩ := balance_applyTxs htxs addr
  rw [blockEntries, covers_append, run_append, ← hnext, overlayBalance_insert]
  split
  · next hminer =>
    subst hminer
    exact ⟨⟨hcovers, trivial⟩, toNat_satAdd_eq_act _ _⟩
  · exact ⟨⟨hcovers, trivial⟩, rfl⟩

/-- The apply loop runs the entries of its blocks on every account. -/
theorem balance_applyBlocks {bs : BlockChain} (h : applyBlocks K g st overlay bs = .ok overlay')
    (addr : Address) : Covers maxU64 (overlayBalance st overlay addr) (chainEntries K g addr bs) ∧
      overlayBalance st overlay' addr
        = run maxU64 (overlayBalance st overlay addr) (chainEntries K g addr bs) := by
  induction bs generalizing overlay with
  | nil =>
    obtain rfl := Except.ok.inj h
    exact ⟨trivial, rfl⟩
  | cons p bs ih =>
    obtain ⟨next, happ, h⟩ := applyBlocks_cons_ok h
    obtain ⟨hcovers, hnext⟩ := balance_applyBlock happ addr
    obtain ⟨hcovers', hlast⟩ := ih h
    rw [chainEntries, List.flatMap_cons, covers_append, run_append, ← hnext]
    exact ⟨⟨hcovers, hcovers'⟩, hlast⟩

theorem balance_undoTxs (txs : List Transaction) (overlay : Overlay) (addr : Address) :
    overlayBalance st (txs.reverse.foldl (undoTx K st) overlay) addr
      = rewind maxU64 (overlayBalance st overlay addr) (txs.flatMap (txEntries K addr)) := by
  induction txs with
  | nil => rfl
  | cons tx txs ih =>
    rw [List.reverse_cons, List.foldl_append, List.foldl_cons, List.foldl_nil, balance_undoTx, ih,
      List.flatMap_cons, rewind_append]

theorem balance_undoBlock (overlay : Overlay) (b : Block) (addr : Address) :
    overlayBalance st (undoBlock K g st overlay b) addr
      = rewind maxU64 (overlayBalance st overlay addr) (blockEntries K g addr b) := by
  rw [undoBlock, balance_undoTxs, blockEntries, rewind_append, overlayBalance_insert]
  split
  · next hminer =>
    subst hminer
    exact congrArg (rewind maxU64 · _) (toNat_satSub _ _)
  · rfl

/-- The undo loop over the blocks in reverse takes these entries back. -/
theorem balance_undoBlocks (bs : BlockChain) (overlay : Overlay) (addr : Address) :
    overlayBalance st (undoBlocks K g st overlay bs.reverse) addr
      = rewind maxU64 (overlayBalance st overlay addr) (chainEntries K g addr bs) := by
  induction bs with
  | nil => rfl
  | cons p bs ih =>
    have hlast : undoBlocks K g st overlay (p :: bs).reverse
        = undoBlock K g st (undoBlocks K g st overlay bs.reverse) p.2 := by
      rw [List.reverse_cons, undoBlocks, List.foldl_append]
      rfl
    rw [hlast, balance_undoBlock, ih, chainEntries, chainEntries, List.flatMap_cons, rewind_append]

/-! ## Nonces -/

theorem nonce_applyTx {hash : Hash256} {height : UInt64} {tx : Transaction}
    (h : applyTx K st hash height overlay tx = .ok overlay') :
    overlayNonce st overlay' addr
      = (overlayNonce st overlay addr + (sentBy K addr [tx]).length) % 2 ^ 64 := by
  have hlt := (getAcc st overlay addr).nonce.toNat_lt
  rw [overlayNonce, getAcc_applyTx h, accountsAfter, length_sentBy_singleton]
  simp only
  split
  · rw [UInt64.toNat_add]
    rfl
  · rw [Nat.add_zero, overlayNonce, Nat.mod_eq_of_lt hlt]

theorem nonce_applyTxs {hash : Hash256} {height : UInt64} {txs : List Transaction}
    (h : applyTxs K st hash height overlay txs = .ok overlay') :
    overlayNonce st overlay' addr
      = (overlayNonce st overlay addr + (sentBy K addr txs).length) % 2 ^ 64 := by
  induction txs generalizing overlay with
  | nil =>
    obtain rfl := Except.ok.inj h
    exact (Nat.mod_eq_of_lt (getAcc st overlay addr).nonce.toNat_lt).symm
  | cons tx txs ih =>
    obtain ⟨next, htx, h⟩ := applyTxs_cons_ok h
    rw [ih h, nonce_applyTx htx, Nat.mod_add_mod, length_sentBy_cons addr tx txs, Nat.add_assoc]

/-- The apply loop counts the nonces up and wraps them. -/
theorem nonce_applyBlocks {bs : BlockChain} (h : applyBlocks K g st overlay bs = .ok overlay')
    (addr : Address) : overlayNonce st overlay' addr
      = (overlayNonce st overlay addr + (sentBy K addr (blockTxs bs)).length) % 2 ^ 64 := by
  induction bs generalizing overlay with
  | nil =>
    obtain rfl := Except.ok.inj h
    exact (Nat.mod_eq_of_lt (getAcc st overlay addr).nonce.toNat_lt).symm
  | cons p bs ih =>
    have hsplit : blockTxs (p :: bs) = p.2.transactions.val ++ blockTxs bs := rfl
    obtain ⟨after, happ, h⟩ := applyBlocks_cons_ok h
    obtain ⟨next, htxs, rfl⟩ := applyBlock_ok happ
    rw [ih h, overlayNonce_credit, nonce_applyTxs htxs, Nat.mod_add_mod, hsplit, sentBy_append,
      List.length_append, Nat.add_assoc]

/-! ## The inverse law -/

theorem Account.eq_iff {a b : Account} :
    a = b ↔ a.balance.toNat = b.balance.toNat ∧ a.nonce.toNat = b.nonce.toNat := by
  constructor
  · rintro rfl
    exact ⟨rfl, rfl⟩
  · rintro ⟨hbalance, hnonce⟩
    refine Account.holding_injective ?_
    rw [Account.holding, Account.holding, hbalance, hnonce]

/-- **Undo is the inverse of apply exactly if every account is restored.** -/
theorem undo_apply_iff {bs : BlockChain} (h : applyBlocks K g st overlay bs = .ok overlay') :
    (∀ addr, getAcc st (undoBlocks K g st overlay' bs.reverse) addr = getAcc st overlay addr) ↔
      ∀ addr, Restored K g st overlay bs addr := by
  refine forall_congr' fun addr => ?_
  obtain ⟨hcovers, hbalance⟩ := balance_applyBlocks h addr
  have hnonce := nonce_applyBlocks h addr
  have hback : overlayBalance st (undoBlocks K g st overlay' bs.reverse) addr
        = overlayBalance st overlay addr ↔
      Recoverable maxU64 (overlayBalance st overlay addr) (chainEntries K g addr bs) := by
    rw [balance_undoBlocks, hbalance]
    exact rewind_run_eq_iff (overlayBalance_le st overlay addr) hcovers
  have hback' : overlayNonce st (undoBlocks K g st overlay' bs.reverse) addr
        = overlayNonce st overlay addr ↔ overlayNonce st overlay addr = 0 ∨
      overlayNonce st overlay addr + (sentBy K addr (blockTxs bs)).length < 2 ^ 64 := by
    rw [undoBlocks_nonces, hnonce, List.reverse_reverse]
    exact wrapped_sub_eq_iff (getAcc st overlay addr).nonce.toNat_lt
  rw [Account.eq_iff]
  constructor
  · rintro ⟨hb, hn⟩
    exact ⟨hback.mp hb, hback'.mp hn⟩
  · intro hrestored
    exact ⟨hback.mpr hrestored.balance, hback'.mpr hrestored.nonce⟩

/-! ## Full accounts -/

/-- A store in which every account holds `balance`. -/
def evenStore (balance : UInt64) : ChainState :=
  { ChainState.empty with accounts := fun _ => some ⟨balance, 0⟩ }

/-- One block with one transfer of 1 coin. -/
def transferBlocks : BlockChain := [(nonceId 0, sampleBlock [sampleTx 0] (by decide))]

theorem applyBlocks_transfer {balance : UInt64} (h : 1 ≤ balance) : ∃ overlay,
    applyBlocks smallCrates smallGenesis (evenStore balance) ∅ transferBlocks = .ok overlay := by
  have hacc : getAcc (evenStore balance) ∅ ((sampleTx 0).sender smallCrates) = ⟨balance, 0⟩ := rfl
  have htxs : (sampleBlock [sampleTx 0] (by decide)).transactions.val = [sampleTx 0] := rfl
  have hrich : ¬ balance < satAdd (sampleTx 0).amount (sampleTx 0).fee := UInt64.not_lt.mpr h
  have hnonce : ¬ (sampleTx 0).accountNonce ≠ 0 := by decide
  rw [transferBlocks, applyBlocks, applyBlock, htxs, applyTxs, applyTx, hacc]
  simp only [if_neg hnonce, if_neg hrich]
  exact ⟨_, rfl⟩

theorem undo_apply_iff_transfer : ∃ overlay,
    applyBlocks smallCrates smallGenesis (evenStore 5) ∅ transferBlocks = .ok overlay ∧
    ((∀ addr, getAcc (evenStore 5) (undoBlocks smallCrates smallGenesis (evenStore 5) overlay
        transferBlocks.reverse) addr = getAcc (evenStore 5) ∅ addr) ↔
      ∀ addr, Restored smallCrates smallGenesis (evenStore 5) ∅ transferBlocks addr) := by
  obtain ⟨overlay, h⟩ := applyBlocks_transfer (show (1 : UInt64) ≤ 5 by decide)
  exact ⟨overlay, h, undo_apply_iff h⟩

/-- A recipient that holds `u64::MAX` loses the coin that saturation did not give it. -/
theorem not_undone_full : ∃ overlay, applyBlocks smallCrates smallGenesis
      (evenStore 18446744073709551615) ∅ transferBlocks = .ok overlay ∧
    getAcc (evenStore 18446744073709551615) (undoBlocks smallCrates smallGenesis
        (evenStore 18446744073709551615) overlay transferBlocks.reverse) premineAddress
      ≠ getAcc (evenStore 18446744073709551615) ∅ premineAddress := by
  obtain ⟨overlay, h⟩ := applyBlocks_transfer (show (1 : UInt64) ≤ 18446744073709551615 by decide)
  refine ⟨overlay, h, fun heq => ?_⟩
  have hentries : chainEntries smallCrates smallGenesis premineAddress transferBlocks
      = [.credit 1] := by
    decide
  have hstart : overlayBalance (evenStore 18446744073709551615) ∅ premineAddress = maxU64 := rfl
  have hback := congrArg (·.balance.toNat) heq
  have hundone : overlayBalance (evenStore 18446744073709551615) (undoBlocks smallCrates
        smallGenesis (evenStore 18446744073709551615) overlay transferBlocks.reverse)
        premineAddress
      = rewind maxU64 (overlayBalance (evenStore 18446744073709551615) overlay premineAddress)
          (chainEntries smallCrates smallGenesis premineAddress transferBlocks) :=
    balance_undoBlocks transferBlocks overlay premineAddress
  rw [(balance_applyBlocks h premineAddress).2, hentries, hstart] at hundone
  have hless : maxU64 - 1 = maxU64 := hundone.symm.trans hback
  exact absurd hless (by decide)

end Ondris
