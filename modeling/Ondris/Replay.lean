import Mathlib.Data.FinEnum
import Mathlib.Data.Fintype.Vector
import Ondris.Lib.Ledger
import Ondris.Branch

/-!
# Accounts as an exact ledger

The loops of `reconsider_tip` work on an overlay of `u64` accounts with
saturating arithmetic. Below the supply bound of a genesis configuration they
compute the exact ledger of `Ledger`: no amount saturates or wraps, and undoing
is the inverse of applying.

Results:
1. `applyBlocks_ledger`: the apply loop accepts a list of blocks exactly when
   the ledger replays their pages, with the same accounts.
2. `undoBlocks_ledger`: the undo loop goes back to the ledger before the pages.
3. `rewards_le`: the rewards of a branch add up to at most
   `2 * initial_reward * halving_interval`.
4. `reorg_ledger`: the simulation of a reorganisation accepts a branch exactly
   when its replay from genesis succeeds.
-/

namespace Ondris

open Ledger

instance : Fintype Address :=
  Fintype.ofEquiv (List.Vector UInt8 20) ⟨Address.mk, Address.bytes, fun _ => rfl, fun _ => rfl⟩

/-! ## Definitions -/

/-- The exact holding an account stands for. -/
def Account.holding (a : Account) : Holding := ⟨a.balance.toNat, a.nonce.toNat⟩

/-- The ledger of the accounts in the store. -/
def ChainState.ledger (st : ChainState) : Ledger Address := fun addr => (st.getAccount addr).holding

/-- The ledger of an overlay over the accounts in the store. -/
def overlayLedger (st : ChainState) (overlay : Overlay) : Ledger Address :=
  fun addr => (getAcc st overlay addr).holding

def Transaction.payment (K : Crates) (tx : Transaction) : Payment Address where
  sender := tx.sender K
  recipient := tx.toAddr
  amount := tx.amount.toNat
  fee := tx.fee.toNat
  seq := tx.accountNonce.toNat

def Block.page (K : Crates) (g : GenesisConfig) (b : Block) : Page Address where
  payments := b.transactions.val.map (·.payment K)
  beneficiary := b.header.miner
  reward := (g.blockReward b.header.height).toNat

/-- The ledger that holds the premine credits. -/
def GenesisConfig.openingLedger (g : GenesisConfig) : Ledger Address :=
  (g.premineParsed.toOption.getD []).foldl (fun L p => credit L p.1 p.2.toNat) fun _ => ⟨0, 0⟩

/-- The pages of a branch above genesis, in height order. -/
def branchPages (K : Crates) (g : GenesisConfig) (l : BlockChain) : List (Page Address) :=
  (l.dropLast.map fun p => p.2.page K g).reverse

/-- The replay of a branch: the premine, then every page. -/
def branchLedger (K : Crates) (g : GenesisConfig) (l : BlockChain) : Option (Ledger Address) :=
  replay g.openingLedger (branchPages K g l)

/-- In the replay of a branch no account goes above `u64::MAX`, and none that holds
`u64::MAX` pays more than that. -/
structure HasRoom (K : Crates) (g : GenesisConfig) (l : BlockChain) : Prop where
  premine : Bounded (2 ^ 64 - 1) g.openingLedger
  pages : ReplayFits (2 ^ 64 - 1) g.openingLedger (branchPages K g l)

/-- The supply bound: everything that can ever be credited fits below
`u64::MAX`. -/
def SupplyBound (g : GenesisConfig) : Prop :=
  (g.premine.map (·.amount.toNat)).sum + 2 * g.initialReward.toNat * g.halvingInterval1.toNat
    < 2 ^ 64 - 1

variable {K : Crates} {g : GenesisConfig} {st : ChainState}

@[simp] theorem Block.reward_page (b : Block) :
    (b.page K g).reward = (g.blockReward b.header.height).toNat := rfl

@[simp] theorem Block.length_payments_page (b : Block) :
    (b.page K g).payments.length = b.transactions.val.length :=
  List.length_map _

/-! ## Overlays -/

theorem Account.holding_injective {a b : Account} (h : a.holding = b.holding) : a = b := by
  obtain ⟨ab, an⟩ := a
  obtain ⟨bb, bn⟩ := b
  simp only [holding, Holding.mk.injEq, UInt64.toNat_inj] at h
  rw [h.1, h.2]

theorem ChainState.getAccount_eq_of_ledger {st st' : ChainState} (h : st.ledger = st'.ledger)
    (addr : Address) : st.getAccount addr = st'.getAccount addr :=
  Account.holding_injective (congrFun h addr)

@[simp] theorem overlayLedger_empty : overlayLedger st ∅ = st.ledger := by
  funext addr
  simp [overlayLedger, getAcc, ChainState.ledger]

@[simp] theorem overlayLedger_insert (overlay : Overlay) (addr : Address) (a : Account) :
    overlayLedger st (overlay.insert addr a)
      = Function.update (overlayLedger st overlay) addr a.holding := by
  funext b
  by_cases hb : b = addr
  · subst hb
    simp [overlayLedger, getAcc]
  · simp [overlayLedger, getAcc, AList.lookup_insert_ne hb, hb]

theorem overlayLedger_balance (overlay : Overlay) (addr : Address) :
    (overlayLedger st overlay addr).balance = (getAcc st overlay addr).balance.toNat := rfl

theorem overlayLedger_seq (overlay : Overlay) (addr : Address) :
    (overlayLedger st overlay addr).seq = (getAcc st overlay addr).nonce.toNat := rfl

/-- Crediting an overlay account without saturation credits the ledger. -/
theorem overlayLedger_credit {overlay : Overlay} {addr : Address} {r : UInt64}
    (h : (overlayLedger st overlay addr).balance + r.toNat < 2 ^ 64) :
    overlayLedger st (overlay.insert addr
      { getAcc st overlay addr with balance := satAdd (getAcc st overlay addr).balance r })
      = credit (overlayLedger st overlay) addr r.toNat := by
  rw [overlayLedger_insert, credit, overlayLedger_balance, overlayLedger_seq, Account.holding]
  simp only
  rw [toNat_satAdd_of_lt h]

theorem overlayLedger_withdraw (overlay : Overlay) (addr : Address) (r : UInt64) :
    overlayLedger st (overlay.insert addr
      { getAcc st overlay addr with balance := satSub (getAcc st overlay addr).balance r })
      = withdraw (overlayLedger st overlay) addr r.toNat := by
  rw [overlayLedger_insert, withdraw, overlayLedger_balance, overlayLedger_seq, Account.holding]
  simp only
  rw [toNat_satSub]

/-! ## The apply loop -/

/-- The accounts are `u64`s. -/
theorem bounded_overlayLedger (overlay : Overlay) :
    Bounded (2 ^ 64 - 1) (overlayLedger st overlay) := by
  intro addr
  have hlt := (getAcc st overlay addr).balance.toNat_lt
  rw [overlayLedger_balance]
  omega

/-- A transaction goes through exactly when its payment does, and then moves the
same amounts: no check and no update saturates. -/
theorem applyTx_ledger (hash : Hash256) (height : UInt64) (tx : Transaction) {overlay : Overlay}
    (hfits : PayFits (2 ^ 64 - 1) (overlayLedger st overlay) (tx.payment K))
    (hseq : (overlayLedger st overlay (tx.sender K)).seq + 1 < 2 ^ 64) :
    (applyTx K st hash height overlay tx).toOption.map (overlayLedger st)
      = pay (overlayLedger st overlay) (tx.payment K) := by
  have hbal : (overlayLedger st overlay (tx.sender K)).balance ≤ 2 ^ 64 - 1 :=
    bounded_overlayLedger overlay (tx.sender K)
  rw [overlayLedger_balance] at hbal
  unfold applyTx
  by_cases hnonce : tx.accountNonce = (getAcc st overlay (tx.sender K)).nonce
  · have hcover : (getAcc st overlay (tx.sender K)).balance < satAdd tx.amount tx.fee ↔
        ¬ tx.amount.toNat + tx.fee.toNat ≤ (getAcc st overlay (tx.sender K)).balance.toNat := by
      have hcapped := hfits.covered (congrArg UInt64.toNat hnonce)
      rw [overlayLedger_balance] at hcapped
      simp only [Transaction.payment] at hcapped
      rw [UInt64.lt_iff_toNat_lt, toNat_satAdd]
      omega
    by_cases hpaid : tx.amount.toNat + tx.fee.toNat ≤ (getAcc st overlay (tx.sender K)).balance.toNat
    · have hpayable : Payable (overlayLedger st overlay) (tx.payment K) :=
        ⟨congrArg UInt64.toNat hnonce, hpaid⟩
      have hsum : (tx.amount + tx.fee).toNat = tx.amount.toNat + tx.fee.toNat :=
        toNat_add_of_lt (by omega)
      have hcharge : overlayLedger st (overlay.insert (tx.sender K)
          { balance := (getAcc st overlay (tx.sender K)).balance - (tx.amount + tx.fee)
            nonce := (getAcc st overlay (tx.sender K)).nonce + 1 })
          = charge (overlayLedger st overlay) (tx.payment K) := by
        rw [overlayLedger_insert, charge, Account.holding]
        simp only [Transaction.payment, overlayLedger_balance, overlayLedger_seq]
        rw [toNat_sub_of_le (by omega), hsum, toNat_add_one_of_lt hseq]
      -- the recipient stays within its account, so the credit does not saturate
      have hpay : pay (overlayLedger st overlay) (tx.payment K)
          = some (credit (charge (overlayLedger st overlay) (tx.payment K)) tx.toAddr
              tx.amount.toNat) := if_pos hpayable
      have hto := hfits.bounded _ hpay tx.toAddr
      rw [credit, Function.update_self] at hto
      rw [hpay, if_neg (not_not.mpr hnonce), if_neg (by rw [hcover]; omega)]
      simp only [Except.toOption, Option.map_some]
      rw [overlayLedger_credit, hcharge]
      rw [hcharge]
      simp only at hto
      omega
    · have hnot : ¬ Payable (overlayLedger st overlay) (tx.payment K) := fun h => hpaid h.2
      rw [pay, if_neg hnot, if_neg (not_not.mpr hnonce), if_pos (hcover.mpr hpaid)]
      rfl
  · have hnot : ¬ Payable (overlayLedger st overlay) (tx.payment K) :=
      fun h => hnonce (UInt64.toNat_inj.mp h.1)
    rw [pay, if_neg hnot, if_pos hnonce]
    rfl

theorem applyTxs_ledger (hash : Hash256) (height : UInt64) (txs : List Transaction)
    {overlay : Overlay}
    (hfits : Along pay (PayFits (2 ^ 64 - 1)) (txs.map (·.payment K)) (overlayLedger st overlay))
    (hseq : ∀ addr, (overlayLedger st overlay addr).seq + txs.length < 2 ^ 64) :
    (applyTxs K st hash height overlay txs).toOption.map (overlayLedger st)
      = (txs.map (·.payment K)).foldlM pay (overlayLedger st overlay) := by
  induction txs generalizing overlay with
  | nil => rfl
  | cons tx txs ih =>
    obtain ⟨htx, hrest⟩ := hfits
    have hlen : ∀ addr, (overlayLedger st overlay addr).seq + (txs.length + 1) < 2 ^ 64 := hseq
    have hseq₁ := hlen (tx.sender K)
    have hhead := applyTx_ledger hash height tx htx (by omega)
    rw [List.map_cons, List.foldlM_cons, ← hhead]
    unfold applyTxs
    cases htx : applyTx K st hash height overlay tx with
    | error e => rfl
    | ok overlay' =>
      rw [htx] at hhead
      simp only [Except.toOption, Option.map_some, Option.bind_eq_bind, Option.bind_some] at hhead ⊢
      refine ih (hrest _ hhead.symm) fun addr => ?_
      have hstep := seq_pay hhead.symm addr
      have hroom := hlen addr
      omega

theorem applyBlock_ledger (hash : Hash256) (b : Block) {overlay : Overlay}
    (hfits : PostFits (2 ^ 64 - 1) (overlayLedger st overlay) (b.page K g))
    (hseq : ∀ addr, (overlayLedger st overlay addr).seq + (b.page K g).payments.length < 2 ^ 64) :
    (applyBlock K g st overlay hash b).toOption.map (overlayLedger st)
      = post (overlayLedger st overlay) (b.page K g) := by
  have htxs := applyTxs_ledger (K := K) hash b.header.height b.transactions.val hfits.payments
    (fun addr => by simpa [Block.page] using hseq addr)
  have hpost := hfits.bounded
  rw [post, Block.page, ← htxs] at hpost ⊢
  unfold applyBlock
  cases happ : applyTxs K st hash b.header.height overlay b.transactions.val with
  | error e => rfl
  | ok overlay' =>
    rw [happ] at hpost
    have hminer := hpost _ rfl b.header.miner
    simp only [credit, Function.update_self] at hminer
    simp only [Except.toOption, Option.map_some]
    rw [overlayLedger_credit (by omega)]

/-- The apply loop computes the replay of the pages of its blocks. -/
theorem applyBlocks_ledger (bs : BlockChain) {overlay : Overlay}
    (hfits : ReplayFits (2 ^ 64 - 1) (overlayLedger st overlay) (bs.map fun p => p.2.page K g))
    (hseq : ∀ addr, (overlayLedger st overlay addr).seq
      + (bs.map fun p => (p.2.page K g).payments.length).sum < 2 ^ 64) :
    (applyBlocks K g st overlay bs).toOption.map (overlayLedger st)
      = replay (overlayLedger st overlay) (bs.map fun p => p.2.page K g) := by
  induction bs generalizing overlay with
  | nil => rfl
  | cons p bs ih =>
    obtain ⟨hblock, hrest⟩ := hfits
    simp only [List.map_cons, List.sum_cons] at hseq
    have hhead := applyBlock_ledger p.1 p.2 hblock fun addr => by
      have hroom := hseq addr
      omega
    rw [List.map_cons, replay_cons, ← hhead]
    unfold applyBlocks
    cases happ : applyBlock K g st overlay p.1 p.2 with
    | error e => rfl
    | ok overlay' =>
      rw [happ] at hhead
      simp only [Except.toOption, Option.map_some, Option.bind_some] at hhead ⊢
      refine ih (hrest _ hhead.symm) fun addr => ?_
      have hstep := seq_post hhead.symm addr
      have hroom := hseq addr
      omega

/-! ## The undo loop -/

/-- Undoing a transaction that went through restores the ledger before it. -/
theorem undoTx_ledger {L : Ledger Address} {overlay : Overlay} {tx : Transaction}
    (hpay : pay L (tx.payment K) = some (overlayLedger st overlay))
    (hL : Bounded (2 ^ 64 - 1) L) : overlayLedger st (undoTx K st overlay tx) = L := by
  have hback := unpay_pay hpay
  have hcovered : tx.amount.toNat + tx.fee.toNat ≤ (L (tx.sender K)).balance :=
    (pay_eq_some hpay).1.2
  have hbal := hL (tx.sender K)
  rw [unpay, Transaction.payment, ← overlayLedger_withdraw] at hback
  have hsender := congrArg Holding.balance (congrFun hback (tx.sender K))
  simp only [refund, Function.update_self] at hsender
  have hsum : (tx.amount + tx.fee).toNat = tx.amount.toNat + tx.fee.toNat :=
    toNat_add_of_lt (by omega)
  rw [undoTx, overlayLedger_insert, Account.holding]
  simp only
  rw [toNat_satAdd_of_lt, toNat_satSub, hsum]
  · exact hback
  · rw [← overlayLedger_balance, hsum, hsender]
    omega

theorem undoTxs_ledger {L : Ledger Address} (txs : List Transaction) {overlay : Overlay}
    (hpay : (txs.map (·.payment K)).foldlM pay L = some (overlayLedger st overlay))
    (hL : Bounded (2 ^ 64 - 1) L)
    (hfits : Along pay (PayFits (2 ^ 64 - 1)) (txs.map (·.payment K)) L) :
    overlayLedger st (txs.reverse.foldl (undoTx K st) overlay) = L := by
  induction txs generalizing L with
  | nil =>
    simp only [List.map_nil, List.foldlM_nil, Option.pure_def, Option.some.injEq] at hpay
    exact hpay.symm
  | cons tx txs ih =>
    rw [List.map_cons, List.foldlM_cons] at hpay
    obtain ⟨M, hM, hrest⟩ := Option.bind_eq_some_iff.mp hpay
    rw [List.reverse_cons, List.foldl_append, List.foldl_cons, List.foldl_nil]
    refine undoTx_ledger ?_ hL
    rw [ih hrest (hfits.1.bounded M hM) (hfits.2 M hM), hM]

theorem undoBlock_ledger {L : Ledger Address} {overlay : Overlay} {b : Block}
    (hpost : post L (b.page K g) = some (overlayLedger st overlay))
    (hL : Bounded (2 ^ 64 - 1) L) (hfits : PostFits (2 ^ 64 - 1) L (b.page K g)) :
    overlayLedger st (undoBlock K g st overlay b) = L := by
  obtain ⟨M, hM, heq⟩ := post_eq_some hpost
  rw [undoBlock]
  refine undoTxs_ledger _ ?_ hL hfits.payments
  rw [overlayLedger_withdraw, heq, Block.page, withdraw_credit]
  exact hM

/-- The undo loop, tip first, goes back to the ledger before the pages. -/
theorem undoBlocks_ledger {L : Ledger Address} (bs : BlockChain) {overlay : Overlay}
    (hreplay : replay L (bs.map fun p => p.2.page K g).reverse = some (overlayLedger st overlay))
    (hL : Bounded (2 ^ 64 - 1) L)
    (hfits : ReplayFits (2 ^ 64 - 1) L (bs.map fun p => p.2.page K g).reverse) :
    overlayLedger st (undoBlocks K g st overlay bs) = L := by
  induction bs generalizing overlay with
  | nil =>
    simp only [List.map_nil, List.reverse_nil, replay, List.foldlM_nil, Option.pure_def,
      Option.some.injEq] at hreplay
    exact hreplay.symm
  | cons p bs ih =>
    simp only [List.map_cons, List.reverse_cons] at hreplay hfits
    obtain ⟨hrest, htip⟩ := along_append.mp hfits
    rw [replay_append] at hreplay
    obtain ⟨M, hM, hlast⟩ := Option.bind_eq_some_iff.mp hreplay
    rw [replay_cons] at hlast
    obtain ⟨M', hpost, hnil⟩ := Option.bind_eq_some_iff.mp hlast
    simp only [replay, List.foldlM_nil, Option.pure_def, Option.some.injEq] at hnil
    subst hnil
    have hblock := undoBlock_ledger hpost (hL.replay hrest hM) (htip M hM).1
    rw [undoBlocks, List.foldl_cons]
    refine ih ?_ hrest
    rw [hblock, hM]

/-! ## Rewards -/

theorem toNat_blockReward (height : UInt64) :
    (g.blockReward height).toNat
      = g.initialReward.toNat / 2 ^ (height.toNat / g.halvingInterval1.toNat) := by
  unfold GenesisConfig.blockReward
  simp only [UInt64.le_iff_toNat_le, UInt64.toNat_div]
  split
  · next h =>
    have hbig : 2 ^ 64 ≤ 2 ^ (height.toNat / g.halvingInterval1.toNat) :=
      Nat.pow_le_pow_right (by decide) h
    rw [Nat.div_eq_of_lt (lt_of_lt_of_le g.initialReward.toNat_lt hbig)]
    rfl
  · next h =>
    have hlt : height.toNat / g.halvingInterval1.toNat < 64 := by
      have h64 : (64 : UInt64).toNat = 64 := rfl
      omega
    rw [UInt64.toNat_shiftRight, UInt64.toNat_div, Nat.shiftRight_eq_div_pow,
      Nat.mod_eq_of_lt hlt]

/-- What is still to be paid from height `n` on bounds the rewards: it drops by
at least the reward of every height. -/
theorem rewards_le (R hi : ℕ) (hpos : 1 ≤ hi) (n : ℕ) :
    ∑ i ∈ Finset.range n, R / 2 ^ (i / hi) + (2 * hi - n % hi) * (R / 2 ^ (n / hi))
      ≤ 2 * R * hi := by
  induction n with
  | zero =>
    have hcomm : 2 * hi * R = 2 * R * hi := by ring
    simp [hcomm]
  | succ n ih =>
    have hmod : n % hi < hi := Nat.mod_lt _ hpos
    have hdiv := Nat.mod_add_div n hi
    rw [Finset.sum_range_succ]
    by_cases hwrap : n % hi + 1 = hi
    · -- the last height of an interval: the reward halves
      obtain ⟨hq, hr⟩ : (n + 1) / hi = n / hi + 1 ∧ (n + 1) % hi = 0 :=
        (Nat.div_mod_unique hpos).mpr ⟨by rw [Nat.mul_add]; omega, hpos⟩
      have hhalf : hi * (2 * (R / 2 ^ (n / hi + 1))) ≤ hi * (R / 2 ^ (n / hi)) := by
        refine Nat.mul_le_mul_left hi ?_
        rw [Nat.pow_succ, ← Nat.div_div_eq_div_mul]
        omega
      have hleft : 2 * hi - n % hi = hi + 1 := by omega
      have hassoc : 2 * hi * (R / 2 ^ (n / hi + 1)) = hi * (2 * (R / 2 ^ (n / hi + 1))) := by ring
      rw [hleft, Nat.add_mul, Nat.one_mul] at ih
      rw [hq, hr, Nat.sub_zero, hassoc]
      omega
    · obtain ⟨hq, hr⟩ : (n + 1) / hi = n / hi ∧ (n + 1) % hi = n % hi + 1 :=
        (Nat.div_mod_unique hpos).mpr ⟨by omega, by omega⟩
      have hleft : 2 * hi - n % hi = 2 * hi - (n % hi + 1) + 1 := by omega
      rw [hleft, Nat.add_mul, Nat.one_mul] at ih
      rw [hq, hr]
      omega

/-- The rewards of a branch are bounded by the halving schedule. -/
theorem branch_rewards_le (hs : WellStored K g st) {h : Hash256} {l : BlockChain}
    (hl : Branch K g st h l) :
    (l.dropLast.map fun p => (p.2.page K g).reward).sum
      ≤ 2 * g.initialReward.toNat * g.halvingInterval1.toNat := by
  have hsum : (l.dropLast.map fun p => (p.2.page K g).reward).sum
      ≤ ∑ i ∈ Finset.range l.length,
        g.initialReward.toNat / 2 ^ (i / g.halvingInterval1.toNat) := by
    induction hl with
    | root _ => simp
    | @step h b l hne hb hl ih =>
      have hheight := hs.height_eq (.step hne hb hl)
      rw [List.dropLast_cons_of_ne_nil hl.ne_nil, List.map_cons, List.sum_cons, List.length_cons,
        Finset.sum_range_succ, Block.reward_page, toNat_blockReward, hheight]
      omega
  have hle := rewards_le g.initialReward.toNat g.halvingInterval1.toNat
    g.one_le_halvingInterval1 l.length
  omega

/-- Below the supply bound everything ever credited on a branch fits below `u64::MAX`. -/
theorem credited_lt (hbound : SupplyBound g) (hs : WellStored K g st) {h : Hash256}
    {l : BlockChain} (hl : Branch K g st h l) :
    (g.premine.map (·.amount.toNat)).sum + (l.dropLast.map fun p => (p.2.page K g).reward).sum
      < 2 ^ 64 - 1 := by
  have hrew := branch_rewards_le hs hl
  unfold SupplyBound at hbound
  omega

theorem branch_payments_lt (hs : WellStored K g st) {h : Hash256} {l : BlockChain}
    (hl : Branch K g st h l) :
    (l.dropLast.map fun p => (p.2.page K g).payments.length).sum < 2 ^ 64 := by
  have hsum : ∀ m : BlockChain, (m.map fun p => (p.2.page K g).payments.length).sum
      ≤ m.length * (2 ^ 53 - 1) := by
    intro m
    induction m with
    | nil => simp
    | cons p m ih =>
      have hlt := p.2.transactions.property
      rw [List.map_cons, List.sum_cons, List.length_cons, Block.length_payments_page]
      omega
  have hlen := hs.length_le hl
  have hepoch : epochLength.toNat = 2048 := rfl
  have hdrop := hsum l.dropLast
  rw [List.length_dropLast] at hdrop
  omega

/-! ## The premine -/

theorem supply_foldl_credit (ps : List (Address × UInt64)) (L : Ledger Address) :
    supply (ps.foldl (fun L p => credit L p.1 p.2.toNat) L)
      = supply L + (ps.map (·.2.toNat)).sum := by
  induction ps generalizing L with
  | nil => simp
  | cons p ps ih =>
    rw [List.foldl_cons, ih, supply_credit, List.map_cons, List.sum_cons, Nat.add_assoc]

theorem seq_foldl_credit (ps : List (Address × UInt64)) (L : Ledger Address) (addr : Address) :
    (ps.foldl (fun L p => credit L p.1 p.2.toNat) L addr).seq = (L addr).seq := by
  induction ps generalizing L with
  | nil => rfl
  | cons p ps ih => rw [List.foldl_cons, ih, seq_credit]

theorem premineParsed_amounts {ps : List (Address × UInt64)} (hpre : g.premineParsed = .ok ps) :
    ps.map (·.2.toNat) = g.premine.map (·.amount.toNat) := by
  unfold GenesisConfig.premineParsed at hpre
  generalize g.premine = es at hpre ⊢
  induction es generalizing ps with
  | nil =>
    obtain rfl : [] = ps := Except.ok.inj hpre
    rfl
  | cons e es ih =>
    rw [List.mapM_cons] at hpre
    cases haddr : Address.fromStr e.address with
    | error err =>
      rw [haddr] at hpre
      cases hpre
    | ok addr =>
      cases hqs : es.mapM fun e => (Address.fromStr e.address).map fun a => (a, e.amount) with
      | error err =>
        rw [haddr, hqs] at hpre
        cases hpre
      | ok qs =>
        rw [haddr, hqs] at hpre
        obtain rfl : (addr, e.amount) :: qs = ps := Except.ok.inj hpre
        rw [List.map_cons, List.map_cons, ih hqs]

theorem supply_zero : supply (fun _ : Address => (⟨0, 0⟩ : Holding)) = 0 := by
  simp [supply]

theorem supply_openingLedger_le :
    supply g.openingLedger ≤ (g.premine.map (·.amount.toNat)).sum := by
  rw [GenesisConfig.openingLedger, supply_foldl_credit]
  cases hpre : g.premineParsed with
  | error e => simp [Except.toOption, supply_zero]
  | ok ps =>
    rw [Except.toOption, Option.getD_some, premineParsed_amounts hpre, supply_zero, Nat.zero_add]

@[simp] theorem seq_openingLedger (addr : Address) : (g.openingLedger addr).seq = 0 :=
  seq_foldl_credit _ _ addr

/-! ## Reorganisations -/

theorem branchPages_append {a c : BlockChain} (hc : c ≠ []) :
    branchPages K g (a ++ c) = branchPages K g c ++ (a.map fun p => p.2.page K g).reverse := by
  rw [branchPages, List.dropLast_append_of_ne_nil hc, List.map_append, List.reverse_append]
  rfl

/-- Below the supply bound every branch has room. -/
theorem hasRoom_of_bound (hbound : SupplyBound g) (hs : WellStored K g st) {h : Hash256}
    {l : BlockChain} (hl : Branch K g st h l) : HasRoom K g l := by
  have hcredited := credited_lt hbound hs hl
  have hopen := supply_openingLedger_le (g := g)
  have hpages : ((branchPages K g l).map (·.reward)).sum
      = (l.dropLast.map fun p => (p.2.page K g).reward).sum := by
    simp only [branchPages, List.map_reverse, List.sum_reverse, List.map_map, Function.comp_def]
  exact ⟨bounded_of_supply (by omega), replayFits_of_supply (by omega)⟩

/-- The ledger of a branch leaves the pages above it the room that there is. -/
theorem HasRoom.above {b c : BlockChain} (hroom : HasRoom K g (b ++ c)) (hc : c ≠ [])
    {L : Ledger Address} (hL : branchLedger K g c = some L) : Bounded (2 ^ 64 - 1) L ∧
      ReplayFits (2 ^ 64 - 1) L (b.map fun p => p.2.page K g).reverse := by
  have hpages := hroom.pages
  rw [branchPages_append hc] at hpages
  obtain ⟨hcommon, hrest⟩ := along_append.mp hpages
  exact ⟨hroom.premine.replay hcommon hL, hrest L hL⟩

/-- The supply of the ledger of a branch, and what may still be credited above
it, stays below the bound. -/
theorem branchLedger_supply {b c : BlockChain}
    (hcredited : (g.premine.map (·.amount.toNat)).sum
      + ((b ++ c).dropLast.map fun p => (p.2.page K g).reward).sum < 2 ^ 64 - 1) (hc : c ≠ [])
    {L : Ledger Address} (hL : branchLedger K g c = some L) :
    supply L + (b.map fun p => (p.2.page K g).reward).sum < 2 ^ 64 - 1 := by
  have hgrow := supply_replay hL
  have hopen := supply_openingLedger_le (g := g)
  rw [List.dropLast_append_of_ne_nil hc, List.map_append, List.sum_append] at hcredited
  simp only [branchPages, List.map_reverse, List.sum_reverse, List.map_map, Function.comp_def]
    at hgrow
  omega

theorem branchLedger_seq (hs : WellStored K g st) {h : Hash256} {b c : BlockChain}
    (hl : Branch K g st h (b ++ c)) (hc : c ≠ []) {L : Ledger Address}
    (hL : branchLedger K g c = some L) (addr : Address) :
    (L addr).seq + (b.map fun p => (p.2.page K g).payments.length).sum < 2 ^ 64 := by
  have hpay := branch_payments_lt (K := K) (g := g) hs hl
  have hgrow := seq_replay hL addr
  rw [List.dropLast_append_of_ne_nil hc, List.map_append, List.sum_append] at hpay
  simp only [branchPages, List.map_reverse, List.sum_reverse, List.map_map, Function.comp_def,
    seq_openingLedger] at hgrow
  omega

/-- Undoing the old part of a fork goes back to the replay of the common part. -/
theorem undoBlocks_fork {lo ln a b c : BlockChain} (hold : HasRoom K g lo) (hf : Fork lo ln a b c)
    (hledger : branchLedger K g lo = some st.ledger) :
    branchLedger K g c = some (overlayLedger st (undoBlocks K g st ∅ a)) := by
  obtain ⟨rfl, -, hc, -⟩ := hf
  rw [branchLedger, branchPages_append hc, replay_append] at hledger
  obtain ⟨L, hL, hback⟩ := Option.bind_eq_some_iff.mp hledger
  obtain ⟨hbounded, hfits⟩ := hold.above hc hL
  rw [← overlayLedger_empty] at hback
  rw [undoBlocks_ledger a hback hbounded hfits]
  exact hL

/-- The simulation of a reorganisation succeeds exactly when the new branch
replays, with the accounts of this replay. -/
theorem reorg_ledger (hs : WellStored K g st) {new : Hash256} {lo ln a b c : BlockChain}
    (hold : HasRoom K g lo) (hroom : HasRoom K g ln) (hnew : Branch K g st new ln)
    (hf : Fork lo ln a b c) (hledger : branchLedger K g lo = some st.ledger) :
    (applyBlocks K g st (undoBlocks K g st ∅ a) b.reverse).toOption.map (overlayLedger st)
      = branchLedger K g ln := by
  have hL := undoBlocks_fork hold hf hledger
  obtain ⟨rfl, rfl, hc, -⟩ := hf
  obtain ⟨-, hfits⟩ := hroom.above hc hL
  have hseqNew := branchLedger_seq hs hnew hc hL
  have hpages : branchLedger K g (b ++ c) = (branchLedger K g c).bind fun M =>
      replay M (b.map fun p => p.2.page K g).reverse := by
    rw [branchLedger, branchPages_append hc, replay_append]
    rfl
  rw [hpages, hL, Option.bind_some, ← List.map_reverse]
  refine applyBlocks_ledger b.reverse ?_ ?_
  · rwa [List.map_reverse]
  · intro addr
    rw [List.map_reverse, List.sum_reverse]
    exact hseqNew addr

end Ondris
