import Ondris.Keystore
import Ondris.Mempool
import Ondris.Miner
import Ondris.NodeLedger
import Ondris.Transfers

/-!
# Payments

The `send` command of the wallet, and what becomes of the payment: the key pair comes from
the keystore, the nonce from the node's answer, and the signed transaction goes back to the
node. A payment can be lost in the mempool, where transactions stand in the order of their
hashes, so its sender must have nothing else there. Ed25519 signing is a parameter; the
JSON of requests and answers is left aside.

Results:
1. `send_created`: a file that `create` made sends the payment with its password.
2. `OnTip.confirms`: a solved template confirms what it carries.
3. `payment_confirmed`: from the wallet file to the ledger.
-/

namespace Ondris

open Ledger

/-! ## Sending -/

/-- The functions of the wallet, with `SigningKey::sign`. -/
structure SignerCrates extends WalletCrates where
  sign : List.Vector UInt8 32 → Bytes → List.Vector UInt8 64

/-- `KeyPair::sign`. -/
def KeyPair.sign (S : SignerCrates) (kp : KeyPair) (message : Bytes) : Signature :=
  ⟨S.sign kp.seed message⟩

/-- What AES-256-GCM promises, and Ed25519: the public key verifies what its key pair signs. -/
structure SignerCrates.Lawful (S : SignerCrates) : Prop where
  wallet : S.toWalletCrates.Lawful
  verify_sign : ∀ (kp : KeyPair) message,
    (kp.toPublic S.toWalletCrates).verify S.toCrates message (kp.sign S message) = true

namespace Transaction

/-- `Transaction::new_unsigned`. -/
def newUnsigned (fromKey : PublicKey) (toAddr : Address) (amount fee accountNonce : UInt64) :
    Transaction :=
  { fromKey, toAddr, amount, fee, accountNonce, signature := none }

/-- `Transaction::sign`, which aborts if the key does not match the sender. -/
def sign (S : SignerCrates) (tx : Transaction) (kp : KeyPair) : Option Transaction :=
  if kp.toPublic S.toWalletCrates = tx.fromKey then
    some { tx with signature := some (kp.sign S tx.signingBytes) }
  else none

end Transaction

/-- `AccountInfo`. -/
structure AccountInfo where
  address : Address
  balance : UInt64
  nonce : UInt64

/-- `AccountInfo::new`. -/
def AccountInfo.new (address : Address) (account : Account) : AccountInfo :=
  ⟨address, account.balance, account.nonce⟩

/-- `GET /account/:address`. -/
def Node.getAccount (node : Node) (address : Bytes) : Except NodeError AccountInfo :=
  match Address.fromStr address with
  | .error e => .error (.address e)
  | .ok addr => .ok (AccountInfo.new addr (node.chain.state.getAccount addr))

inductive SendError
  | wallet (e : WalletError)
  | address (e : DecodeError)
  /-- The status that the node answers with an error. -/
  | node (e : NodeError)
deriving DecidableEq

/-- `Command::Send`. The node is `node` at the first request and `later` at the second one. -/
def send (S : SignerCrates) (ks : Keystore) (password toText : Bytes) (amount fee : UInt64)
    (node later : Node) : Attempt SendError (Node × Hash256) := do
  let keypair ← (unlock S.toWalletCrates ks password).mapFail .wallet
  let info ← Attempt.ofExcept .node (node.getAccount ks.address)
  let toAddr ← Attempt.ofExcept .address (Address.fromStr toText)
  let tx ← Attempt.orAbort ((Transaction.newUnsigned (keypair.toPublic S.toWalletCrates) toAddr
    amount fee info.nonce).sign S keypair)
  let hash ← Attempt.ofExcept .node (later.submitTx S.toCrates tx).2
  Attempt.ok ((later.submitTx S.toCrates tx).1, hash)


/-- The transaction that the wallet signs. -/
def payment (S : SignerCrates) (kp : KeyPair) (toAddr : Address) (amount fee nonce : UInt64) :
    Transaction :=
  let tx := Transaction.newUnsigned (kp.toPublic S.toWalletCrates) toAddr amount fee nonce
  { tx with signature := some (kp.sign S tx.signingBytes) }

/-- The transaction can join the mempool: the mempool is executable, its sender has nothing in
it and owns what is spent. -/
structure Joins (K : Crates) (st : ChainState) (tx : Transaction) : Prop where
  executable : Executable K st.getAccount (st.mempool.map Prod.snd)
  alone : ∀ p ∈ st.mempool.map Prod.snd, p.sender K ≠ tx.sender K
  fresh : tx.hash K ∉ st.pending
  covered : satAdd tx.amount tx.fee ≤ (st.getAccount (tx.sender K)).balance

/-- What happens to a pending transaction when a solution of a template is submitted. -/
structure Confirms (K : Crates) (g : GenesisConfig) (node : Node) (work : WorkTemplate)
    (nonce n : UInt64) (tx : Transaction) : Prop where
  answered : (node.submitBlock K (work.block.withNonce nonce)).2 = .ok ⟨work.hash K nonce, n + 1⟩
  included : tx ∈ work.block.transactions.val
  confirmed : Confirmed K (node.submitBlock K (work.block.withNonce nonce)).1.chain.state (tx.hash K)
  removed : tx.hash K ∉
    (node.submitBlock K (work.block.withNonce nonce)).1.chain.state.pending
  posted : post node.chain.state.ledger ((work.block.withNonce nonce).page K g)
    = some (node.submitBlock K (work.block.withNonce nonce)).1.chain.state.ledger

variable {K : Crates} {g : GenesisConfig} {node : Node}

/-! ## The payment of a wallet file -/

section Send

variable {S : SignerCrates} {ks : Keystore} {kp : KeyPair} {toAddr : Address}
  {amount fee nonce : UInt64}

theorem sign_newUnsigned (kp : KeyPair) (toAddr : Address) (amount fee nonce : UInt64) :
    (Transaction.newUnsigned (kp.toPublic S.toWalletCrates) toAddr amount fee nonce).sign S kp
      = some (payment S kp toAddr amount fee nonce) := if_pos rfl

theorem payment_signed (hS : S.Lawful) (kp : KeyPair) (toAddr : Address)
    (amount fee nonce : UInt64) :
    (payment S kp toAddr amount fee nonce).isSignatureValid S.toCrates = true :=
  hS.verify_sign kp _

theorem sender_payment :
    (payment S kp toAddr amount fee nonce).sender S.toCrates = kp.address S.toWalletCrates := rfl

/-- The password opens the file that was created with it, and the node takes the payment. -/
theorem send_created (hS : S.Lawful) {seed : List.Vector UInt8 32} {salt : List.Vector UInt8 16}
    {nonceBytes : List.Vector UInt8 12} {password : Bytes}
    (hks : create S.toWalletCrates seed salt nonceBytes password = .ok (ks, kp)) {toText : Bytes}
    (hto : Address.fromStr toText = .ok toAddr) (node later : Node) {tx : Transaction}
    (htx : tx = payment S kp toAddr amount fee
      (node.chain.state.getAccount (kp.address S.toWalletCrates)).nonce) :
    send S ks password toText amount fee node later
      = .ok (later.addTransaction S.toCrates tx, tx.hash S.toCrates) := by
  have hopen : unlock S.toWalletCrates ks password = .ok kp ∧
      ks.address = (kp.address S.toWalletCrates).display := by
    rcases unlock_create hS.wallet seed salt nonceBytes password with hfail | ⟨ks', hok, -, haddr, hun⟩
    · rw [hfail] at hks
      cases hks
    · rw [hok] at hks
      obtain ⟨rfl, rfl⟩ := Prod.mk.inj (Attempt.ok_inj hks)
      exact ⟨hun, haddr⟩
  have hinfo : node.getAccount ks.address
      = .ok (AccountInfo.new (kp.address S.toWalletCrates)
          (node.chain.state.getAccount (kp.address S.toWalletCrates))) := by
    rw [Node.getAccount, hopen.2, Address.fromStr_display]
  have hsign : (Transaction.newUnsigned (kp.toPublic S.toWalletCrates) toAddr amount fee
      (node.chain.state.getAccount (kp.address S.toWalletCrates)).nonce).sign S kp = some tx := by
    rw [htx]
    exact sign_newUnsigned ..
  have hsubmit : later.submitTx S.toCrates tx
      = (later.addTransaction S.toCrates tx, .ok (tx.hash S.toCrates)) := by
    rw [Node.submitTx, htx, if_pos (payment_signed hS ..)]
  unfold send
  rw [hopen.1, hinfo, hto]
  simp only [Attempt.mapFail_ok, Attempt.ok_bind, Attempt.ofExcept_ok,
    AccountInfo.new, hsign, Attempt.orAbort, hsubmit]

end Send

/-! ## The block with the payment -/

/-- The mempool is executable with the transaction in its place. -/
theorem Joins.added {st : ChainState} {tx : Transaction} (h : Joins K st tx)
    (hnonce : tx.accountNonce = (st.getAccount (tx.sender K)).nonce) :
    tx ∈ (st.mempool.insert (tx.hash K) tx).map Prod.snd ∧
      Executable K st.getAccount ((st.mempool.insert (tx.hash K) tx).map Prod.snd) := by
  obtain ⟨before, after, hpool, hinsert⟩ := Mempool.insert_eq h.fresh tx
  have hexec := h.executable
  have halone := h.alone
  rw [hpool, List.map_append] at hexec halone
  rw [hinsert, List.map_append, List.map_cons]
  exact ⟨List.mem_append_right _ List.mem_cons_self, hexec.insert halone hnonce h.covered⟩

/-- A solution confirms every transaction of its template, and moves what they pay. -/
theorem OnTip.confirms (hbound : SupplyBound g) (hn : (nodeMachine K g).Reachable node)
    {n : UInt64} {t : Hash256} {l : BlockChain} {txs : List Transaction} {work : WorkTemplate}
    (h : OnTip K g n t l txs work) (hcan : Canonical K g node.chain.state n t l)
    (hsigned : ∀ tx ∈ txs, tx.isSignatureValid K = true) {nonce : UInt64}
    (hsolved : work.Solved K nonce) (hnew : node.chain.state.blocks (work.hash K nonce) = none)
    (hdiff : n.toNat + 1 ≤ g.window.toNat → 1 ≤ g.initialDifficulty)
    (hexec : Executable K node.chain.state.getAccount txs)
    (hidle : node.orphans.waiting (work.hash K nonce) = []) {tx : Transaction} (htx : tx ∈ txs) :
    Confirms K g node work nonce n tx := by
  have hinv := nodeInv hn
  obtain ⟨hres, hext⟩ := h.submit_eq hinv.chain hcan hsigned hsolved hnew hdiff hexec
  have hin : tx ∈ work.block.transactions.val := by
    rw [h.transactions]
    exact htx
  -- nothing waits for the block, so this call is all that happens
  obtain ⟨horphans, hwake⟩ := Node.retry_accepted hres
  have hretry : (node.submitBlock K (work.block.withNonce nonce)).1.chain.state
      = (node.retry K (work.block.withNonce nonce)).1.chain.state := by
    rw [submitBlock_fst, accept_of_idle hwake (by rw [horphans]; exact hidle)]
  have hcore : (node.submitBlock K (work.block.withNonce nonce)).1.chain.state.core
      = (node.chain.submit K (work.block.withNonce nonce)).state.core := by
    rw [hretry]
    exact core_retry node _
  have hreach : (nodeMachine K g).Reachable (node.submitBlock K (work.block.withNonce nonce)).1 :=
    hn.step (.submitBlock (work.block.withNonce nonce))
  have hcan' := hext.congr (core_blocks hcore) (core_heights hcore) (core_tip hcore)
  refine ⟨h.submitBlock_snd hinv.chain hcan hsigned hsolved hnew hdiff hexec, hin, ?_, ?_, ?_⟩
  · rw [confirmed_iff (nodeInv hreach).chain.stored hcan']
    exact List.mem_map_of_mem (List.mem_flatMap_of_mem List.mem_cons_self hin)
  · rw [hretry, state_retry_accepted hres, pending_mempoolWrites]
    rintro (⟨-, hnot⟩ | hback)
    · exact hnot (List.mem_map_of_mem hin)
    · cases hback
  · -- the new branch is the old one with one page more
    have hledger := ((replayed_reachable hbound hn).ledger n t l hcan).2
    have hledger' := ((replayed_reachable hbound hreach).ledger _ _ _ hcan').2
    have hne : l ≠ [] := List.ne_nil_of_length_pos hcan.branch.length_pos
    rw [← List.singleton_append, branchLedger, branchPages_append hne, replay_append] at hledger'
    rw [branchLedger] at hledger
    rw [hledger, Option.bind_some] at hledger'
    rw [← hledger']
    exact (Option.bind_fun_some _).symm

/-- **A payment is confirmed.** The wallet file was created with the password that is given
now, and at the second request the node is at the same tip as at the first one. If the payment
can join the mempool, the wallet sends it, and a template that is handed out right after it can
be solved: whatever the node does in the meantime, as long as its tip stays, the solution is
accepted, the payment is then in the canonical chain and not in the mempool, and the page with
it is in the ledger. -/
theorem payment_confirmed {S : SignerCrates} (hS : S.Lawful) (hbound : SupplyBound g)
    (hnode : (nodeMachine S.toCrates g).Reachable node) {seed : List.Vector UInt8 32}
    {salt : List.Vector UInt8 16} {nonceBytes : List.Vector UInt8 12} {password : Bytes}
    {ks : Keystore} {kp : KeyPair}
    (hks : create S.toWalletCrates seed salt nonceBytes password = .ok (ks, kp)) {toText : Bytes}
    {toAddr : Address} (hto : Address.fromStr toText = .ok toAddr) {amount fee : UInt64}
    {tx : Transaction} (htx : tx = payment S kp toAddr amount fee
      (node.chain.state.getAccount (kp.address S.toWalletCrates)).nonce)
    (is : List NodeInput) {later : Node} (hlater : later = (nodeMachine S.toCrates g).run node is)
    {n : UInt64} {t : Hash256} (htip : node.chain.state.tip = some (n, t))
    (htip' : later.chain.state.tip = some (n, t)) (hjoins : Joins S.toCrates later.chain.state tx) :
    ∃ sent, send S ks password toText amount fee node later = .ok (sent, tx.hash S.toCrates) ∧
      ∀ text now work, (sent.getWork S.toCrates text now).2 = .ok work →
        ∀ js m, m = (nodeMachine S.toCrates g).run sent (.getWork text now :: js) →
          m.chain.state.tip = some (n, t) → ∀ nonce, work.Solved S.toCrates nonce →
            m.chain.state.blocks (work.hash S.toCrates nonce) = none →
            (n.toNat + 1 ≤ g.window.toNat → 1 ≤ g.initialDifficulty) →
            m.orphans.waiting (work.hash S.toCrates nonce) = [] →
            Confirms S.toCrates g m work nonce n tx := by
  refine ⟨_, send_created hS hks hto node later htx, ?_⟩
  intro text now work hwork js m hm htipEnd nonce hsolved hnew hdiff hidle
  have hsigned : tx.isSignatureValid S.toCrates = true := htx ▸ payment_signed hS ..
  have hreach : (nodeMachine S.toCrates g).Reachable (later.addTransaction S.toCrates tx) := by
    have hstep := (hnode.run is).step (.submitTx tx)
    rw [← hlater] at hstep
    exact submitTx_fst hsigned later ▸ hstep
  have hend : (nodeMachine S.toCrates g).Reachable m := by
    rw [hm]
    exact hreach.run _
  -- the branch and the accounts of the tip are the same throughout
  obtain ⟨n', t', l, hcan⟩ := (nodeInv hnode).chain.canonical
  obtain ⟨rfl, rfl⟩ := Prod.mk.inj (Option.some.inj (hcan.tip.symm.trans htip))
  have hadv := advances_run (nodeInv hnode) is
  rw [← hlater] at hadv
  obtain ⟨hcanLater, haccounts⟩ := hadv.same_tip hcan htip'
  have hcanSent : Canonical S.toCrates g (later.addTransaction S.toCrates tx).chain.state n' t' l :=
    hcanLater.congr rfl rfl rfl
  have hadvEnd := advances_run (nodeInv hreach) (.getWork text now :: js)
  rw [← hm] at hadvEnd
  obtain ⟨hcanEnd, haccountsEnd⟩ := hadvEnd.same_tip hcanSent htipEnd
  have hnonce : tx.accountNonce
      = (later.chain.state.getAccount (tx.sender S.toCrates)).nonce := by
    rw [haccounts, htx, sender_payment]
    rfl
  obtain ⟨hin, hexec⟩ := hjoins.added hnonce
  have hon := getWork_onTip (nodeInv hreach) hcanSent hwork
  refine hon.confirms hbound hend hcanEnd (nodeInv hreach).pending_signed hsolved hnew hdiff ?_
    hidle hin
  rw [haccountsEnd]
  exact hexec

/-! ## A payment of a funded account -/

/-- The wallet without cryptography over the small crates. -/
def smallSigner : SignerCrates where
  toCrates := smallCrates
  verifyingKey := plainWallet.verifyingKey
  argon2 := plainWallet.argon2
  encrypt := plainWallet.encrypt
  decrypt := plainWallet.decrypt
  sign := fun _ _ => List.Vector.replicate 64 0

theorem smallSigner_lawful : smallSigner.Lawful where
  wallet := ⟨plainWallet_lawful.decrypt_iff, plainWallet_lawful.encrypt_seed⟩
  verify_sign _ _ := rfl

/-- A node on the genesis with one funded account. -/
def fundedNode : Node := Node.start (fundedOpen 9)

theorem init_fundedNode : (nodeMachine smallCrates (fundedGenesis 9)).init fundedNode :=
  ⟨fundedOpen 9, init_funded 9, rfl⟩

theorem supplyBound_funded : SupplyBound (fundedGenesis 9) := by
  unfold SupplyBound
  decide

/-- The payment of the funded account. -/
def fundedPayment : Transaction := payment smallSigner ⟨sampleSeed 0⟩ premineAddress 5 1 0

theorem sender_fundedPayment : fundedPayment.sender smallCrates = sampleSender := rfl

theorem joins_funded : Joins smallCrates fundedNode.chain.state fundedPayment where
  executable := executable_nil
  alone _ hp := absurd hp List.not_mem_nil
  fresh := List.not_mem_nil
  covered := by
    rw [sender_fundedPayment]
    rw [show fundedNode.chain.state.getAccount sampleSender = ⟨9, 0⟩ from getAccount_fundedOpen 9]
    decide

/-- The template that is handed out after it. -/
def fundedTemplate : WorkTemplate where
  block :=
    ⟨{ height := 1, prevHash := (fundedGenesis 9).genesisHash smallCrates
       txRoot := merkleRoot smallCrates [fundedPayment.hash smallCrates], timestamp := 0
       difficulty := 1, miner := premineAddress, nonce := 0 }, ⟨[fundedPayment], by decide⟩⟩
  target := targetForDifficulty 1
  epoch := 0
  epochBoundaryHash := none

theorem getWork_funded :
    ((fundedNode.addTransaction smallCrates fundedPayment).getWork smallCrates minerText 0).2
      = .ok fundedTemplate := by
  obtain ⟨-, hcan, -⟩ := openDb_canonical (init_funded 9)
  have hinit : (nodeMachine smallCrates (fundedGenesis 9)).Reachable fundedNode :=
    .init init_fundedNode
  have hreach : (nodeMachine smallCrates (fundedGenesis 9)).Reachable
      (fundedNode.addTransaction smallCrates fundedPayment) := hinit.step (.submitTx fundedPayment)
  have hcanSent : Canonical smallCrates (fundedGenesis 9)
      (fundedNode.addTransaction smallCrates fundedPayment).chain.state 0
      ((fundedGenesis 9).genesisHash smallCrates) _ := hcan.congr rfl rfl rfl
  have hpending : (fundedNode.addTransaction smallCrates fundedPayment).chain.state.mempoolAll
      = some ⟨[fundedPayment], by decide⟩ := rfl
  exact getWork_eq (nodeInv hreach) hcanSent (by decide) (Address.fromStr_display premineAddress)
    hpending 0

/-- The account of a new wallet file pays 5 of its 9 coins to the miner, with a fee of 1. -/
theorem payment_confirmed_funded : ∃ ks sent,
    create smallSigner.toWalletCrates (sampleSeed 0) (List.Vector.replicate 16 0)
      (List.Vector.replicate 12 0) (ascii "password") = .ok (ks, ⟨sampleSeed 0⟩) ∧
    send smallSigner ks (ascii "password") minerText 5 1 fundedNode fundedNode
      = .ok (sent, fundedPayment.hash smallCrates) ∧
    (sent.getWork smallCrates minerText 0).2 = .ok fundedTemplate ∧
    Confirms smallCrates (fundedGenesis 9) (sent.getWork smallCrates minerText 0).1 fundedTemplate
      0 0 fundedPayment := by
  obtain ⟨ks, hks⟩ : ∃ ks, create smallSigner.toWalletCrates (sampleSeed 0)
      (List.Vector.replicate 16 0) (List.Vector.replicate 12 0) (ascii "password")
        = .ok (ks, ⟨sampleSeed 0⟩) := ⟨_, rfl⟩
  obtain ⟨-, hcan, honly⟩ := openDb_canonical (init_funded 9)
  have haccount : fundedNode.chain.state.getAccount sampleSender = ⟨9, 0⟩ := getAccount_fundedOpen 9
  have htx : fundedPayment = payment smallSigner ⟨sampleSeed 0⟩ premineAddress 5 1
      (fundedNode.chain.state.getAccount sampleSender).nonce := by
    rw [haccount]
    rfl
  have hto : Address.fromStr minerText = .ok premineAddress := Address.fromStr_display _
  obtain ⟨sent, hsend, hconfirms⟩ := payment_confirmed smallSigner_lawful supplyBound_funded
    (.init init_fundedNode) hks hto htx [] rfl hcan.tip hcan.tip joins_funded
  have hsent : sent = fundedNode.addTransaction smallCrates fundedPayment := by
    have hsame := hsend.symm.trans (send_created smallSigner_lawful hks hto fundedNode fundedNode htx)
    exact (Prod.mk.inj (Attempt.ok_inj hsame)).1
  have hwork : (sent.getWork smallCrates minerText 0).2 = .ok fundedTemplate := by
    rw [hsent]
    exact getWork_funded
  have hstate : ((nodeMachine smallCrates (fundedGenesis 9)).run sent
      [.getWork minerText 0]).chain.state = sent.chain.state := getWork_state _ _ _
  have hhash : fundedTemplate.hash smallCrates 0 = nonceId 0 :=
    id_small { fundedTemplate.block.header with nonce := 0 } _
  refine ⟨ks, sent, hks, hsend, hwork, ?_⟩
  refine hconfirms minerText 0 fundedTemplate hwork [] _ rfl ?_ 0 ?_ ?_ (fun _ => UInt64.le_refl 1) ?_
  · show ((nodeMachine smallCrates (fundedGenesis 9)).run sent
      [.getWork minerText 0]).chain.state.tip = some (0, (fundedGenesis 9).genesisHash smallCrates)
    rw [hstate, hsent]
    exact hcan.tip
  · show meetsTarget (fundedTemplate.hash smallCrates 0) (targetForDifficulty 1) = true
    rw [hhash]
    exact meetsTarget_nonceId 0
  · show ((nodeMachine smallCrates (fundedGenesis 9)).run sent
      [.getWork minerText 0]).chain.state.blocks (fundedTemplate.hash smallCrates 0) = none
    rw [hhash, hstate, hsent]
    exact honly _ (nonceId_ne_genesisHash 0)
  · show (sent.getWork smallCrates minerText 0).1.orphans.waiting _ = []
    rw [(getWork_quiet sent minerText 0).1, hsent]
    rfl

end Ondris
