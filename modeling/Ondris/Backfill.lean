import Ondris.NodeLedger

/-!
# Backfill

Nodes that start with different stores. A node that hears of a block whose parent it lacks
keeps the block and asks its peers for the parent; the answer may lack its parent in turn.
Messages are delivered in any order, and miners hand in blocks at any node.

Results:
1. `settles_step`: a block of a well-formed branch that a node is handed is stored, or waits;
   what is missing is requested, and what is stored is announced.
2. `Backfills.step`: what a peer has stored and a node waits for is on its way.
3. `backfill_complete`: when no message about blocks is on its way, blocks wait for nothing that
   a peer has, except for a parent that is stored and has not woken them.
4. `catches_up`: on a single chain a new block brings all connected nodes up to date.
-/

namespace Ondris

open Ledger

/-! ## A delivery -/

/-- The block waits for its parent. -/
def Node.Buffers (node : Node) (x : Block) : Prop := ∃ k, x ∈ node.orphans.waiting k

/-- While `b` is delivered to `node`: it has become `m`, which has yet to submit `items`. -/
structure Digests (K : Crates) (g : GenesisConfig) (S : List Block) (node : Node) (b : Block)
    (m : Node) (items : List Block) : Prop where
  sane : Sane K g S m items
  sent : ∃ ms, m.sent = node.sent ++ ms ∧
    (∀ h, m.orphans.waiting h ≠ [] →
      node.orphans.waiting h ≠ [] ∨ .broadcast (.getBlock h) ∈ ms) ∧
    ∀ h, (m.chain.state.blocks h).isSome → (node.chain.state.blocks h).isSome ∨
      ∃ y, .broadcast (.newBlock y) ∈ ms ∧ blockId K y = h
  placed : ∀ x ∈ S, ∀ l, Admitted K g S (blockId K x) l → node.Buffers x ∨ x = b →
    m.Buffers x ∨ x ∈ items ∨ (m.chain.state.blocks (blockId K x)).isSome

section Delivery

variable {K : Crates} {g : GenesisConfig} {S : List Block} {node m : Node} {b i : Block}
  {items : List Block}

/-- A block of a well-formed branch that is submitted is stored, or waits for its parent. -/
theorem Sane.retry_placed (hset : ValidSet K g S) (h : Sane K g S node (b :: items))
    {l : BlockChain} (hl : Admitted K g S (blockId K b) l) :
    (node.retry K b).1.Buffers b ∨
      ((node.retry K b).1.chain.state.blocks (blockId K b)).isSome := by
  have hb := h.items_mem b List.mem_cons_self
  cases hknown : node.chain.state.blocks (blockId K b) with
  | some x =>
    refine .inr ?_
    rw [blocks_retry_grows h.part.inv hknown b]
    rfl
  | none =>
    cases hparent : node.chain.state.blocks b.header.prevHash with
    | some q =>
      have hst := h.part.storable hset hl hb hknown (by rw [hparent]; rfl)
      exact .inr (hst.isSome_blocks_retry h.part.inv)
    | none =>
      -- an orphan
      rcases hl.head with ⟨hgen, -⟩ | ⟨x, t, hx, hid, -, -, hpar, hok⟩
      · exact absurd hgen (hset.ne_genesis b hb)
      obtain rfl := hset.distinct x hx b hb hid.symm
      have hzero : x.header.height ≠ 0 := by
        refine hok.height_ne_zero ?_
        rcases hpar.head with ⟨-, rfl⟩ | ⟨y, t', -, -, -, rfl, -⟩ <;> simp
      have hres := submitBlock_orphan h.part.inv hzero hok.low hknown hok.root hok.target hok.signed
        hparent
      obtain ⟨horphans, -⟩ := Node.retry_orphan hres
      refine .inl ⟨x.header.prevHash, ?_⟩
      rw [horphans, Orphans.waiting_push, if_pos rfl]
      exact List.mem_append_right _ List.mem_cons_self

/-- A call of `submit_block` in a delivery. -/
theorem Digests.retry (hbound : SupplyBound g) (hset : ValidSet K g S)
    (h : Digests K g S node b m (i :: items)) : Digests K g S node b (m.retry K i).1 items := by
  have hc := h.sane.part.inv
  have hi := h.sane.items_mem i List.mem_cons_self
  obtain ⟨ms, hms, hwaiting, hstored⟩ := h.sent
  refine ⟨h.sane.call hbound, ?_, fun x hx l hl hbuf => ?_⟩
  · rcases Node.retry_sent_cases hc i with
      ⟨hst, horphans, -⟩ | ⟨hnot, -, -, horphans, hsent⟩ | ⟨hnot, -, horphans, hsent⟩
    · have hsent := h.sane.part.retry_announces hbound hset h.sane.ledger hi hst
      refine ⟨ms ++ [.broadcast (.newBlock i)], ?_, fun k hk => ?_, fun k hk => ?_⟩
      · rw [hsent, hms, List.append_assoc]
      · rw [horphans] at hk
        exact (hwaiting k hk).imp_right (List.mem_append_left _)
      · obtain ⟨x, hx⟩ := Option.isSome_iff_exists.mp hk
        rw [blocks_retry] at hx
        rcases submit_blocks_cases hc hx with hold | ⟨rfl, -⟩
        · rcases hstored k (by rw [hold]; rfl) with hold | ⟨y, hy, hid⟩
          · exact .inl hold
          · exact .inr ⟨y, List.mem_append_left _ hy, hid⟩
        · exact .inr ⟨i, List.mem_append_right _ List.mem_cons_self, rfl⟩
    · have hblocks : (m.retry K i).1.chain.state.blocks = m.chain.state.blocks := by
        rw [blocks_retry, state_submit_unstorable hc hnot]
      refine ⟨ms ++ [.broadcast (.getBlock i.header.prevHash)], ?_, fun k hk => ?_, fun k hk => ?_⟩
      · rw [hsent, hms, List.append_assoc]
      · rw [horphans, Orphans.waiting_push] at hk
        split at hk
        · next heq =>
          rw [heq]
          exact .inr (List.mem_append_right _ List.mem_cons_self)
        · exact (hwaiting k hk).imp_right (List.mem_append_left _)
      · rw [hblocks] at hk
        exact (hstored k hk).imp_right fun ⟨y, hy, hid⟩ => ⟨y, List.mem_append_left _ hy, hid⟩
    · have hblocks : (m.retry K i).1.chain.state.blocks = m.chain.state.blocks := by
        rw [blocks_retry, state_submit_unstorable hc hnot]
      refine ⟨ms, by rw [hsent, hms], fun k hk => ?_, fun k hk => ?_⟩
      · rw [horphans] at hk
        exact hwaiting k hk
      · rw [hblocks] at hk
        exact hstored k hk
  · rcases h.placed x hx l hl hbuf with ⟨k, hk⟩ | hmem | hsome
    · refine .inl ⟨k, ?_⟩
      rcases Node.retry_sent_cases hc i with
        ⟨-, horphans, -⟩ | ⟨-, -, -, horphans, -⟩ | ⟨-, -, horphans, -⟩
      · rwa [horphans]
      · rw [horphans, Orphans.waiting_push]
        split
        · next heq =>
          rw [heq] at hk
          exact List.mem_append_left _ hk
        · exact hk
      · rwa [horphans]
    · rcases List.mem_cons.mp hmem with rfl | hmem
      · exact (h.sane.retry_placed hset hl).imp_right .inr
      · exact .inr (.inl hmem)
    · exact .inr (.inr (isSome_blocks_retry hc hsome i))

/-- The blocks that wait under an accepted hash are taken out of the buffer. -/
theorem Digests.pop {k : Hash256} (h : Digests K g S node b m []) :
    Digests K g S node b { m with orphans := m.orphans.erase k } (m.orphans.waiting k) where
  sane := h.sane.pop
  sent := by
    obtain ⟨ms, hms, hwaiting, hstored⟩ := h.sent
    refine ⟨ms, hms, fun h hh => hwaiting h fun hnone => hh ?_, hstored⟩
    rw [Orphans.waiting_erase, hnone, ite_self]
  placed x hx l hl hbuf := by
    rcases h.placed x hx l hl hbuf with ⟨k', hk'⟩ | hmem | hsome
    · by_cases heq : k' = k
      · rw [heq] at hk'
        exact .inr (.inl hk')
      · refine .inl ⟨k', ?_⟩
        rw [Orphans.waiting_erase, if_neg heq]
        exact hk'
    · cases hmem
    · exact .inr (.inr hsome)

theorem digests_accept (hbound : SupplyBound g) (hset : ValidSet K g S) (h : Sane K g S node [])
    (hb : b ∈ S) : Digests K g S node b (node.acceptAndBroadcast K b).1 [] := by
  refine (node.loop_acceptAndBroadcast b).invariant (Q := fun _ => True)
    (I := fun m items _ => Digests K g S node b m items)
    (fun m i items _ _ h => h.retry hbound hset) (fun m k _ h => h.pop) (fun _ _ => trivial) ?_
  refine ⟨⟨h.part, h.ledger, fun x hx => ?_, h.waiting_mem⟩,
    ⟨[], (List.append_nil _).symm, fun _ hh => .inl hh, fun _ hh => .inl hh⟩, fun x _ l _ hbuf => ?_⟩
  · rw [List.mem_singleton.mp hx]
    exact hb
  · exact hbuf.imp_right fun heq => .inl (List.mem_singleton.mpr heq)

end Delivery

/-! ## A step of a node -/

/-- What a step of a node does for the blocks that it waits for and those that it stores. -/
structure Settles (K : Crates) (g : GenesisConfig) (S : List Block) (node : Node)
    (i : NodeInput) (node' : Node) : Prop where
  part : StoredPart K g S node'.chain
  waiting_mem : ∀ h, ∀ b ∈ node'.orphans.waiting h, b ∈ S
  requests : ∀ h, node'.orphans.waiting h ≠ [] →
    node.orphans.waiting h ≠ [] ∨ .broadcast (.getBlock h) ∈ node.sentOn K g i
  announces : ∀ h, (node'.chain.state.blocks h).isSome → (node.chain.state.blocks h).isSome ∨
    ∃ y, .broadcast (.newBlock y) ∈ node.sentOn K g i ∧ blockId K y = h
  placed : ∀ x ∈ S, ∀ l, Admitted K g S (blockId K x) l →
    node.Buffers x ∨ i.delivered = some x →
    node'.Buffers x ∨ (node'.chain.state.blocks (blockId K x)).isSome

section Step

variable {K : Crates} {g : GenesisConfig} {S : List Block} {node node' : Node} {i : NodeInput}

/-- Only a restart loses the buffer. -/
theorem orphans_step (node : Node) (hi : i ≠ .restart) (hnone : i.delivered = none) :
    ((nodeMachine K g).step node i).orphans = node.orphans := by
  cases i with
  | event event =>
    cases event with
    | newBlock block => cases hnone
    | newTransaction tx =>
      show (if tx.isSignatureValid K then node.addTransaction K tx else node).orphans = node.orphans
      split <;> rfl
    | getBlockRequest peerAddr hash => rfl
    | blockResponse block =>
      cases block with
      | none => rfl
      | some block => cases hnone
    | peerConnected addr => rfl
    | peerDisconnected addr => rfl
  | submitTx tx =>
    by_cases htx : tx.isSignatureValid K = true
    · show (node.submitTx K tx).1.orphans = node.orphans
      rw [submitTx_fst htx]
      rfl
    · show (node.submitTx K tx).1.orphans = node.orphans
      rw [Node.submitTx, if_neg htx]
  | submitBlock block => cases hnone
  | getWork miner now => exact (getWork_quiet node miner now).1
  | rebroadcast =>
    show node.rebroadcast.orphans = node.orphans
    unfold Node.rebroadcast
    cases node.chain.state.mempoolAll <;> rfl
  | restart => exact absurd rfl hi

theorem core_step (hinv : NodeInv K g node) (hnone : i.delivered = none) :
    ((nodeMachine K g).step node i).chain.state.core = node.chain.state.core := by
  rcases node_sent_cases hinv i with ⟨b, hsome, -⟩ | ⟨hquiet, -⟩ | ⟨hquiet, -⟩
  · rw [hnone] at hsome
    cases hsome
  · exact hquiet.core
  · exact hquiet.core

theorem settles_step (hbound : SupplyBound g) (hset : ValidSet K g S)
    (hn : (nodeMachine K g).Reachable node) (hpart : StoredPart K g S node.chain)
    (hwaiting : ∀ h, ∀ b ∈ node.orphans.waiting h, b ∈ S) (hi : i ≠ .restart)
    (hdelivered : ∀ b, i.delivered = some b → b ∈ S) :
    Settles K g S node i ((nodeMachine K g).step node i) := by
  have hinv := nodeInv hn
  cases hb : i.delivered with
  | some b =>
    have hsane : Sane K g S node [] :=
      ⟨hpart, (replayed_reachable hbound hn).ledger, fun _ h => absurd h List.not_mem_nil, hwaiting⟩
    have hdig := digests_accept hbound hset hsane (hdelivered b hb)
    obtain ⟨ms, hms, hrequests, hstored⟩ := hdig.sent
    have hstep : (nodeMachine K g).step node i = (node.acceptAndBroadcast K b).1 :=
      step_of_delivered hb
    rw [← hstep] at hdig hms hrequests hstored
    have hsent : node.sentOn K g i = ms := sentOn_append hms
    refine ⟨hdig.sane.part, hdig.sane.waiting_mem, ?_, ?_, fun x hx l hl hbuf => ?_⟩
    · rwa [hsent]
    · rwa [hsent]
    · have hx' : node.Buffers x ∨ x = b :=
        hbuf.imp_right fun heq => (Option.some.inj (hb.symm.trans heq)).symm
      rcases hdig.placed x hx l hl hx' with hbuf | hmem | hsome
      · exact .inl hbuf
      · cases hmem
      · exact .inr hsome
  | none =>
    have horphans := orphans_step (K := K) (g := g) node hi hb
    have hblocks := core_blocks (core_step hinv hb)
    refine ⟨⟨(Advances.step hinv i).inv.chain, ?_⟩, ?_, fun h hh => ?_, fun h hh => ?_,
      fun x _ l _ hbuf => ?_⟩
    · rw [hblocks]
      exact hpart.sound
    · rw [horphans]
      exact hwaiting
    · rw [horphans] at hh
      exact .inl hh
    · rw [hblocks] at hh
      exact .inl hh
    · rcases hbuf with hbuf | heq
      · unfold Node.Buffers
        rw [horphans]
        exact .inl hbuf
      · rw [hb] at heq
        cases heq

/-- What a node sends it has stored past genesis, unless it is asked for genesis. -/
theorem payload_ne_genesis (hn : (nodeMachine K g).Reachable node)
    (hi : ∀ addr, i ≠ .event (.getBlockRequest addr (g.genesisHash K))) {m : Sent}
    (hm : m ∈ node.sentOn K g i) {x : Block} (hx : m.message.payload = some x) :
    ∃ k, ((nodeMachine K g).step node i).chain.state.blocks k = some x ∧ k ≠ g.genesisHash K := by
  have hinv := nodeInv hn
  rcases node_sent_cases hinv i with ⟨b, -, hstep⟩ | ⟨hquiet, addr, k, rfl, hsent⟩ | ⟨-, hsent⟩
  · rcases Node.accept_cases (kept_reachable hn) b with ⟨-, -, -, hsent⟩ | ⟨xs, hxs⟩
    · rw [sentOn_append (by rw [hstep, hsent])] at hm
      rw [List.mem_singleton.mp hm] at hx
      cases hx
    · rw [sentOn_append (by rw [hstep, hxs.sent])] at hm
      obtain ⟨y, hy, rfl⟩ := List.mem_map.mp hm
      cases hx
      rw [hstep]
      refine ⟨_, hxs.stored x hy, fun hgen => ?_⟩
      -- genesis is stored from the start
      have hfresh := hxs.fresh x hy
      rw [hgen, hinv.chain.stored.genesis] at hfresh
      cases hfresh
  · rw [hsent] at hm
    rw [List.mem_singleton.mp hm] at hx
    refine ⟨k, ?_, fun hgen => hi addr (by rw [hgen])⟩
    rw [core_blocks hquiet.core]
    exact hx
  · obtain ⟨tx, rfl⟩ := hsent m hm
    cases hx

/-- Nobody asks for genesis. -/
theorem request_ne_genesis (hn : (nodeMachine K g).Reachable node) {m : Sent}
    (hm : m ∈ node.sentOn K g i) : m.message ≠ .getBlock (g.genesisHash K) := by
  have hinv := nodeInv hn
  intro hrequest
  rcases node_sent_cases hinv i with ⟨b, -, hstep⟩ | ⟨-, addr, k, -, hsent⟩ | ⟨-, hsent⟩
  · rcases Node.accept_cases (kept_reachable hn) b with ⟨hdetached, -, -, hsent⟩ | ⟨xs, hxs⟩
    · rw [sentOn_append (by rw [hstep, hsent])] at hm
      rw [List.mem_singleton.mp hm] at hrequest
      have hparent : b.header.prevHash = g.genesisHash K := Message.getBlock.inj hrequest
      have hnone := hdetached.parent
      rw [hparent, hinv.chain.stored.genesis] at hnone
      cases hnone
    · rw [sentOn_append (by rw [hstep, hxs.sent])] at hm
      obtain ⟨y, -, rfl⟩ := List.mem_map.mp hm
      cases hrequest
  · rw [hsent] at hm
    rw [List.mem_singleton.mp hm] at hrequest
    cases hrequest
  · obtain ⟨tx, rfl⟩ := hsent m hm
    cases hrequest

end Step

/-! ## Networks that resume -/

section Network

variable {V : Type} (K : Crates) (g : GenesisConfig) (G : PeerGraph V) (S : List Block)
  (news : Set Hash256)

/-- Nodes that have run before, each on its own, and that are now connected: blocks of `S` are
stored, those of `news` nowhere, and nothing waits or is on its way. -/
structure Gossip.Resumes (s : Gossip V) : Prop where
  reachable : ∀ v, (nodeMachine K g).Reachable (s.nodes v)
  stored : ∀ v h b, (s.nodes v).chain.state.blocks h = some b → h ≠ g.genesisHash K → b ∈ S
  fresh : ∀ v, ∀ h ∈ news, (s.nodes v).chain.state.blocks h = none
  idle : ∀ v h, (s.nodes v).orphans.waiting h = []
  flight : s.inFlight = []

/-- Miners hand in blocks of `S`, at any node and in any order. -/
def MinedFrom (_ : Gossip V) (i : NetworkInput V) : Prop := ∀ v b, i = .submitBlock v b → b ∈ S

/-- A request of `v` to `w` for the block is on its way, or the block is. -/
def Gossip.Fetching (s : Gossip V) (v w : V) (hash : Hash256) : Prop :=
  ∃ p ∈ s.inFlight, (p.source = v ∧ p.target = w ∧ p.message = .getBlock hash) ∨
    (p.source = w ∧ p.target = v ∧ ∃ x, p.message.payload = some x ∧ blockId K x = hash)

/-- The block waits for its parent, or is stored. -/
def Node.Placed (node : Node) (hash : Hash256) : Prop :=
  (∃ x, node.Buffers x ∧ blockId K x = hash) ∨ (node.chain.state.blocks hash).isSome

/-- What holds of such a network at all times. -/
structure Backfills (s : Gossip V) : Prop where
  reachable : ∀ v, (nodeMachine K g).Reachable (s.nodes v)
  part : ∀ v, StoredPart K g S (s.nodes v).chain
  waiting_mem : ∀ v h, ∀ b ∈ (s.nodes v).orphans.waiting h, b ∈ S
  payload : ∀ p ∈ s.inFlight, ∀ x, p.message.payload = some x → x ∈ S ∧
    ∃ l, Admitted K g S (blockId K x) l
  request : ∀ p ∈ s.inFlight, p.message ≠ .getBlock (g.genesisHash K)
  sought : ∀ v, ∀ w ∈ G.peers v, ∀ h, (s.nodes v).orphans.waiting h ≠ [] ∨ h ∈ news →
    ((s.nodes w).chain.state.blocks h).isSome → s.Fetching K v w h ∨ (s.nodes v).Placed K h

end Network

section Network

variable {V : Type} {K : Crates} {g : GenesisConfig} {G : PeerGraph V} {S : List Block}
  {news : Set Hash256} {s : Gossip V} {i : NetworkInput V} {u v w : V} {j : NodeInput}

theorem Backfills.start (h : s.Resumes K g S news) : Backfills K g G S news s where
  reachable := h.reachable
  part v := ⟨(nodeInv (h.reachable v)).chain, h.stored v⟩
  waiting_mem v k b hb := by
    rw [h.idle] at hb
    cases hb
  payload p hp := by
    rw [h.flight] at hp
    cases hp
  request p hp := by
    rw [h.flight] at hp
    cases hp
  sought v w _ k hk hsome := by
    rcases hk with hwait | hnew
    · exact absurd (h.idle v k) hwait
    · rw [h.fresh w k hnew] at hsome
      cases hsome

/-- A stored block of the set is on a branch of the set. -/
theorem StoredPart.exists_admitted {c : Chain} (h : StoredPart K g S c) {k : Hash256} {x : Block}
    (hx : c.state.blocks k = some x) (hk : k ≠ g.genesisHash K) :
    x ∈ S ∧ blockId K x = k ∧ ∃ l, Admitted K g S (blockId K x) l := by
  obtain ⟨l, -, hok⟩ := h.inv.stored.stored k x hx hk
  obtain ⟨m, hm⟩ := h.inv.stored.exists_branch hx
  refine ⟨h.sound k x hx hk, hok.id, (k, x) :: m, ?_⟩
  rw [hok.id]
  exact h.admitted hm

/-! ## At rest -/

/-- Only transactions are on their way. -/
def Gossip.Rests (s : Gossip V) : Prop := ∀ p ∈ s.inFlight, p.message.isNewTransaction = true

theorem Gossip.Rests.not_fetching (h : s.Rests) (v w : V) (k : Hash256) : ¬ s.Fetching K v w k := by
  rintro ⟨p, hp, ⟨-, -, hmessage⟩ | ⟨-, -, x, hpay, -⟩⟩
  · have htx := h p hp
    rw [hmessage] at htx
    cases htx
  · have htx := h p hp
    cases hm : p.message with
    | newTransaction tx => rw [hm] at hpay; cases hpay
    | newBlock block => rw [hm] at htx; cases htx
    | getBlock hash => rw [hm] at htx; cases htx
    | blockResponse block => rw [hm] at htx; cases htx

/-- A block waits for a parent that is stored. -/
def Node.Unwoken (node : Node) : Prop :=
  ∃ k, node.orphans.waiting k ≠ [] ∧ (node.chain.state.blocks k).isSome

/-- At rest a block that a node waits for, or has never had, leads down the branch of the peer
that has it to a stored block that did not wake its child. -/
theorem Backfills.unwoken (hset : ValidSet K g S) (h : Backfills K g G S news s) (hrest : s.Rests)
    (hw : w ∈ G.peers v) {k : Hash256} {l : BlockChain}
    (hl : Branch K g (s.nodes w).chain.state k l)
    (hk : (s.nodes v).orphans.waiting k ≠ [] ∨ k ∈ news) :
    (s.nodes v).Unwoken ∨ ((s.nodes v).chain.state.blocks k).isSome := by
  induction hl with
  | root => exact .inr (h.part v).inv.stored.genesis_isSome
  | @step k y t hne hy _ ih =>
    have hwanted := h.sought v w hw k hk (by rw [hy]; rfl)
    rcases hwanted.resolve_left (hrest.not_fetching v w k) with ⟨x, ⟨k', hk'⟩, rfl⟩ | hstored
    · -- the block itself waits at the node, so its parent is wanted
      obtain ⟨hyS, hid, -⟩ := (h.part w).exists_admitted hy hne
      obtain rfl := hset.distinct y hyS x (h.waiting_mem v k' x hk') hid
      have hkey := (kept_reachable (h.reachable v)).keyed k' y hk'
      rw [hkey] at ih
      have hwait := List.ne_nil_of_mem hk'
      rcases ih (.inl hwait) with hunwoken | hparent
      · exact .inl hunwoken
      · exact .inl ⟨k', hwait, hparent⟩
    · exact .inr hstored

/-! ## Steps -/

theorem at_ne_restart (hat : i.at G s = some (u, j)) : j ≠ .restart := by
  rintro rfl
  cases i with
  | deliver k =>
    obtain ⟨p, hp, heq⟩ := Option.map_eq_some_iff.mp hat
    cases heq
  | submitTx v tx => cases hat
  | submitBlock v block => cases hat
  | getWork v miner now => cases hat
  | rebroadcast v => cases hat

/-- What is on its way stays so, unless it is what is delivered. -/
theorem taken_cases (hat : i.at G s = some (u, j)) {p : Packet V} (hp : p ∈ s.inFlight) :
    p ∈ (i.taken s).inFlight ∨ p.target = u ∧ j = .event (p.message.event (G.addr p.source)) := by
  cases i with
  | deliver k =>
    obtain ⟨q, hq, heq⟩ := Option.map_eq_some_iff.mp hat
    obtain ⟨hlt, rfl⟩ := List.getElem?_eq_some_iff.mp hq
    have hmem : p = s.inFlight[k] ∨ p ∈ s.inFlight.eraseIdx k :=
      List.mem_cons.mp ((List.getElem_cons_eraseIdx_perm hlt).mem_iff.mpr hp)
    rcases hmem with rfl | hmem
    · cases heq
      exact .inr ⟨rfl, rfl⟩
    · exact .inl hmem
  | submitTx v tx => exact .inl hp
  | submitBlock v block => exact .inl hp
  | getWork v miner now => exact .inl hp
  | rebroadcast v => exact .inl hp

/-- What is handed to consensus is a block of the set. -/
theorem Backfills.delivered_mem (h : Backfills K g G S news s) (hi : MinedFrom S s i)
    (hat : i.at G s = some (u, j)) {b : Block} (hb : j.delivered = some b) : b ∈ S := by
  rcases delivered_at hat hb with rfl | ⟨k, p, -, hp, hpay⟩
  · exact hi u b rfl
  · exact (h.payload p (List.mem_of_getElem? hp) b hpay).1

theorem Backfills.settles (hbound : SupplyBound g) (hset : ValidSet K g S)
    (h : Backfills K g G S news s) (hi : MinedFrom S s i) (hat : i.at G s = some (u, j)) :
    Settles K g S (s.nodes u) j ((nodeMachine K g).step (s.nodes u) j) :=
  settles_step hbound hset (h.reachable u) (h.part u) (h.waiting_mem u) (at_ne_restart hat)
    fun _ hb => h.delivered_mem hi hat hb

/-- A broadcast goes to every peer. -/
theorem route_broadcast (hw : w ∈ G.peers u) {m : Message} {ms : List Sent}
    (hm : .broadcast m ∈ ms) : (⟨u, w, m⟩ : Packet V) ∈ ms.flatMap (G.route u) :=
  List.mem_flatMap.mpr ⟨_, hm, List.mem_map.mpr ⟨w, hw, rfl⟩⟩

/-- An answer goes to the peer that asked. -/
theorem route_sendTo (hw : w ∈ G.peers u) {m : Message} {ms : List Sent}
    (hm : .sendTo (G.addr w) m ∈ ms) : (⟨u, w, m⟩ : Packet V) ∈ ms.flatMap (G.route u) := by
  refine List.mem_flatMap.mpr ⟨_, hm, List.mem_map.mpr ⟨w, ?_, rfl⟩⟩
  exact List.mem_filter.mpr ⟨hw, decide_eq_true rfl⟩

variable [DecidableEq V]

theorem step_nodes (hat : i.at G s = some (u, j)) (v : V) :
    ((network K g G).step s i).nodes v
      = if v = u then (nodeMachine K g).step (s.nodes u) j else s.nodes v := by
  rw [(network_step hat).1, Function.update_apply]

theorem mem_step_inFlight (hat : i.at G s = some (u, j)) {p : Packet V} :
    p ∈ ((network K g G).step s i).inFlight ↔ p ∈ (i.taken s).inFlight ∨
      p ∈ ((s.nodes u).sentOn K g j).flatMap (G.route u) := by
  rw [(network_step hat).2.1, List.mem_append]

/-- What is stored stays stored. -/
theorem Backfills.grows (h : Backfills K g G S news s) (i : NetworkInput V) {k : Hash256} {x : Block}
    (hx : (s.nodes v).chain.state.blocks k = some x) :
    (((network K g G).step s i).nodes v).chain.state.blocks k = some x := by
  cases hat : i.at G s with
  | none => rwa [(network_idle hat).1]
  | some move =>
    obtain ⟨u, j⟩ := move
    rw [step_nodes hat]
    split
    · next heq =>
      subst heq
      exact blocks_step_grows (nodeInv (h.reachable v)) (kept_reachable (h.reachable v)) j hx
    · exact hx

/-- A block that a peer has stored and that a node has got stays with the node. -/
theorem Backfills.placed_step (hset : ValidSet K g S) (h : Backfills K g G S news s)
    (hat : i.at G s = some (u, j))
    (hsettles : Settles K g S (s.nodes u) j ((nodeMachine K g).step (s.nodes u) j)) {k : Hash256}
    (hsome : ((s.nodes w).chain.state.blocks k).isSome) (hplaced : (s.nodes v).Placed K k) :
    (((network K g G).step s i).nodes v).Placed K k := by
  rcases hplaced with ⟨x, ⟨k', hk'⟩, rfl⟩ | hstored
  · rw [step_nodes hat]
    split
    · next heq =>
      subst heq
      -- the block that waits is the one that the peer has stored
      obtain ⟨y, hy⟩ := Option.isSome_iff_exists.mp hsome
      have hx := h.waiting_mem v k' x hk'
      obtain ⟨hyS, hid, l, hl⟩ := (h.part w).exists_admitted hy (hset.ne_genesis x hx)
      obtain rfl := hset.distinct y hyS x hx hid
      rcases hsettles.placed y hyS l hl (.inl ⟨k', hk'⟩) with hbuf | hstored
      · exact .inl ⟨y, hbuf, rfl⟩
      · exact .inr hstored
    · exact .inl ⟨x, ⟨k', hk'⟩, rfl⟩
  · obtain ⟨x, hx⟩ := Option.isSome_iff_exists.mp hstored
    refine .inr ?_
    rw [h.grows i hx]
    rfl

/-- The request is answered, and the answer arrives. -/
theorem Backfills.fetching_step (h : Backfills K g G S news s)
    (hat : i.at G s = some (u, j))
    (hsettles : Settles K g S (s.nodes u) j ((nodeMachine K g).step (s.nodes u) j)) {k : Hash256}
    (hw : w ∈ G.peers v) (hsome : ((s.nodes w).chain.state.blocks k).isSome)
    (hfetch : s.Fetching K v w k) : ((network K g G).step s i).Fetching K v w k ∨
      (((network K g G).step s i).nodes v).Placed K k := by
  obtain ⟨p, hp, hcases⟩ := hfetch
  rcases taken_cases hat hp with hstays | ⟨htarget, hevent⟩
  · exact .inl ⟨p, (mem_step_inFlight hat).mpr (.inl hstays), hcases⟩
  rcases hcases with ⟨hv, hw', hmessage⟩ | ⟨hw', hv, x, hpay, rfl⟩
  · -- the peer is asked, and answers
    obtain rfl : w = u := hw'.symm.trans htarget
    have hj : j = .event (.getBlockRequest (G.addr v) k) := by
      rw [hevent, hmessage, hv]
      rfl
    obtain ⟨y, hy⟩ := Option.isSome_iff_exists.mp hsome
    have hsent : .sendTo (G.addr v) (.blockResponse (some y)) ∈ (s.nodes w).sentOn K g j := by
      have hanswer : (s.nodes w).sentOn K g j
          = [.sendTo (G.addr v) (.blockResponse ((s.nodes w).chain.state.getBlock k))] := by
        rw [hj]
        exact sentOn_append rfl
      rw [hanswer, ChainState.getBlock, hy]
      exact List.mem_cons_self
    have hne : k ≠ g.genesisHash K := by
      rintro rfl
      exact h.request p hp hmessage
    refine .inl ⟨⟨w, v, .blockResponse (some y)⟩, ?_, .inr ⟨rfl, rfl, y, rfl, ?_⟩⟩
    · exact (mem_step_inFlight hat).mpr (.inr (route_sendTo (G.symm hw) hsent))
    · exact ((h.part w).exists_admitted hy hne).2.1
  · -- the block arrives
    obtain rfl : v = u := hv.symm.trans htarget
    obtain ⟨hx, l, hl⟩ := h.payload p hp x hpay
    have hdelivered : j.delivered = some x := by
      rw [hevent]
      cases hm : p.message with
      | newBlock block => rw [hm] at hpay; exact hpay
      | newTransaction tx => rw [hm] at hpay; cases hpay
      | getBlock hash => rw [hm] at hpay; cases hpay
      | blockResponse block => rw [hm] at hpay; exact hpay
    refine .inr ?_
    rw [step_nodes hat, if_pos rfl]
    rcases hsettles.placed x hx l hl (.inr hdelivered) with hbuf | hstored
    · exact .inl ⟨x, hbuf, rfl⟩
    · exact .inr hstored

/-- What a peer has stored, and a node waits for or has never had, is on its way. -/
theorem Backfills.sought_step (hset : ValidSet K g S) (h : Backfills K g G S news s)
    (hat : i.at G s = some (u, j))
    (hsettles : Settles K g S (s.nodes u) j ((nodeMachine K g).step (s.nodes u) j))
    (hw : w ∈ G.peers v) {k : Hash256}
    (hk : (((network K g G).step s i).nodes v).orphans.waiting k ≠ [] ∨ k ∈ news)
    (hsome : ((((network K g G).step s i).nodes w).chain.state.blocks k).isSome) :
    ((network K g G).step s i).Fetching K v w k ∨
      (((network K g G).step s i).nodes v).Placed K k := by
  rcases Classical.em ((s.nodes w).chain.state.blocks k).isSome with hold | hnew
  · rcases Classical.em ((s.nodes v).orphans.waiting k ≠ [] ∨ k ∈ news) with hwant | hwant
    · rcases h.sought v w hw k hwant hold with hfetch | hplaced
      · exact h.fetching_step hat hsettles hw hold hfetch
      · exact .inr (h.placed_step hset hat hsettles hold hplaced)
    · -- the node has just asked for it
      rw [not_or] at hwant
      have hwait := hk.resolve_right hwant.2
      rw [step_nodes hat] at hwait
      split at hwait
      · next heq =>
        subst heq
        have hrequest := (hsettles.requests k hwait).resolve_left hwant.1
        refine .inl ⟨⟨v, w, .getBlock k⟩, ?_, .inl ⟨rfl, rfl, rfl⟩⟩
        exact (mem_step_inFlight hat).mpr (.inr (route_broadcast hw hrequest))
      · exact absurd hwait hwant.1
  · -- the peer has just stored it
    rw [step_nodes hat] at hsome
    split at hsome
    · next heq =>
      subst heq
      obtain ⟨y, hy, hid⟩ := (hsettles.announces k hsome).resolve_left hnew
      refine .inl ⟨⟨w, v, .newBlock y⟩, ?_, .inr ⟨rfl, rfl, y, rfl, hid⟩⟩
      exact (mem_step_inFlight hat).mpr (.inr (route_broadcast (G.symm hw) hy))
    · exact absurd hsome hnew

/-- **What a peer has stored and a node waits for is on its way**, and so is every block that
is new to the network, after any step. -/
theorem Backfills.step (hbound : SupplyBound g) (hset : ValidSet K g S)
    (h : Backfills K g G S news s) (hi : MinedFrom S s i) :
    Backfills K g G S news ((network K g G).step s i) := by
  cases hat : i.at G s with
  | none =>
    rw [(network_idle hat).1]
    exact h
  | some move =>
    obtain ⟨u, j⟩ := move
    have hsettles := h.settles hbound hset hi hat
    have hreach := h.reachable u
    refine ⟨fun v => ?_, fun v => ?_, fun v => ?_, fun p hp x hx => ?_, fun p hp => ?_,
      fun v w hw k hk hsome => h.sought_step hset hat hsettles hw hk hsome⟩
    · rw [step_nodes hat]
      split
      · exact hreach.step j
      · exact h.reachable v
    · rw [step_nodes hat]
      split
      · exact hsettles.part
      · exact h.part v
    · rw [step_nodes hat]
      split
      · exact hsettles.waiting_mem
      · exact h.waiting_mem v
    · rcases (mem_step_inFlight hat).mp hp with hp | hp
      · exact h.payload p (mem_taken hp) x hx
      · obtain ⟨m, hm, hp⟩ := List.mem_flatMap.mp hp
        rw [(mem_route hp).2.1] at hx
        have hj : ∀ addr, j ≠ .event (.getBlockRequest addr (g.genesisHash K)) := by
          rintro addr rfl
          obtain ⟨n, q, -, hq, hmessage⟩ := request_at hat
          exact h.request q (List.mem_of_getElem? hq) hmessage
        obtain ⟨k, hk, hne⟩ := payload_ne_genesis hreach hj hm hx
        obtain ⟨hxS, -, hl⟩ := hsettles.part.exists_admitted hk hne
        exact ⟨hxS, hl⟩
    · rcases (mem_step_inFlight hat).mp hp with hp | hp
      · exact h.request p (mem_taken hp)
      · obtain ⟨m, hm, hp⟩ := List.mem_flatMap.mp hp
        rw [(mem_route hp).2.1]
        exact request_ne_genesis hreach hm

theorem backfills (hbound : SupplyBound g) (hset : ValidSet K g S) {s₀ : Gossip V}
    (hstart : s₀.Resumes K g S news) (hs : ((network K g G).startingAt s₀).Reach (MinedFrom S) s) :
    Backfills K g G S news s := by
  induction hs with
  | init hinit =>
    cases hinit
    exact .start hstart
  | step i _ hi h => exact h.step hbound hset hi

/-- **Backfilling is complete.** However messages are delivered and blocks are mined, when
messages about blocks have come to rest a node waits only for blocks that none of its peers has,
unless a block waits for a parent that has been stored without waking it. -/
theorem backfill_complete (hbound : SupplyBound g) (hset : ValidSet K g S) {s₀ : Gossip V}
    (hstart : s₀.Resumes K g S ∅) (hs : ((network K g G).startingAt s₀).Reach (MinedFrom S) s)
    (hrest : s.Rests) (v : V) :
    (s.nodes v).Unwoken ∨ ∀ k, (s.nodes v).orphans.waiting k ≠ [] →
      ∀ w ∈ G.peers v, (s.nodes w).chain.state.blocks k = none := by
  have h := backfills hbound hset hstart hs
  by_cases hunwoken : (s.nodes v).Unwoken
  · exact .inl hunwoken
  · refine .inr fun k hwait w hw => Option.not_isSome_iff_eq_none.mp fun hsome => ?_
    obtain ⟨x, hx⟩ := Option.isSome_iff_exists.mp hsome
    obtain ⟨l, hl⟩ := (h.part w).inv.stored.exists_branch hx
    rcases h.unwoken hset hrest hw hl (.inl hwait) with hbad | hstored
    · exact hunwoken hbad
    · exact hunwoken ⟨k, hwait, hstored⟩

end Network

/-! ## One chain -/

/-- The set holds the blocks of one chain `lt` past genesis, all with work, and `t` is the last. -/
structure OneChain (K : Crates) (g : GenesisConfig) (S : List Block) (t : Hash256)
    (lt : BlockChain) : Prop extends ValidSet K g S where
  ok : ∀ b ∈ S, ∃ l, Admitted K g S b.header.prevHash l ∧
    BlockOk K g (l.map Prod.snd) (blockId K b) b
  work : ∀ b ∈ S, 1 ≤ b.header.difficulty
  head : Admitted K g S t lt
  chain : ∀ h l, Admitted K g S h l → l <:+ lt

section Chain

variable {K : Crates} {g : GenesisConfig} {S : List Block} {t : Hash256} {lt : BlockChain}
  {c : Chain} {node : Node}

theorem branchWork_le_of_suffix {l l' : BlockChain} (h : l <:+ l') :
    branchWork l ≤ branchWork l' := by
  obtain ⟨pre, rfl⟩ := h
  induction pre with
  | nil => exact Nat.le_refl _
  | cons p pre ih =>
    rw [List.cons_append, branchWork_cons]
    exact ih.trans (Nat.le_add_left _ _)

/-- A branch starts with its head. -/
theorem Admitted.exists_cons {h : Hash256} {l : BlockChain} (hl : Admitted K g S h l) :
    ∃ b m, l = (h, b) :: m ∧ (b ∈ S ∨ m = []) := by
  rcases hl.head with ⟨rfl, rfl⟩ | ⟨b, m, hb, -, -, rfl, -⟩
  · exact ⟨_, [], rfl, .inr rfl⟩
  · exact ⟨b, m, rfl, .inl hb⟩

theorem OneChain.blockSet (h : OneChain K g S t lt) : BlockSet K g S t lt := by
  refine ⟨h.distinct, h.ne_genesis, h.ok, h.head, fun k l hl hne => ?_⟩
  have hsuffix := h.chain k l hl
  obtain ⟨x, m, rfl, -⟩ := hl.exists_cons
  obtain ⟨y, m', rfl, hy⟩ := h.head.exists_cons
  rcases List.suffix_cons_iff.mp hsuffix with heq | hsuffix
  · cases heq
    exact absurd rfl hne
  · rcases hy with hy | rfl
    · exact (branchWork_le_of_suffix hsuffix).trans_lt (branchWork_lt_cons (h.work y hy) m')
    · exact absurd (List.suffix_nil.mp hsuffix) (List.cons_ne_nil _ _)

/-- On one chain a block that is not stored outweighs the tip. -/
theorem OneChain.outweighs (h : OneChain K g S t lt) (hpart : StoredPart K g S c) {b : Block}
    (hb : b ∈ S) : Outweighs K g c.state b := by
  intro n t' lo lp a p s hcan hpl
  have hbranch := Admitted.block hb (h.ne_genesis b hb) (hpart.admitted hpl.parent) hpl.ok
  have hnot : (blockId K b, b) ∉ lo := by
    intro hmem
    have hsome := hcan.branch.mem_get hmem
    rw [hpl.new] at hsome
    cases hsome
  have hlo := h.chain _ _ (hpart.admitted hcan.branch)
  rcases List.suffix_or_suffix_of_suffix hlo (h.chain _ _ hbranch) with hsuffix | hsuffix
  · rcases List.suffix_cons_iff.mp hsuffix with rfl | hsuffix
    · exact absurd List.mem_cons_self hnot
    · exact (branchWork_le_of_suffix hsuffix).trans_lt (branchWork_lt_cons (h.work b hb) lp)
  · exact absurd (hsuffix.mem List.mem_cons_self) hnot

/-- So every block that is stored wakes what waits for it. -/
theorem OneChain.progress_step (hbound : SupplyBound g) (h : OneChain K g S t lt)
    (hn : (nodeMachine K g).Reachable node) (hprogress : Progress K g S t [] node [] [])
    {i : NodeInput} (hi : i ≠ .restart) (hdelivered : ∀ b, i.delivered = some b → b ∈ S) :
    Progress K g S t [] ((nodeMachine K g).step node i) [] [] := by
  have hinv := nodeInv hn
  have hwaiting : ∀ k, ∀ b ∈ node.orphans.waiting k, b ∈ S := fun k b hb =>
    (hprogress.waiting_mem k b hb).1
  cases hb : i.delivered with
  | some b =>
    have hbS := hdelivered b hb
    have hsane : Sane K g S node [] := ⟨hprogress.part, (replayed_reachable hbound hn).ledger,
      fun _ hx => absurd hx List.not_mem_nil, hwaiting⟩
    have hdeliver : Progress K g S t ([] ++ [b]) (node.acceptAndBroadcast K b).1 [] [] := by
      refine hprogress.deliver h.blockSet hbS fun call hcall => ?_
      have hbs : ∀ x ∈ [b], x ∈ S := fun x hx => by rwa [List.mem_singleton.mp hx]
      obtain ⟨items, hcallSane⟩ := hsane.deliverCalls hbound hbs call
        (List.mem_append_left _ hcall)
      intro _
      exact hcallSane.overtakes hbound h.blockSet h.valid
        (h.outweighs hcallSane.part (hcallSane.items_mem _ List.mem_cons_self))
    rw [step_of_delivered hb]
    exact { hdeliver with placed := fun x hx => absurd hx List.not_mem_nil }
  | none =>
    have horphans := orphans_step (K := K) (g := g) node hi hb
    have hcore := core_step hinv hb
    refine ⟨⟨(Advances.step hinv i).inv.chain, ?_⟩, fun b hb => absurd hb List.not_mem_nil, ?_,
      fun x hx => absurd hx List.not_mem_nil, ?_, ?_⟩
    · rw [core_blocks hcore]
      exact hprogress.part.sound
    · rw [horphans]
      exact hprogress.waiting_mem
    · rw [horphans, core_blocks hcore]
      exact hprogress.awake
    · rw [core_blocks hcore, core_tip hcore]
      exact hprogress.tip

/-- A node that has stored the last block has stored them all, and nothing waits. -/
theorem OneChain.caught_up (h : OneChain K g S t lt) (hprogress : Progress K g S t [] node [] [])
    (ht : (node.chain.state.blocks t).isSome) :
    (∀ b ∈ S, node.chain.state.blocks (blockId K b) = some b) ∧
      (∀ k, node.orphans.waiting k = []) ∧
      ∃ n, Canonical K g node.chain.state n t lt := by
  have hstored := hprogress.part.inv.stored
  obtain ⟨x, hx⟩ := Option.isSome_iff_exists.mp ht
  obtain ⟨l, hl⟩ := hstored.exists_branch hx
  obtain rfl := h.toValidSet.unique (hprogress.part.admitted hl) h.head
  -- every branch of the set is a part of the chain, which is stored
  have hbranch : ∀ {k m}, Admitted K g S k m → (node.chain.state.blocks k).isSome := by
    intro k m hm
    obtain ⟨b, m', rfl, -⟩ := hm.exists_cons
    have hmem := (h.chain _ _ hm).mem List.mem_cons_self
    rw [hl.mem_get hmem]
    rfl
  refine ⟨fun b hb => ?_, fun k => ?_, ?_⟩
  · obtain ⟨m, hm, hok⟩ := h.ok b hb
    have hb' := Admitted.block hb (h.ne_genesis b hb) hm hok
    exact hprogress.part.blocks_eq h.blockSet hb (hbranch hb')
  · by_contra hwait
    obtain ⟨b, hb⟩ := List.exists_mem_of_ne_nil _ hwait
    obtain ⟨hbS, hkey⟩ := hprogress.waiting_mem k b hb
    obtain ⟨m, hm, -⟩ := h.ok b hbS
    rw [hkey] at hm
    exact nomatch hprogress.awake k hwait (hbranch hm)
  · obtain ⟨n, htip⟩ := hprogress.tip ht
    obtain ⟨n', t', lo, hcan⟩ := hprogress.part.inv.canonical
    obtain ⟨rfl, rfl⟩ := Prod.mk.inj (Option.some.inj (hcan.tip.symm.trans htip))
    rw [hcan.branch.unique hl] at hcan
    exact ⟨_, hcan⟩

/-- What holds of a network whose blocks are those of one chain. -/
structure CatchesUp {V : Type} (K : Crates) (g : GenesisConfig) (G : PeerGraph V) (S : List Block)
    (t : Hash256) (s : Gossip V) : Prop where
  backfills : Backfills K g G S {t} s
  progress : ∀ v, Progress K g S t [] (s.nodes v) [] []

variable {V : Type} {G : PeerGraph V} {s : Gossip V}

theorem CatchesUp.start (hstart : s.Resumes K g S {t}) : CatchesUp K g G S t s := by
  have h : Backfills K g G S {t} s := .start hstart
  refine ⟨h, fun v => ⟨h.part v, fun b hb => absurd hb List.not_mem_nil, fun k b hb => ?_,
    fun b hb => absurd hb List.not_mem_nil, fun k hk => absurd (hstart.idle v k) hk, fun ht => ?_⟩⟩
  · rw [hstart.idle] at hb
    cases hb
  · rw [hstart.fresh v t rfl] at ht
    cases ht

variable [DecidableEq V]

theorem CatchesUp.step (hbound : SupplyBound g) (hset : OneChain K g S t lt)
    (h : CatchesUp K g G S t s) {i : NetworkInput V} (hi : MinedFrom S s i) :
    CatchesUp K g G S t ((network K g G).step s i) := by
  refine ⟨h.backfills.step hbound hset.toValidSet hi, fun v => ?_⟩
  cases hat : i.at G s with
  | none =>
    rw [(network_idle hat).1]
    exact h.progress v
  | some move =>
    obtain ⟨u, j⟩ := move
    rw [step_nodes hat]
    split
    · exact hset.progress_step hbound (h.backfills.reachable u) (h.progress u) (at_ne_restart hat)
        fun b hb => h.backfills.delivered_mem hi hat hb
    · exact h.progress v

theorem catchesUp (hbound : SupplyBound g) (hset : OneChain K g S t lt) {s₀ : Gossip V}
    (hstart : s₀.Resumes K g S {t}) (hs : ((network K g G).startingAt s₀).Reach (MinedFrom S) s) :
    CatchesUp K g G S t s := by
  induction hs with
  | init hinit =>
    cases hinit
    exact .start hstart
  | step i _ hi h => exact h.step hbound hset hi

omit [DecidableEq V] in
/-- At rest the last block is known to all who are connected to a node that has it. -/
theorem CatchesUp.stored (hset : OneChain K g S t lt) (h : CatchesUp K g G S t s) (hrest : s.Rests)
    {v w : V} (hpath : Relation.ReflTransGen (fun v w => w ∈ G.peers v) v w)
    (ht : ((s.nodes w).chain.state.blocks t).isSome) :
    ((s.nodes v).chain.state.blocks t).isSome := by
  induction hpath using Relation.ReflTransGen.head_induction_on with
  | refl => exact ht
  | @head v w' hpeer _ ih =>
    obtain ⟨x, hx⟩ := Option.isSome_iff_exists.mp ih
    obtain ⟨l, hl⟩ := (h.progress w').part.inv.stored.exists_branch hx
    rcases h.backfills.unwoken hset.toValidSet hrest hpeer hl (.inr rfl) with
      ⟨k, hwait, hsome⟩ | hstored
    · exact nomatch (h.progress v).awake k hwait hsome
    · exact hstored

/-- **A new block brings all connected nodes up to date.** Nodes resume with different parts of
one chain, and a block that none of them had is handed in somewhere. However messages are
delivered and further blocks are mined, when messages about blocks have come to rest every node
that is connected to one with the new block has the whole chain, waits for nothing, and has the
same tip, height index and accounts. -/
theorem catches_up (hbound : SupplyBound g) (hset : OneChain K g S t lt) {s₀ : Gossip V}
    (hstart : s₀.Resumes K g S {t}) (hs : ((network K g G).startingAt s₀).Reach (MinedFrom S) s)
    (hrest : s.Rests) {v w : V} (hpath : Relation.ReflTransGen (fun v w => w ∈ G.peers v) v w)
    (ht : ((s.nodes w).chain.state.blocks t).isSome) :
    (∀ b ∈ S, (s.nodes v).chain.state.blocks (blockId K b) = some b) ∧
      (∀ k, (s.nodes v).orphans.waiting k = []) ∧ (∃ n, (s.nodes v).chain.state.tip = some (n, t)) ∧
      (s.nodes v).chain.state.tip = (s.nodes w).chain.state.tip ∧
      (s.nodes v).chain.state.heights = (s.nodes w).chain.state.heights ∧
      ∀ addr, (s.nodes v).chain.state.getAccount addr = (s.nodes w).chain.state.getAccount addr := by
  have h := catchesUp hbound hset hstart hs
  have hv := h.stored hset hrest hpath ht
  obtain ⟨hblocks, hidle, n, hcan⟩ := hset.caught_up (h.progress v) hv
  obtain ⟨-, -, n', hcan'⟩ := hset.caught_up (h.progress w) ht
  obtain ⟨htip, hheights⟩ := hcan.agree hcan'
  refine ⟨hblocks, hidle, ⟨n, hcan.tip⟩, htip, hheights, ChainState.getAccount_eq_of_ledger ?_⟩
  have hledger := ((replayed_reachable hbound (h.backfills.reachable v)).ledger n t lt hcan).2
  rw [((replayed_reachable hbound (h.backfills.reachable w)).ledger n' t lt hcan').2] at hledger
  exact (Option.some.inj hledger).symm

end Chain

/-! ## Coming to rest -/

section Rest

variable {V : Type} [DecidableEq V] {K : Crates} {g : GenesisConfig} {G : PeerGraph V}
  {S : List Block} {U : Finset Block} {news : Set Hash256} {s : Gossip V}

theorem reach_delivers {s₀ : Gossip V} (ks : List ℕ)
    (hs : ((network K g G).startingAt s₀).Reach (MinedFrom S) s) :
    ((network K g G).startingAt s₀).Reach (MinedFrom S) ((network K g G).run s (ks.map .deliver)) := by
  induction ks generalizing s with
  | nil => exact hs
  | cons k ks ih => exact ih (.step_startingAt (.deliver k) hs fun v b h => by cases h)

theorem Backfills.delivers (hbound : SupplyBound g) (hset : ValidSet K g S)
    (h : Backfills K g G S news s) (ks : List ℕ) {v : V} {k : Hash256} {x : Block}
    (hx : (s.nodes v).chain.state.blocks k = some x) :
    (((network K g G).run s (ks.map .deliver)).nodes v).chain.state.blocks k = some x := by
  induction ks generalizing s with
  | nil => exact hx
  | cons n ks ih => exact ih (h.step hbound hset fun v b h => by cases h) (h.grows _ hx)

variable [Fintype V]

/-- As long as a message about blocks is on its way one can be delivered, and that ends. -/
theorem exists_rest (h : Confined K g U s) (hids : LevelIds K U) :
    ∃ ks : List ℕ, ((network K g G).run s (ks.map .deliver)).Rests := by
  generalize hn : s.inFlight.countP (fun p => !p.message.isNewTransaction)
    + s.potential K U G.degree = n
  induction n using Nat.strong_induction_on generalizing s with
  | _ n ih =>
    rcases Classical.em (∃ p ∈ s.inFlight, p.message.isNewTransaction ≠ true) with
      ⟨p, hp, hblock⟩ | hnone
    swap
    · exact ⟨[], fun p hp => Classical.not_not.mp fun hblock => hnone ⟨p, hp, hblock⟩⟩
    obtain ⟨k, hk⟩ := List.mem_iff_getElem?.mp hp
    have hat : (NetworkInput.deliver k).at G s
        = some (p.target, .event (p.message.event (G.addr p.source))) := by
      rw [NetworkInput.at, hk]
      rfl
    have hnext : Confined K g U ((network K g G).step s (.deliver k)) := h.step fun v b h => by cases h
    have htraffic := traffic_step (G := G) h hids (i := .deliver k) trivial
    obtain ⟨-, hflight, hout⟩ := network_step (K := K) (g := g) hat
    -- one message less, and what is sent is paid for
    have hcount : s.inFlight.countP (fun p => !p.message.isNewTransaction)
        = (s.inFlight.eraseIdx k).countP (fun p => !p.message.isNewTransaction) + 1 := by
      obtain ⟨hlt, rfl⟩ := List.getElem?_eq_some_iff.mp hk
      rw [← (List.getElem_cons_eraseIdx_perm hlt).countP_eq, List.countP_cons, if_pos]
      simp [hblock]
    obtain ⟨ks, hks⟩ := ih _ (by
      rw [← hn, hflight, List.countP_append, ← hout]
      show (s.inFlight.eraseIdx k).countP _ + _ + _ < _
      omega) hnext rfl
    exact ⟨k :: ks, hks⟩

end Rest

/-! ## Two nodes, one of them behind -/

/-- A block on genesis, and one on it. -/
def pairChain : List Block := [forkB1, forkB2]

theorem validSet_chain : ValidSet smallCrates smallGenesis pairChain := by
  refine validSet_fork.mono fun b hb => ?_
  simp only [pairChain, List.mem_cons, List.not_mem_nil, or_false] at hb
  rcases hb with rfl | rfl <;> simp [forkBlocks]

theorem oneChain_pair : ∃ lt, OneChain smallCrates smallGenesis pairChain (nonceId 3) lt := by
  have hB : forkB1 ∈ pairChain := by simp [pairChain]
  have hB2 : forkB2 ∈ pairChain := by simp [pairChain]
  have hset := validSet_chain
  have hok : BlockOk smallCrates smallGenesis [smallGenesis.genesisBlock]
      (blockId smallCrates forkB1) forkB1 := by
    rw [blockId_forkB1]
    exact emptyBlock_ok _ _ (by decide) (by decide)
  have hok2 : BlockOk smallCrates smallGenesis [forkB1, smallGenesis.genesisBlock]
      (blockId smallCrates forkB2) forkB2 := by
    rw [blockId_forkB2]
    exact emptyBlock_ok _ _ rfl (by simp [toNat_epochLength])
  have hgenesis : Admitted smallCrates smallGenesis pairChain (smallGenesis.genesisHash smallCrates)
      [(smallGenesis.genesisHash smallCrates, smallGenesis.genesisBlock)] := .genesis
  have hbranch := Admitted.block hB (hset.ne_genesis _ hB) hgenesis hok
  have hparent : Admitted smallCrates smallGenesis pairChain forkB2.header.prevHash
      [(blockId smallCrates forkB1, forkB1),
        (smallGenesis.genesisHash smallCrates, smallGenesis.genesisBlock)] := by
    have hprev : forkB2.header.prevHash = blockId smallCrates forkB1 := blockId_forkB1.symm
    rw [hprev]
    exact hbranch
  have hbranch2 := Admitted.block hB2 (hset.ne_genesis _ hB2) hparent hok2
  rw [blockId_forkB2] at hbranch2
  refine ⟨_, hset, fun b hb => ?_, fun b hb => ?_, hbranch2, fun h l hl => ?_⟩
  · simp only [pairChain, List.mem_cons, List.not_mem_nil, or_false] at hb
    rcases hb with rfl | rfl
    · exact ⟨_, hgenesis, hok⟩
    · exact ⟨_, hparent, hok2⟩
  · simp only [pairChain, List.mem_cons, List.not_mem_nil, or_false] at hb
    rcases hb with rfl | rfl <;> decide
  · rcases hl.head with ⟨rfl, rfl⟩ | ⟨b, m, hb, rfl, -⟩
    · exact ⟨[_, _], rfl⟩
    · simp only [pairChain, List.mem_cons, List.not_mem_nil, or_false] at hb
      rcases hb with rfl | rfl
      · rw [hset.unique hl hbranch]
        exact ⟨[_], rfl⟩
      · rw [blockId_forkB2] at hl
        obtain rfl := hset.unique hl hbranch2
        exact List.suffix_refl _

/-- A node that has stored the first block. -/
def aheadNode : Node := (nodeMachine smallCrates smallGenesis).step smallNode (.submitBlock forkB1)

/-- It is connected to one that has just started. -/
def pairResume : Gossip Bool := ⟨fun v => if v then aheadNode else smallNode, []⟩

theorem pairResume_nodes (v : Bool) : pairResume.nodes v = if v then aheadNode else smallNode := rfl

theorem aheadNode_blocks : Calm smallCrates smallGenesis pairChain aheadNode ∧
    aheadNode.chain.state.blocks
      = Function.update smallNode.chain.state.blocks (nonceId 2) (some forkB1) := by
  have hcalm : Calm smallCrates smallGenesis pairChain smallNode :=
    .start supplyBound_small init_smallNode
  have hstep : aheadNode = (smallNode.acceptAndBroadcast smallCrates forkB1).1 :=
    step_of_delivered rfl
  rw [hstep, ← blockId_forkB1]
  obtain ⟨hafter, ⟨hnot, -⟩ | ⟨-, hblocks, -⟩⟩ := hcalm.accept supplyBound_small validSet_chain
    (b := forkB1) (by simp [pairChain]) ((has_start init_smallNode _).mpr rfl)
  · exact absurd storable_forkB1 hnot
  · exact ⟨hafter, hblocks⟩

theorem resumes_pair (news : Set Hash256) (hnews : ∀ h ∈ news, h = nonceId 3) :
    pairResume.Resumes smallCrates smallGenesis pairChain news := by
  obtain ⟨hcalm, hblocks⟩ := aheadNode_blocks
  have hsmall : (nodeMachine smallCrates smallGenesis).Reachable smallNode := .init init_smallNode
  refine ⟨fun v => ?_, fun v => ?_, fun v h hh => ?_, fun v => ?_, rfl⟩
  · rw [pairResume_nodes]
    split
    · exact hsmall.step (.submitBlock forkB1)
    · exact hsmall
  · rw [pairResume_nodes]
    split
    · exact hcalm.part.sound
    · exact (Calm.start supplyBound_small init_smallNode).part.sound
  · have hne : nonceId 3 ≠ nonceId 2 := fun heq => absurd (nonceId_injective heq) (by decide)
    have hnone := canonical_smallOpen.2 _ (nonceId_ne_genesisHash 3)
    rw [hnews h hh, pairResume_nodes]
    split
    · rw [hblocks, Function.update_of_ne hne]
      exact hnone
    · exact hnone
  · rw [pairResume_nodes]
    split
    · exact hcalm.idle
    · exact fun _ => rfl

/-- The node that is ahead takes in one more block. -/
def pairMined : Gossip Bool :=
  (network smallCrates smallGenesis pairGraph).step pairResume (.submitBlock true forkB2)

theorem reach_pairMined : ((network smallCrates smallGenesis pairGraph).startingAt pairResume).Reach
    (MinedFrom pairChain) pairMined := by
  refine .step_startingAt _ (.init rfl) ?_
  rintro v b ⟨⟩
  simp [pairChain]

theorem pairMined_stored :
    (pairMined.nodes true).chain.state.blocks (nonceId 3) = some forkB2 := by
  obtain ⟨hcalm, hblocks⟩ := aheadNode_blocks
  have hnode : pairMined.nodes true = (aheadNode.acceptAndBroadcast smallCrates forkB2).1 := by
    rw [pairMined, step_nodes (u := true) (j := .submitBlock forkB2) rfl, if_pos rfl,
      step_of_delivered (b := forkB2) rfl, pairResume_nodes, if_pos rfl]
  have hget : aheadNode.chain.state.blocks (nonceId 2) = some forkB1 := by
    rw [hblocks, Function.update_self]
  have hparent : (aheadNode.chain.state.blocks forkB2.header.prevHash).isSome := by
    rw [show forkB2.header.prevHash = nonceId 2 from rfl, hget]
    rfl
  obtain ⟨lt, hset⟩ := oneChain_pair
  have hnew : aheadNode.chain.state.blocks (blockId smallCrates forkB2) = none := by
    have hfresh := (resumes_pair {nonceId 3} fun _ h => h).fresh true (nonceId 3) rfl
    rw [blockId_forkB2]
    rwa [pairResume_nodes, if_pos rfl] at hfresh
  have hmem : forkB2 ∈ pairChain := by simp [pairChain]
  have hhead := hset.head
  rw [← blockId_forkB2] at hhead
  have hstorable := hcalm.part.storable validSet_chain hhead hmem hnew hparent
  rcases (hcalm.accept supplyBound_small validSet_chain hmem hparent).2 with
    ⟨hnot, -⟩ | ⟨-, hafter, -⟩
  · exact absurd hstorable hnot
  · rw [hnode, hafter, ← blockId_forkB2, Function.update_self]

/-- The messages can be delivered until none about blocks is left. -/
theorem exists_rest_pair : ∃ ks : List ℕ,
    ((network smallCrates smallGenesis pairGraph).run pairMined (ks.map .deliver)).Rests := by
  classical
  have hstart := resumes_pair {nonceId 3} fun _ h => h
  have h := backfills supplyBound_small validSet_chain hstart reach_pairMined
  -- genesis and the two blocks are all that is held
  have hheld : ∀ x, pairMined.Holds x → x = smallGenesis.genesisBlock ∨ x ∈ pairChain := by
    rintro x ⟨v, ⟨k, hk⟩ | ⟨k, hk⟩⟩
    · by_cases hgen : k = smallGenesis.genesisHash smallCrates
      · have hgenesis := (h.part v).inv.stored.genesis
        rw [← hgen, hk] at hgenesis
        exact .inl (Option.some.inj hgenesis)
      · exact .inr ((h.part v).sound k x hk hgen)
    · exact .inr (h.waiting_mem v k x hk)
  have hreach : (network smallCrates smallGenesis pairGraph).Reachable pairResume :=
    .init ⟨rfl, hstart.reachable⟩
  obtain ⟨U, hU⟩ := exists_confined (hreach.step (.submitBlock true forkB2))
  refine exists_rest (U := U.filter fun x => pairMined.Holds x)
    ⟨hU.node, hU.kept, fun x hx => Finset.mem_filter.mpr ⟨hU.held x hx, hx⟩, hU.flight⟩ ?_
  intro x hx y hy hid
  rw [blockId_small, blockId_small] at hid
  have hnonce := nonceId_injective hid
  have hx := hheld x (Finset.mem_filter.mp hx).2
  have hy := hheld y (Finset.mem_filter.mp hy).2
  simp only [pairChain, List.mem_cons, List.not_mem_nil, or_false] at hx hy
  rcases hx with rfl | rfl | rfl <;> rcases hy with rfl | rfl | rfl <;>
    first | rfl | exact absurd hnonce (by decide)

/-- The end of a schedule of deliveries. -/
def pairDelivered (ks : List ℕ) : Gossip Bool :=
  (network smallCrates smallGenesis pairGraph).run pairMined (ks.map .deliver)

theorem backfill_complete_pair : ∃ ks, (pairDelivered ks).Rests ∧
    (((pairDelivered ks).nodes false).Unwoken ∨
      ∀ k, ((pairDelivered ks).nodes false).orphans.waiting k ≠ [] →
        ∀ w ∈ pairGraph.peers false, ((pairDelivered ks).nodes w).chain.state.blocks k = none) := by
  obtain ⟨ks, hrest⟩ := exists_rest_pair
  exact ⟨ks, hrest, backfill_complete supplyBound_small validSet_chain
    (resumes_pair ∅ fun _ h => absurd h (Set.notMem_empty _))
    (reach_delivers ks reach_pairMined) hrest false⟩

/-- The node that was behind has caught up. -/
theorem catches_up_pair : ∃ ks, (pairDelivered ks).Rests ∧
    ((pairDelivered ks).nodes false).chain.state.blocks (nonceId 2) = some forkB1 ∧
    ∃ n, ((pairDelivered ks).nodes false).chain.state.tip = some (n, nonceId 3) := by
  obtain ⟨ks, hrest⟩ := exists_rest_pair
  obtain ⟨lt, hset⟩ := oneChain_pair
  have hstart := resumes_pair {nonceId 3} fun _ h => h
  have h := backfills supplyBound_small validSet_chain hstart reach_pairMined
  have hstored := h.delivers supplyBound_small validSet_chain ks pairMined_stored
  have hpath : Relation.ReflTransGen (fun v w => w ∈ pairGraph.peers v) false true :=
    .single (by decide)
  obtain ⟨hblocks, -, htip, -⟩ := catches_up supplyBound_small hset hstart
    (reach_delivers ks reach_pairMined) hrest hpath (by rw [hstored]; rfl)
  have hmem : forkB1 ∈ pairChain := by simp [pairChain]
  refine ⟨ks, hrest, ?_, htip⟩
  rw [← blockId_forkB1]
  exact hblocks forkB1 hmem

end Ondris
