import Ondris.Lib.Flooding
import Ondris.Traffic

/-!
# Propagation of blocks

A network that starts from genesis, whose connections deliver in order, and whose miners
hand in valid blocks on parents that their node has. It is an instance of flooding: blocks
depend on their parents.

Results:
1. `Propagates.step`: every step of the network is a step of the flood, or none.
2. `never_orphaned`: no node ever buffers a block or asks for one.
3. `quiet_agree`: when no block is on its way, connected nodes store the same blocks, and
   if one branch is heaviest they agree on the tip, the height index and all accounts.
-/

namespace Ondris

open Ledger

/-! ## Definitions -/

/-- Blocks with identifiers of their own whose branches down to genesis replay. -/
structure ValidSet (K : Crates) (g : GenesisConfig) (S : List Block) : Prop where
  distinct : ∀ x ∈ S, ∀ y ∈ S, blockId K x = blockId K y → x = y
  ne_genesis : ∀ b ∈ S, blockId K b ≠ g.genesisHash K
  valid : ∀ h l, Admitted K g S h l → (branchLedger K g l).isSome

/-- A block depends on its parent. -/
def ParentIn (K : Crates) (S : List Block) (hash parent : Hash256) : Prop :=
  ∃ b ∈ S, blockId K b = hash ∧ b.header.prevHash = parent

/-- A node of a network without orphans. -/
structure Calm (K : Crates) (g : GenesisConfig) (S : List Block) (node : Node) : Prop where
  inv : NodeInv K g node
  part : StoredPart K g S node.chain
  ledger : LedgerInv K g node.chain.state
  heaviest : Heaviest K g node.chain.state
  idle : ∀ h, node.orphans.waiting h = []

section Network

variable {V : Type} (K : Crates) (g : GenesisConfig) (G : PeerGraph V) (S : List Block)

/-- The message that is delivered is the oldest of its connection. -/
def InOrder (s : Gossip V) : NetworkInput V → Prop
  | .deliver k => ∀ p, s.inFlight[k]? = some p →
      ∀ q ∈ s.inFlight.take k, ¬ (q.source = p.source ∧ q.target = p.target)
  | _ => True

/-- Connections deliver in order, and miners hand in blocks of `S` on parents that their
node has. -/
def MinedInOrder (s : Gossip V) (i : NetworkInput V) : Prop :=
  InOrder s i ∧ ∀ v b, i = .submitBlock v b →
    b ∈ S ∧ ((s.nodes v).chain.state.blocks b.header.prevHash).isSome

/-- The identifier of the block that a packet announces. -/
def Packet.announced (p : Packet V) : Option Hash256 :=
  match p.message with
  | .newBlock block => some (blockId K block)
  | _ => none

variable [DecidableEq V]

/-- The announcements on their way from one node to another, oldest first. -/
def linkOf (ps : List (Packet V)) (v w : V) : List Hash256 :=
  ps.filterMap fun p => if p.source = v ∧ p.target = w then p.announced K else none

/-- The network as a flood of identifiers. -/
def Gossip.flood (s : Gossip V) : Flooding.State V Hash256 where
  has v := {h | ((s.nodes v).chain.state.blocks h).isSome}
  queue := linkOf K s.inFlight

def PeerGraph.copies (v w : V) : ℕ := (G.peers v).count w

/-- Nodes that have just opened their stores, and nothing on its way. -/
structure Gossip.Starts (s : Gossip V) : Prop where
  nodes : ∀ v, (nodeMachine K g).init (s.nodes v)
  flight : s.inFlight = []

/-- What holds of such a network at all times. -/
structure Propagates (s : Gossip V) : Prop where
  calm : ∀ v, Calm K g S (s.nodes v)
  flight : ∀ p ∈ s.inFlight, p.message.isNewTransaction = true ∨
    ∃ b l, p.message = .newBlock b ∧ b ∈ S ∧ Admitted K g S (blockId K b) ((blockId K b, b) :: l)
  flood : (Flooding.machine (ParentIn K S) G.copies).Reach (Flooding.Allowed (ParentIn K S)) (s.flood K)

end Network

variable {K : Crates} {g : GenesisConfig} {S : List Block} {node node' : Node}

/-! ## A node without orphans -/

/-- A branch of a set is determined by its head. -/
theorem ValidSet.unique (hset : ValidSet K g S) {h : Hash256} {l l' : BlockChain}
    (hl : Admitted K g S h l) (hl' : Admitted K g S h l') : l = l' := by
  induction hl generalizing l' with
  | genesis =>
    rcases hl'.head with ⟨-, rfl⟩ | ⟨b, _, -, -, hne, -⟩
    · rfl
    · exact absurd rfl hne
  | @block b l hb hne _ _ ih =>
    rcases hl'.head with ⟨hgen, -⟩ | ⟨x, t', hx, hid, -, rfl, hpar, -⟩
    · exact absurd hgen hne
    · obtain rfl := hset.distinct b hb x hx hid
      rw [ih hpar]

/-- A valid block that is stored is announced. -/
theorem StoredPart.retry_announces (hbound : SupplyBound g) (hset : ValidSet K g S)
    (h : StoredPart K g S node.chain) (hledger : LedgerInv K g node.chain.state) {b : Block}
    (hb : b ∈ S) (hst : Storable K g node.chain.state b) :
    (node.retry K b).1.sent = node.sent ++ [.broadcast (.newBlock b)] := by
  rcases Node.retry_sent_cases h.inv b with
    ⟨-, -, hsent | ⟨⟨e, hres⟩, -⟩⟩ | ⟨hnot, -⟩ | ⟨hnot, -⟩
  · exact hsent
  · -- the move to a heavier branch does not fail, since the branch replays
    exfalso
    obtain ⟨n, t, lo, hcan⟩ := h.inv.canonical
    obtain ⟨lp, a, p, s, hpl⟩ := Placement.exists h.inv.stored hcan hst
    have hbranch := Admitted.block hb (hset.ne_genesis b hb) (h.admitted hpl.parent) hpl.ok
    have hreplay := hpl.simulate_ledger h.inv hledger hcan (hpl.hasRoom hbound h.inv.stored)
    have hsome := hset.valid _ _ hbranch
    rw [← hreplay] at hsome
    rw [submitBlock_storable h.inv hcan hpl, storeOutcome] at hres
    split at hres
    · cases hsim : simulate K g node.chain.state a p with
      | error e =>
        rw [hsim] at hsome
        cases hsome
      | ok overlay =>
        rw [hsim] at hres
        cases hres
    · cases hres
  · exact absurd hst hnot
  · exact absurd hst hnot

/-- Nothing is woken when nothing waits. -/
theorem accept_idle (hidle : ∀ h, node.orphans.waiting h = []) {b : Block}
    (horphans : (node.retry K b).1.orphans = node.orphans) :
    (node.acceptAndBroadcast K b).1.chain = (node.retry K b).1.chain ∧
      (node.acceptAndBroadcast K b).1.sent = (node.retry K b).1.sent ∧
      ∀ h, (node.acceptAndBroadcast K b).1.orphans.waiting h = [] := by
  cases hwake : (node.retry K b).2 with
  | none =>
    rw [accept_of_none hwake, horphans]
    exact ⟨rfl, rfl, hidle⟩
  | some hash =>
    rw [accept_of_idle hwake (by rw [horphans, hidle])]
    refine ⟨rfl, rfl, fun h => ?_⟩
    show Orphans.waiting ((node.retry K b).1.orphans.erase hash) h = []
    rw [Orphans.waiting_erase, horphans, hidle]
    split <;> rfl

theorem Heaviest.congr {st st' : ChainState} (h : Heaviest K g st) (hcore : st'.core = st.core) :
    Heaviest K g st' := by
  intro n t l hcan k l' hl'
  have hblocks := core_blocks hcore
  have hcan' : Canonical K g st n t l :=
    hcan.congr hblocks.symm (core_heights hcore).symm (core_tip hcore).symm
  rw [Branch, hblocks] at hl'
  exact h n t l hcan' k l' hl'

/-- What a calm node does with a block whose parent it has: it stores and announces it, or
nothing happens. -/
theorem Calm.accept (hbound : SupplyBound g) (hset : ValidSet K g S) (h : Calm K g S node)
    {b : Block} (hb : b ∈ S) (hparent : (node.chain.state.blocks b.header.prevHash).isSome) :
    Calm K g S (node.acceptAndBroadcast K b).1 ∧
      ((¬ Storable K g node.chain.state b ∧
          (node.acceptAndBroadcast K b).1.chain.state.blocks = node.chain.state.blocks ∧
          (node.acceptAndBroadcast K b).1.sent = node.sent) ∨
        (Storable K g node.chain.state b ∧
          (node.acceptAndBroadcast K b).1.chain.state.blocks
            = Function.update node.chain.state.blocks (blockId K b) (some b) ∧
          (node.acceptAndBroadcast K b).1.sent = node.sent ++ [.broadcast (.newBlock b)])) := by
  have hinv := h.part.inv
  have horphans : (node.retry K b).1.orphans = node.orphans := by
    rcases Node.retry_sent_cases hinv b with ⟨-, hsame, -⟩ | ⟨-, hdetached, -⟩ | ⟨-, -, hsame, -⟩
    · exact hsame
    · rw [hdetached.parent] at hparent
      cases hparent
    · exact hsame
  obtain ⟨hchain, hsent, hidle⟩ := accept_idle h.idle horphans
  have hroom := roomFor_of_bound hbound hinv b
  have hcore := core_retry (K := K) node b
  refine ⟨⟨(Advances.accept h.inv b).inv, ?_, ?_, ?_, hidle⟩, ?_⟩
  · rw [hchain]
    exact h.part.retry hb
  · rw [hchain]
    exact (LedgerInv.submit hinv h.ledger hroom).congr hcore
  · rw [hchain]
    exact (Heaviest.submit hinv h.ledger h.heaviest hroom).congr hcore
  · rw [hchain, hsent]
    by_cases hst : Storable K g node.chain.state b
    · refine .inr ⟨hst, funext fun k => ?_, h.part.retry_announces hbound hset h.ledger hb hst⟩
      by_cases hk : k = blockId K b
      · rw [hk, Function.update_self, hst.blocks_retry hinv]
      · rw [Function.update_of_ne hk]
        cases hx : node.chain.state.blocks k with
        | none => rw [blocks_retry, blocks_submit_of_ne hinv hx hk]
        | some x => exact blocks_retry_grows hinv hx b
    · refine .inl ⟨hst, ?_, ?_⟩
      · rw [blocks_retry, state_submit_unstorable hinv hst]
      · rcases Node.retry_sent_cases hinv b with ⟨hst', -⟩ | ⟨-, hdetached, -⟩ | ⟨-, -, -, hsame⟩
        · exact absurd hst' hst
        · rw [hdetached.parent] at hparent
          cases hparent
        · exact hsame

theorem Calm.quiet (h : Calm K g S node) (hinv : NodeInv K g node') (hquiet : Quiet node node') :
    Calm K g S node' where
  inv := hinv
  part := ⟨hinv.chain, by rw [core_blocks hquiet.core]; exact h.part.sound⟩
  ledger := h.ledger.congr hquiet.core
  heaviest := h.heaviest.congr hquiet.core
  idle k := by
    rcases hquiet.orphans with hsame | hempty
    · rw [hsame]
      exact h.idle k
    · rw [hempty]
      rfl

/-- A block of a well-formed branch that is not known is stored where its parent is. -/
theorem StoredPart.storable (hset : ValidSet K g S) (h : StoredPart K g S node.chain) {b : Block}
    {l : BlockChain} (hl : Admitted K g S (blockId K b) l) (hb : b ∈ S)
    (hnew : node.chain.state.blocks (blockId K b) = none)
    (hparent : (node.chain.state.blocks b.header.prevHash).isSome) :
    Storable K g node.chain.state b := by
  obtain ⟨q, hq⟩ := Option.isSome_iff_exists.mp hparent
  obtain ⟨m, hm⟩ := h.inv.stored.exists_branch hq
  refine ⟨hnew, _, hm, ?_⟩
  rcases hl.head with ⟨hgen, -⟩ | ⟨x, t, hx, hid, -, -, hpar, hok⟩
  · exact absurd hgen (hset.ne_genesis b hb)
  · obtain rfl := hset.distinct x hx b hb hid.symm
    rw [← hset.unique hpar (h.admitted hm)]
    exact hok

/-! ## Links -/

section Links

variable {V : Type} [DecidableEq V] {G : PeerGraph V} {s s' : Gossip V}

theorem linkOf_append (ps qs : List (Packet V)) (v w : V) :
    linkOf K (ps ++ qs) v w = linkOf K ps v w ++ linkOf K qs v w := List.filterMap_append

theorem linkOf_eq_nil {ps : List (Packet V)} {v w : V}
    (h : ∀ p ∈ ps, p.source = v → p.target = w → p.announced K = none) : linkOf K ps v w = [] := by
  refine List.filterMap_eq_nil_iff.mpr fun p hp => ?_
  split
  · next hlink => exact h p hp hlink.1 hlink.2
  · rfl

/-- An announcement goes out on every link of the node, once for each connection. -/
theorem linkOf_route (u : V) (b : Block) (v w : V) :
    linkOf K (G.route u (.broadcast (.newBlock b))) v w
      = if v = u then List.replicate (G.copies u w) (blockId K b) else [] := by
  rw [PeerGraph.route, PeerGraph.copies]
  by_cases hv : v = u
  · subst hv
    rw [if_pos rfl]
    induction G.peers v with
    | nil => rfl
    | cons x xs ih =>
      rw [List.map_cons, linkOf, List.filterMap_cons, ← linkOf, ih, List.count_cons]
      by_cases hx : x = w
      · simp [hx, Packet.announced, List.replicate_succ]
      · simp [hx]
  · rw [if_neg hv]
    refine linkOf_eq_nil fun p hp hsource => ?_
    exact absurd ((mem_route (m := .broadcast (.newBlock b)) hp).1.symm.trans hsource) fun h => hv h.symm

/-- The oldest packet of a connection is at the head of its link. -/
theorem linkOf_eraseIdx {ps : List (Packet V)} {k : ℕ} {p : Packet V} (hk : ps[k]? = some p)
    (hfirst : ∀ q ∈ ps.take k, ¬ (q.source = p.source ∧ q.target = p.target)) (v w : V) :
    linkOf K ps v w = (if v = p.source ∧ w = p.target then (p.announced K).toList else [])
      ++ linkOf K (ps.eraseIdx k) v w := by
  obtain ⟨hlt, rfl⟩ := List.getElem?_eq_some_iff.mp hk
  have hsplit : ps = ps.take k ++ ps[k] :: ps.drop (k + 1) := by
    rw [← List.drop_eq_getElem_cons hlt, List.take_append_drop]
  have hsingle : linkOf K [ps[k]] v w
      = if v = ps[k].source ∧ w = ps[k].target then (ps[k].announced K).toList else [] := by
    rw [linkOf, List.filterMap_cons, List.filterMap_nil]
    by_cases hlink : v = ps[k].source ∧ w = ps[k].target
    · obtain ⟨rfl, rfl⟩ := hlink
      rw [if_pos ⟨rfl, rfl⟩, if_pos ⟨rfl, rfl⟩]
      cases ps[k].announced K <;> rfl
    · rw [if_neg fun h => hlink ⟨h.1.symm, h.2.symm⟩, if_neg hlink]
  have hlist : linkOf K ps v w
      = linkOf K (ps.take k) v w ++ (linkOf K [ps[k]] v w ++ linkOf K (ps.drop (k + 1)) v w) := by
    rw [← linkOf_append, ← linkOf_append, List.singleton_append, ← hsplit]
  rw [hlist, hsingle, List.eraseIdx_eq_take_drop_succ, linkOf_append]
  split
  · next hlink =>
    obtain ⟨rfl, rfl⟩ := hlink
    rw [linkOf_eq_nil fun q hq hs ht => absurd ⟨hs, ht⟩ (hfirst q hq)]
    rfl
  · rfl

/-- The flood after one node has moved. -/
theorem flood_moved {v : V} (hnodes : s'.nodes = Function.update s.nodes v node')
    {ps qs : List (Packet V)} (hflight : s'.inFlight = ps ++ qs) : s'.flood K =
      { has := Function.update (s.flood K).has v {h | (node'.chain.state.blocks h).isSome}
        queue := fun x y => linkOf K ps x y ++ linkOf K qs x y } := by
  have hhas : (s'.flood K).has
      = Function.update (s.flood K).has v {h | (node'.chain.state.blocks h).isSome} := by
    funext w
    show {h | ((s'.nodes w).chain.state.blocks h).isSome} = _
    rw [hnodes]
    by_cases hw : w = v
    · subst hw
      rw [Function.update_self, Function.update_self]
    · rw [Function.update_of_ne hw, Function.update_of_ne hw]
      rfl
  have hqueue : (s'.flood K).queue = fun x y => linkOf K ps x y ++ linkOf K qs x y := by
    funext x y
    show linkOf K s'.inFlight x y = _
    rw [hflight, linkOf_append]
  rw [← hhas, ← hqueue]

/-- A node that stores nothing and announces nothing. -/
theorem flood_same {v : V} (hnodes : s'.nodes = Function.update s.nodes v node')
    {ps qs : List (Packet V)} (hflight : s'.inFlight = ps ++ qs)
    (hblocks : node'.chain.state.blocks = (s.nodes v).chain.state.blocks)
    (hps : ∀ x y, linkOf K ps x y = (s.flood K).queue x y)
    (hqs : ∀ q ∈ qs, q.announced K = none) : s'.flood K = s.flood K := by
  have hhas : Function.update (s.flood K).has v {h | (node'.chain.state.blocks h).isSome}
      = (s.flood K).has := by
    rw [hblocks]
    exact Function.update_eq_self v _
  have hqueue : (fun x y => linkOf K ps x y ++ linkOf K qs x y) = (s.flood K).queue := by
    funext x y
    rw [hps, linkOf_eq_nil fun q hq _ _ => hqs q hq, List.append_nil]
  rw [flood_moved hnodes hflight, hhas, hqueue]

/-- A node that stores a block and announces it. -/
theorem flood_take {v : V} (hnodes : s'.nodes = Function.update s.nodes v node')
    {ps : List (Packet V)} {b : Block}
    (hflight : s'.inFlight = ps ++ G.route v (.broadcast (.newBlock b)))
    (hblocks : node'.chain.state.blocks
      = Function.update (s.nodes v).chain.state.blocks (blockId K b) (some b)) : s'.flood K =
      (⟨(s.flood K).has, linkOf K ps⟩ : Flooding.State V Hash256).take G.copies v (blockId K b) := by
  have hset : {h | (node'.chain.state.blocks h).isSome}
      = insert (blockId K b) ((s.flood K).has v) := by
    ext h
    show (node'.chain.state.blocks h).isSome ↔ h = blockId K b ∨ ((s.nodes v).chain.state.blocks h).isSome
    rw [hblocks]
    by_cases hh : h = blockId K b
    · rw [hh, Function.update_self]
      simp
    · rw [Function.update_of_ne hh]
      simp [hh]
  rw [flood_moved hnodes hflight, hset, Flooding.State.take]
  congr 1
  funext x y
  rw [linkOf_route]
  by_cases hx : x = v
  · subst hx
    rw [if_pos rfl, Function.update_self]
  · rw [if_neg hx, Function.update_of_ne hx, List.append_nil]

/-! ## Steps -/

theorem step_of_delivered {i : NodeInput} {b : Block} (h : i.delivered = some b) :
    (nodeMachine K g).step node i = (node.acceptAndBroadcast K b).1 := by
  cases i with
  | event event => exact handleEvent_of_delivered h
  | submitTx tx => cases h
  | submitBlock block => cases h; exact submitBlock_fst node b
  | getWork miner now => cases h
  | rebroadcast => cases h
  | restart => cases h

/-- The links without a packet that announces nothing. -/
theorem linkOf_taken {i : NetworkInput V} {v : V} {j : NodeInput} (hat : i.at G s = some (v, j))
    (horder : InOrder s i) (hj : j.delivered = none) (x y : V) :
    linkOf K (i.taken s).inFlight x y = (s.flood K).queue x y := by
  cases i with
  | submitTx v tx => rfl
  | submitBlock v block => rfl
  | getWork v miner now => rfl
  | rebroadcast v => rfl
  | deliver k =>
    obtain ⟨p, hp, heq⟩ := Option.map_eq_some_iff.mp hat
    cases heq
    have hnone : p.announced K = none := by
      rw [Packet.announced]
      cases hm : p.message with
      | newBlock block => rw [hm] at hj; cases hj
      | newTransaction tx => rfl
      | getBlock hash => rfl
      | blockResponse block => rfl
    show _ = linkOf K s.inFlight x y
    rw [linkOf_eraseIdx hp (horder p hp), hnone]
    split <;> rfl

/-- The node that moves is calm again, and so are the others. -/
theorem calm_update (h : ∀ v, Calm K g S (s.nodes v)) {v : V} (hcalm : Calm K g S node') (w : V) :
    Calm K g S (Function.update s.nodes v node' w) := by
  by_cases hw : w = v
  · subst hw
    rwa [Function.update_self]
  · rw [Function.update_of_ne hw]
    exact h w

/-- A step that hands nothing to consensus is no step of the flood. -/
theorem Propagates.step_quiet (h : Propagates K g G S s) {i : NetworkInput V} (horder : InOrder s i)
    {v : V} {j : NodeInput} (hat : i.at G s = some (v, j)) (hj : j.delivered = none) :
    Propagates K g G S ((network K g G).step s i) := by
  obtain ⟨hnodes, hflight, -⟩ := network_step (K := K) (g := g) hat
  have hinv := (h.calm v).inv
  obtain ⟨hquiet, hsent⟩ : Quiet (s.nodes v) ((nodeMachine K g).step (s.nodes v) j) ∧
      ∀ m ∈ (s.nodes v).sentOn K g j, ∃ tx, m = .broadcast (.newTransaction tx) := by
    rcases node_sent_cases hinv j with ⟨b, hb, -⟩ | ⟨-, addr, k, rfl, -⟩ | hquiet
    · rw [hj] at hb
      cases hb
    · -- no request is on its way
      exfalso
      obtain ⟨n, p, -, hp, hmessage⟩ := request_at hat
      rcases h.flight p (List.mem_of_getElem? hp) with htx | ⟨b, l, hnew, -⟩
      · rw [hmessage] at htx
        cases htx
      · rw [hmessage] at hnew
        cases hnew
    · exact hquiet
  have hpackets : ∀ q ∈ ((s.nodes v).sentOn K g j).flatMap (G.route v),
      ∃ tx, q.message = .newTransaction tx := by
    intro q hq
    obtain ⟨m, hm, hq⟩ := List.mem_flatMap.mp hq
    obtain ⟨tx, rfl⟩ := hsent m hm
    exact ⟨tx, (mem_route hq).2.1⟩
  refine ⟨fun w => ?_, fun p hp => ?_, ?_⟩
  · rw [hnodes]
    exact calm_update h.calm ((h.calm v).quiet (Advances.step hinv j).inv hquiet) w
  · rw [hflight] at hp
    rcases List.mem_append.mp hp with hp | hp
    · exact h.flight p (mem_taken hp)
    · obtain ⟨tx, htx⟩ := hpackets p hp
      rw [htx]
      exact .inl rfl
  · rw [flood_same hnodes hflight (core_blocks hquiet.core) (linkOf_taken hat horder hj) ?_]
    · exact h.flood
    · intro q hq
      obtain ⟨tx, htx⟩ := hpackets q hq
      rw [Packet.announced, htx]

/-- A step that hands a block to consensus: either nothing comes of it, or the block is
stored and its announcement is on its way. -/
theorem Propagates.step_block (hbound : SupplyBound g) (hset : ValidSet K g S)
    (h : Propagates K g G S s) {i : NetworkInput V} {v : V} {j : NodeInput}
    (hat : i.at G s = some (v, j)) {b : Block} (hj : j.delivered = some b) (hb : b ∈ S)
    (hparent : ((s.nodes v).chain.state.blocks b.header.prevHash).isSome)
    {f : Flooding.State V Hash256}
    (htaken : (⟨(s.flood K).has, linkOf K (i.taken s).inFlight⟩ : Flooding.State V Hash256) = f)
    (hold : ¬ Storable K g (s.nodes v).chain.state b →
      (Flooding.machine (ParentIn K S) G.copies).Reach (Flooding.Allowed (ParentIn K S)) f)
    (hnew : Storable K g (s.nodes v).chain.state b →
      (Flooding.machine (ParentIn K S) G.copies).Reach (Flooding.Allowed (ParentIn K S))
        (f.take G.copies v (blockId K b))) :
    Propagates K g G S ((network K g G).step s i) := by
  obtain ⟨hnodes, hflight, -⟩ := network_step (K := K) (g := g) hat
  have hstep : (nodeMachine K g).step (s.nodes v) j = ((s.nodes v).acceptAndBroadcast K b).1 :=
    step_of_delivered hj
  obtain ⟨hcalm, hcases⟩ := (h.calm v).accept hbound hset hb hparent
  rw [hstep] at hnodes
  have hcalms : ∀ w, Calm K g S (((network K g G).step s i).nodes w) := by
    rw [hnodes]
    exact calm_update h.calm hcalm
  rcases hcases with ⟨hst, hblocks, hsent⟩ | ⟨hst, hblocks, hsent⟩
  · rw [sentOn_nil (by rw [hstep, hsent]), List.flatMap_nil] at hflight
    refine ⟨hcalms, fun p hp => ?_, ?_⟩
    · rw [hflight, List.append_nil] at hp
      exact h.flight p (mem_taken hp)
    · have hflood : ((network K g G).step s i).flood K = f := by
        rw [flood_moved hnodes hflight, ← htaken, hblocks]
        congr 1
        · exact Function.update_eq_self v _
        · funext x y
          exact List.append_nil _
      rw [hflood]
      exact hold hst
  · rw [sentOn_append (by rw [hstep, hsent]), List.flatMap_singleton] at hflight
    refine ⟨hcalms, fun p hp => ?_, ?_⟩
    · rw [hflight] at hp
      rcases List.mem_append.mp hp with hp | hp
      · exact h.flight p (mem_taken hp)
      · -- the block is stored, so its branch is one of the set
        rw [(mem_route hp).2.1]
        have hget : ((s.nodes v).acceptAndBroadcast K b).1.chain.state.blocks (blockId K b) = some b := by
          rw [hblocks, Function.update_self]
        obtain ⟨l, hl⟩ := hcalm.part.inv.stored.exists_branch hget
        exact .inr ⟨b, l, rfl, hb, hcalm.part.admitted hl⟩
    · rw [flood_take hnodes hflight hblocks, htaken]
      exact hnew hst

/-- **A step of the network is one of the flood, or none.** -/
theorem Propagates.step (hbound : SupplyBound g) (hset : ValidSet K g S)
    (h : Propagates K g G S s) {i : NetworkInput V} (hi : MinedInOrder S s i) :
    Propagates K g G S ((network K g G).step s i) := by
  cases hat : i.at G s with
  | none =>
    rw [(network_idle hat).1]
    exact h
  | some move =>
    obtain ⟨v, j⟩ := move
    cases hj : j.delivered with
    | none => exact h.step_quiet hi.1 hat hj
    | some b =>
      rcases delivered_at hat hj with rfl | ⟨k, p, rfl, hp, hpay⟩
      · -- a miner hands in a block
        obtain ⟨hb, hparent⟩ := hi.2 v b rfl
        refine h.step_block hbound hset hat hj hb hparent (f := s.flood K) rfl (fun _ => h.flood)
          fun hst => ?_
        have hnew : blockId K b ∉ (s.flood K).has v := by
          show ¬ ((s.nodes v).chain.state.blocks (blockId K b)).isSome
          rw [hst.1]
          exact Bool.false_ne_true
        have hpublish : (Flooding.machine (ParentIn K S) G.copies).step (s.flood K)
            (.publish v (blockId K b)) = _ := Flooding.step_publish hnew
        rw [← hpublish]
        refine .step _ h.flood fun d ⟨x, hx, hid, hd⟩ => ?_
        rw [hset.distinct x hx b hb hid] at hd
        rw [← hd]
        exact hparent
      · -- an announcement arrives
        rcases h.flight p (List.mem_of_getElem? hp) with htx | ⟨x, l, hmessage, hb, hl⟩
        · cases hm : p.message with
          | newTransaction tx => rw [hm] at hpay; cases hpay
          | newBlock block => rw [hm] at htx; cases htx
          | getBlock hash => rw [hm] at htx; cases htx
          | blockResponse block => rw [hm] at htx; cases htx
        obtain rfl : x = b := by
          rw [hmessage] at hpay
          exact Option.some.inj hpay
        obtain rfl : p.target = v := by
          rw [NetworkInput.at, hp, Option.map_some] at hat
          exact (Prod.mk.inj (Option.some.inj hat)).1
        have hannounced : p.announced K = some (blockId K x) := by
          rw [Packet.announced, hmessage]
        have hqueue : (s.flood K).queue p.source p.target
            = blockId K x :: linkOf K (s.inFlight.eraseIdx k) p.source p.target := by
          show linkOf K s.inFlight p.source p.target = _
          rw [linkOf_eraseIdx hp (hi.1 p hp), if_pos ⟨rfl, rfl⟩, hannounced]
          rfl
        have hpop : (⟨(s.flood K).has, linkOf K (s.inFlight.eraseIdx k)⟩ :
            Flooding.State V Hash256) = (s.flood K).pop p.source p.target := by
          rw [Flooding.State.mk.injEq]
          refine ⟨rfl, funext fun y => funext fun z => ?_⟩
          show _ = ((s.flood K).pop p.source p.target).queue y z
          rw [Flooding.queue_pop hqueue]
          split
          · next heq => rw [heq.1, heq.2]
          · next hne =>
            show _ = linkOf K s.inFlight y z
            rw [linkOf_eraseIdx hp (hi.1 p hp), if_neg hne]
            rfl
        have hparent : ((s.nodes p.target).chain.state.blocks x.header.prevHash).isSome :=
          (Flooding.reach_inv h.flood).ready hqueue ⟨x, hb, rfl, rfl⟩
        refine h.step_block hbound hset hat hj hb hparent hpop (fun hst => ?_) fun hst => ?_
        · have hknown : blockId K x ∈ (s.flood K).has p.target := by
            by_contra hnew
            refine hst ((h.calm p.target).part.storable hset hl hb ?_ hparent)
            exact Option.not_isSome_iff_eq_none.mp hnew
          have hdeliver : (Flooding.machine (ParentIn K S) G.copies).step (s.flood K)
              (.deliver p.source p.target) = _ := Flooding.step_deliver_known hqueue hknown
          rw [← hdeliver]
          exact .step _ h.flood trivial
        · have hnew : blockId K x ∉ (s.flood K).has p.target := by
            show ¬ ((s.nodes p.target).chain.state.blocks (blockId K x)).isSome
            rw [hst.1]
            exact Bool.false_ne_true
          have hdeliver : (Flooding.machine (ParentIn K S) G.copies).step (s.flood K)
              (.deliver p.source p.target) = _ := Flooding.step_deliver_new hqueue hnew
          rw [← hdeliver]
          exact .step _ h.flood trivial

/-! ## Runs -/

/-- A node that has just opened its store. -/
theorem Calm.start (hbound : SupplyBound g) (hinit : (nodeMachine K g).init node) :
    Calm K g S node := by
  obtain ⟨c, hc, rfl⟩ := id hinit
  have hinv := nodeInv (.init hinit)
  refine ⟨hinv, ⟨hinv.chain, fun h b hb hne => ?_⟩, ledgerInv hbound (.init hc),
    Ondris.heaviest hbound (.init hc), fun h => rfl⟩
  exact absurd (hb.symm.trans ((openDb_canonical hc).2.2 h hne)) (Option.some_ne_none b)

/-- The items that nodes have when they start. -/
theorem has_start (hinit : (nodeMachine K g).init node) (h : Hash256) :
    (node.chain.state.blocks h).isSome ↔ h = g.genesisHash K := by
  obtain ⟨c, hc, rfl⟩ := hinit
  obtain ⟨hstored, -, honly⟩ := openDb_canonical hc
  refine ⟨fun hsome => ?_, fun hgen => ?_⟩
  · by_contra hne
    rw [show (Node.start c).chain = c from rfl, honly h hne] at hsome
    cases hsome
  · rw [hgen, show (Node.start c).chain = c from rfl, hstored.genesis]
    rfl

theorem Propagates.start (hbound : SupplyBound g) (hset : ValidSet K g S) (hstart : s.Starts K g) :
    Propagates K g G S s where
  calm v := .start hbound (hstart.nodes v)
  flight p hp := by
    rw [hstart.flight] at hp
    cases hp
  flood := by
    refine .init ⟨fun v w => ?_, fun v w => ?_, fun v h hh d ⟨b, hb, hid, _⟩ => ?_⟩
    · ext h
      exact (has_start (hstart.nodes v) h).trans (has_start (hstart.nodes w) h).symm
    · show linkOf K s.inFlight v w = []
      rw [hstart.flight]
      rfl
    · -- genesis depends on no block of the set
      have hgen := (has_start (hstart.nodes v) h).mp hh
      exact absurd (hid.trans hgen) (hset.ne_genesis b hb)

theorem propagates (hbound : SupplyBound g) (hset : ValidSet K g S) {s₀ : Gossip V}
    (hstart : s₀.Starts K g) (hs : ((network K g G).startingAt s₀).Reach (MinedInOrder S) s) :
    Propagates K g G S s := by
  induction hs with
  | init hinit =>
    cases hinit
    exact .start hbound hset hstart
  | step i _ hi h => exact h.step hbound hset hi

/-- **No block is ever an orphan.** -/
theorem never_orphaned (hbound : SupplyBound g) (hset : ValidSet K g S) {s₀ : Gossip V}
    (hstart : s₀.Starts K g) (hs : ((network K g G).startingAt s₀).Reach (MinedInOrder S) s) :
    (∀ v h, (s.nodes v).orphans.waiting h = []) ∧
      ∀ p ∈ s.inFlight, p.message.isNewTransaction = true ∨ ∃ b ∈ S, p.message = .newBlock b :=
  have h := propagates hbound hset hstart hs
  ⟨fun v => (h.calm v).idle, fun p hp => (h.flight p hp).imp_right fun ⟨b, _, hmessage, hb, _⟩ =>
    ⟨b, hb, hmessage⟩⟩

/-- Stores with the same blocks. -/
theorem Calm.agree (h : Calm K g S node) (h' : Calm K g S node')
    (hblocks : node.chain.state.blocks = node'.chain.state.blocks)
    (hunique : UniqueHeaviest K g node.chain.state) :
    node.chain.state.tip = node'.chain.state.tip ∧
      node.chain.state.heights = node'.chain.state.heights ∧
      ∀ addr, node.chain.state.getAccount addr = node'.chain.state.getAccount addr := by
  have hmax : ∀ {node : Node}, Calm K g S node → ∀ {n t l}, Canonical K g node.chain.state n t l →
      ValidBranch K g node.chain.state l ∧
        ∀ l', ValidBranch K g node.chain.state l' → branchWork l' ≤ branchWork l := by
    intro node h n t l hcan
    refine ⟨⟨⟨t, hcan.branch⟩, ?_⟩, fun l' ⟨⟨k, hl'⟩, hvalid⟩ => h.heaviest n t l hcan k l' hl' hvalid⟩
    rw [(h.ledger n t l hcan).2]
    rfl
  have hvalid : ∀ l, ValidBranch K g node.chain.state l ↔ ValidBranch K g node'.chain.state l := by
    intro l
    simp only [ValidBranch, Branch, hblocks]
  obtain ⟨n, t, l, hcan⟩ := h.part.inv.canonical
  obtain ⟨n', t', l', hcan'⟩ := h'.part.inv.canonical
  obtain ⟨hl', hmax'⟩ := hmax h' hcan'
  obtain rfl : l = l' := hunique.unique (hmax h hcan)
    ⟨(hvalid l').mpr hl', fun m hm => hmax' m ((hvalid m).mp hm)⟩
  obtain ⟨htip, hheights⟩ := hcan.agree hcan'
  refine ⟨htip, hheights, ChainState.getAccount_eq_of_ledger ?_⟩
  have hledger := (h.ledger n t l hcan).2
  rw [(h'.ledger n' t' l hcan').2] at hledger
  exact (Option.some.inj hledger).symm

/-- **Connected nodes agree when no block is on its way.** -/
theorem quiet_agree (hbound : SupplyBound g) (hset : ValidSet K g S) {s₀ : Gossip V}
    (hstart : s₀.Starts K g) (hs : ((network K g G).startingAt s₀).Reach (MinedInOrder S) s)
    (hquiet : ∀ p ∈ s.inFlight, p.message.isNewTransaction = true) {v w : V}
    (hpath : Relation.ReflTransGen (fun v w => w ∈ G.peers v) v w) :
    (s.nodes v).chain.state.blocks = (s.nodes w).chain.state.blocks ∧
      (UniqueHeaviest K g (s.nodes v).chain.state →
        (s.nodes v).chain.state.tip = (s.nodes w).chain.state.tip ∧
        (s.nodes v).chain.state.heights = (s.nodes w).chain.state.heights ∧
        ∀ addr, (s.nodes v).chain.state.getAccount addr
          = (s.nodes w).chain.state.getAccount addr) := by
  have h := propagates hbound hset hstart hs
  have hempty : ∀ x y, (s.flood K).queue x y = [] := by
    refine fun x y => linkOf_eq_nil fun p hp _ _ => ?_
    have htx := hquiet p hp
    rw [Packet.announced]
    cases hm : p.message with
    | newBlock block => rw [hm] at htx; cases htx
    | newTransaction tx => rfl
    | getBlock hash => rfl
    | blockResponse block => rfl
  have hlinks : (fun v w => 0 < G.copies v w) = fun v w => w ∈ G.peers v := by
    funext v w
    exact propext List.count_pos_iff
  have hhas : (s.flood K).has v = (s.flood K).has w := by
    refine (Flooding.reach_inv h.flood).agree hempty (fun x y hxy => ?_) (hlinks ▸ hpath)
    exact List.count_pos_iff.mpr (G.symm (List.count_pos_iff.mp hxy))
  have hblocks : (s.nodes v).chain.state.blocks = (s.nodes w).chain.state.blocks := by
    funext k
    have hiff : ((s.nodes v).chain.state.blocks k).isSome
        ↔ ((s.nodes w).chain.state.blocks k).isSome := Set.ext_iff.mp hhas k
    cases hx : (s.nodes v).chain.state.blocks k with
    | none =>
      rw [hx] at hiff
      exact (Option.not_isSome_iff_eq_none.mp fun hsome => Bool.false_ne_true (hiff.mpr hsome)).symm
    | some x =>
      obtain ⟨y, hy⟩ := Option.isSome_iff_exists.mp (hiff.mp (by rw [hx]; rfl))
      rw [hy]
      have hstored := (h.calm v).part.inv.stored
      have hstored' := (h.calm w).part.inv.stored
      by_cases hgen : k = g.genesisHash K
      · subst hgen
        rw [← hx, ← hy, hstored.genesis, hstored'.genesis]
      · -- blocks of one identifier are one block
        obtain ⟨lx, -, hxok⟩ := hstored.stored k x hx hgen
        obtain ⟨ly, -, hyok⟩ := hstored'.stored k y hy hgen
        rw [hset.distinct x ((h.calm v).part.sound k x hx hgen) y
          ((h.calm w).part.sound k y hy hgen) (hxok.id.trans hyok.id.symm)]
  exact ⟨hblocks, (h.calm v).agree (h.calm w) hblocks⟩

end Links

/-! ## Two nodes and one block -/

theorem ValidSet.mono {T : List Block} (hset : ValidSet K g T) (hsub : ∀ b ∈ S, b ∈ T) :
    ValidSet K g S where
  distinct x hx y hy := hset.distinct x (hsub x hx) y (hsub y hy)
  ne_genesis b hb := hset.ne_genesis b (hsub b hb)
  valid h l hl := hset.valid h l (hl.mono hsub)

theorem validSet_fork : ValidSet smallCrates smallGenesis forkBlocks := by
  obtain ⟨lt, hset⟩ := blockSet_fork
  refine ⟨hset.distinct, hset.ne_genesis, fun h l hl => branchLedger_isSome (hl.transactions ?_)⟩
  intro b hb
  simp only [forkBlocks, List.mem_cons, List.not_mem_nil, or_false] at hb
  rcases hb with rfl | rfl | rfl <;> rfl

theorem validSet_single : ValidSet smallCrates smallGenesis [forkB1] := by
  refine validSet_fork.mono fun b hb => ?_
  rw [List.mem_singleton.mp hb]
  simp [forkBlocks]

theorem starts_pair : pairStart.Starts smallCrates smallGenesis := ⟨fun _ => init_smallNode, rfl⟩

/-- One of the nodes mines a block, and what is sent is delivered. -/
def pairInputs : List (NetworkInput Bool) := [.submitBlock true forkB1, .deliver 0, .deliver 0]

def pairEnd : Gossip Bool := (network smallCrates smallGenesis pairGraph).run pairStart pairInputs

theorem reach_pairEnd : ((network smallCrates smallGenesis pairGraph).startingAt pairStart).Reach
    (MinedInOrder [forkB1]) pairEnd := by
  have horder : ∀ s : Gossip Bool, MinedInOrder [forkB1] s (.deliver 0) :=
    fun s => ⟨fun p _ q hq => absurd hq List.not_mem_nil, fun v b h => by cases h⟩
  have hsubmit : MinedInOrder [forkB1] pairStart (.submitBlock true forkB1) := by
    refine ⟨trivial, ?_⟩
    rintro v b ⟨⟩
    exact ⟨List.mem_singleton_self _, (has_start init_smallNode _).mpr rfl⟩
  rw [pairEnd, pairInputs, Machine.run_cons, Machine.run_cons, Machine.run_cons, Machine.run_nil]
  refine .step_startingAt _ (.step_startingAt _ (.step_startingAt _ (.init rfl) hsubmit) ?_) ?_
  · exact horder _
  · exact horder _

/-- A delivery to one of the two, with what it answers. -/
theorem pair_step {s : Gossip Bool} {i : NetworkInput Bool} {v : Bool} {j : NodeInput}
    (hat : i.at pairGraph s = some (v, j)) {b : Block} (hj : j.delivered = some b)
    {m m' : Node} (hv : s.nodes v = m) (hm : (m.acceptAndBroadcast smallCrates b).1 = m')
    (messages : List Message) (hsent : m'.sent = m.sent ++ messages.map .broadcast) :
    (network smallCrates smallGenesis pairGraph).step s i = ⟨Function.update s.nodes v m',
      (i.taken s).inFlight ++ messages.map fun m => ⟨v, !v, m⟩⟩ := by
  subst hv hm
  obtain ⟨hnodes, hflight, -⟩ := network_step (K := smallCrates) (g := smallGenesis) hat
  have hstep : (nodeMachine smallCrates smallGenesis).step (s.nodes v) j
      = ((s.nodes v).acceptAndBroadcast smallCrates b).1 := step_of_delivered hj
  rw [hstep] at hnodes
  rw [sentOn_append (by rw [hstep, hsent])] at hflight
  have hroute : (messages.map Sent.broadcast).flatMap (pairGraph.route v)
      = messages.map fun m => ⟨v, !v, m⟩ := by
    rw [List.flatMap_map, List.map_eq_flatMap]
    rfl
  rw [hroute] at hflight
  rw [← hnodes, ← hflight]

theorem storable_forkB1 : Storable smallCrates smallGenesis smallNode.chain.state forkB1 := by
  have hinv := chainInv (.init init_small)
  refine ⟨?_, _, hinv.stored.genesis_branch, ?_⟩
  · rw [blockId_forkB1]
    exact canonical_smallOpen.2 _ (nonceId_ne_genesisHash 2)
  · rw [blockId_forkB1]
    exact emptyBlock_ok _ _ (by decide) (by decide)

/-- The block goes there and back, and then nothing is on its way. -/
theorem pairEnd_eq : pairEnd.inFlight = [] ∧
    (pairEnd.nodes true).chain.state.blocks (nonceId 2) = some forkB1 := by
  have hcalm : Calm smallCrates smallGenesis [forkB1] smallNode :=
    .start supplyBound_small init_smallNode
  have hmem : forkB1 ∈ [forkB1] := List.mem_singleton_self _
  have hparent : (smallNode.chain.state.blocks forkB1.header.prevHash).isSome :=
    (has_start init_smallNode _).mpr rfl
  obtain ⟨hafter, hcases⟩ := hcalm.accept supplyBound_small validSet_single hmem hparent
  rcases hcases with ⟨hnot, -⟩ | ⟨-, hblocks, hsent⟩
  · exact absurd storable_forkB1 hnot
  obtain ⟨node, hnode⟩ : ∃ node, (smallNode.acceptAndBroadcast smallCrates forkB1).1 = node :=
    ⟨_, rfl⟩
  rw [hnode] at hafter hblocks hsent
  -- the miner sends the block to its peer
  have hfirst : (network smallCrates smallGenesis pairGraph).step pairStart (.submitBlock true forkB1)
      = ⟨Function.update pairStart.nodes true node, [⟨true, false, .newBlock forkB1⟩]⟩ :=
    pair_step (j := .submitBlock forkB1) (b := forkB1) (m := smallNode) rfl rfl rfl hnode
      [.newBlock forkB1] hsent
  -- which sends it back
  have hsecond : (network smallCrates smallGenesis pairGraph).step
      ⟨Function.update pairStart.nodes true node, [⟨true, false, .newBlock forkB1⟩]⟩ (.deliver 0)
      = ⟨Function.update (Function.update pairStart.nodes true node) false node,
        [⟨false, true, .newBlock forkB1⟩]⟩ :=
    pair_step (j := .event (.newBlock forkB1)) (b := forkB1) (m := smallNode) rfl rfl rfl hnode
      [.newBlock forkB1] hsent
  -- where it is known
  have hgot : node.chain.state.blocks (nonceId 2) = some forkB1 := by
    rw [hblocks, blockId_forkB1, Function.update_self]
  have hgenesis : (node.chain.state.blocks forkB1.header.prevHash).isSome := by
    rw [show forkB1.header.prevHash = smallGenesis.genesisHash smallCrates from rfl,
      hafter.inv.chain.stored.genesis]
    rfl
  rcases (hafter.accept supplyBound_small validSet_single hmem hgenesis).2 with
    ⟨-, hblocks', hsent'⟩ | ⟨hst, -⟩
  · obtain ⟨node', hnode'⟩ : ∃ node', (node.acceptAndBroadcast smallCrates forkB1).1 = node' :=
      ⟨_, rfl⟩
    rw [hnode'] at hblocks' hsent'
    have hthird : (network smallCrates smallGenesis pairGraph).step
        ⟨Function.update (Function.update pairStart.nodes true node) false node,
          [⟨false, true, .newBlock forkB1⟩]⟩ (.deliver 0)
        = ⟨Function.update (Function.update (Function.update pairStart.nodes true node) false node)
          true node', []⟩ :=
      pair_step (j := .event (.newBlock forkB1)) (b := forkB1) (m := node) rfl rfl rfl hnode' []
        (by rw [hsent', List.map_nil, List.append_nil])
    rw [pairEnd, pairInputs, Machine.run_cons, Machine.run_cons, Machine.run_cons, Machine.run_nil,
      hfirst, hsecond, hthird]
    have hlast : Function.update (Function.update (Function.update pairStart.nodes true node) false node)
        true node' true = node' := Function.update_self ..
    refine ⟨rfl, ?_⟩
    rw [← hlast] at hblocks'
    rw [hblocks', hgot]
  · rw [Storable, blockId_forkB1, hgot] at hst
    cases hst.1

theorem never_orphaned_pair : (pairEnd.nodes true).orphans.waiting (nonceId 2) = [] ∧
    (pairEnd.nodes false).orphans.waiting (nonceId 2) = [] :=
  have hidle := (never_orphaned supplyBound_small validSet_single starts_pair reach_pairEnd).1
  ⟨hidle true _, hidle false _⟩

/-- The block is the only one past genesis, so its branch is the heaviest. -/
theorem uniqueHeaviest_pairEnd :
    UniqueHeaviest smallCrates smallGenesis (pairEnd.nodes true).chain.state := by
  have hcalm := (propagates supplyBound_small validSet_single starts_pair reach_pairEnd).calm true
  have hstored := hcalm.part.inv.stored
  -- a branch is genesis or genesis with the block
  have honly : ∀ h l, Branch smallCrates smallGenesis (pairEnd.nodes true).chain.state h l →
      l = [(smallGenesis.genesisHash smallCrates, smallGenesis.genesisBlock)] ∨
        l = [(nonceId 2, forkB1), (smallGenesis.genesisHash smallCrates, smallGenesis.genesisBlock)] := by
    intro h l hl
    rcases (hcalm.part.admitted hl).head with ⟨-, rfl⟩ | ⟨b, t, hb, rfl, -, rfl, ht, -⟩
    · exact .inl rfl
    · obtain rfl := List.mem_singleton.mp hb
      rw [admitted_genesis_unique ht, blockId_forkB1]
      exact .inr rfl
  obtain ⟨l, hl⟩ := hstored.exists_branch pairEnd_eq.2
  have hvalid : ValidBranch smallCrates smallGenesis (pairEnd.nodes true).chain.state
      [(nonceId 2, forkB1), (smallGenesis.genesisHash smallCrates, smallGenesis.genesisBlock)] := by
    rcases honly _ _ hl with heq | heq
    · cases (congrArg (fun l => l.map Prod.fst) heq)
    · rw [heq] at hl
      exact ⟨⟨_, hl⟩, rfl⟩
  refine ⟨_, ⟨hvalid, fun l' hl' => ?_⟩, fun l' hl' => ?_⟩
  · obtain ⟨⟨h, hl'⟩, -⟩ := hl'
    rcases honly h l' hl' with rfl | rfl
    · decide
    · exact Nat.le_refl _
  · obtain ⟨⟨⟨h, hl'⟩, -⟩, hmax⟩ := hl'
    rcases honly h l' hl' with rfl | rfl
    · exact absurd (hmax _ hvalid) (by decide)
    · rfl

theorem quiet_agree_pair :
    (pairEnd.nodes true).chain.state.tip = (pairEnd.nodes false).chain.state.tip ∧
      (pairEnd.nodes true).chain.state.getAccount forkB1.header.miner
        = (pairEnd.nodes false).chain.state.getAccount forkB1.header.miner := by
  have hpath : Relation.ReflTransGen (fun v w => w ∈ pairGraph.peers v) true false :=
    .single (by decide)
  have hquiet : ∀ p ∈ pairEnd.inFlight, p.message.isNewTransaction = true := by
    rw [pairEnd_eq.1]
    exact fun p hp => absurd hp List.not_mem_nil
  obtain ⟨htip, -, haccounts⟩ := (quiet_agree supplyBound_small validSet_single starts_pair
    reach_pairEnd hquiet hpath).2 uniqueHeaviest_pairEnd
  exact ⟨htip, haccounts _⟩

end Ondris
