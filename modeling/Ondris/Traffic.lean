import Mathlib.Algebra.BigOperators.Group.Finset.Basic
import Mathlib.Algebra.Group.Action.Defs
import Mathlib.Algebra.Order.BigOperators.Group.Finset
import Mathlib.Data.Finset.Lattice.Fold
import Mathlib.Data.Fintype.Basic
import Mathlib.Order.Lattice.Nat
import Ondris.Announce
import Ondris.Gossip

/-!
# Block traffic

The nodes of a network with all that they do: calls by miners and wallets, the
rebroadcast of pending transactions, and messages that are delivered in any order.
Blocks that are missing are requested from all peers, so one message can cause many;
but every request asks for a block further down.

Results:
1. `Confined.step`: without new submissions no step brings in a block that was not
   there, and a block in flight is stored where it comes from.
2. `traffic_step`: what is in flight, with what it can still cause, and what is not
   yet stored bound the messages about blocks.
3. `block_traffic_ends`: once no more blocks are submitted, a bounded number of
   messages about blocks is sent, whatever the order of delivery.
-/

namespace Ondris

/-! ## The network -/

inductive NetworkInput (V : Type)
  | submitTx (v : V) (tx : Transaction)
  | submitBlock (v : V) (block : Block)
  | getWork (v : V) (miner : Bytes) (now : UInt64)
  | rebroadcast (v : V)
  | deliver (k : ℕ)

section Network

variable {V : Type} (K : Crates) (g : GenesisConfig) (G : PeerGraph V)

/-- The node that acts, and what happens to it. -/
def NetworkInput.at (s : Gossip V) : NetworkInput V → Option (V × NodeInput)
  | .submitTx v tx => some (v, .submitTx tx)
  | .submitBlock v block => some (v, .submitBlock block)
  | .getWork v miner now => some (v, .getWork miner now)
  | .rebroadcast v => some (v, .rebroadcast)
  | .deliver k => s.inFlight[k]?.map fun p => (p.target, .event (p.message.event (G.addr p.source)))

/-- The messages in flight without the one that is delivered. -/
def NetworkInput.taken (s : Gossip V) : NetworkInput V → Gossip V
  | .deliver k => { s with inFlight := s.inFlight.eraseIdx k }
  | _ => s

/-- Nodes of one genesis, each with a past of its own, as a machine; its output are the
messages that a step sends. -/
def network [DecidableEq V] : Machine (Gossip V) (NetworkInput V) (List (Packet V)) where
  init s := s.inFlight = [] ∧ ∀ v, (nodeMachine K g).Reachable (s.nodes v)
  step s i :=
    match i.at G s with
    | some (v, j) => (i.taken s).moved G v ((nodeMachine K g).step (s.nodes v) j)
    | none => s
  out s i :=
    match i.at G s with
    | some (v, j) => G.sentSince v (s.nodes v) ((nodeMachine K g).step (s.nodes v) j)
    | none => []

/-- No block is handed in by a miner. -/
def NetworkInput.NoBlock : NetworkInput V → Prop
  | .submitBlock _ _ => False
  | _ => True

/-- The number of messages about blocks that are sent in a run. -/
def blockMessages [DecidableEq V] (s : Gossip V) (is : List (NetworkInput V)) : ℕ :=
  ((network K g G).outputs s is).flatten.countP fun p => !p.message.isNewTransaction

end Network

/-- The block is stored or waits for its parent. -/
def Node.Holds (node : Node) (x : Block) : Prop :=
  (∃ h, node.chain.state.blocks h = some x) ∨ ∃ h, x ∈ node.orphans.waiting h

/-- Some node holds the block. -/
def Gossip.Holds {V : Type} (s : Gossip V) (x : Block) : Prop := ∃ v, (s.nodes v).Holds x

/-- The block that a message carries. -/
def Message.payload : Message → Option Block
  | .newBlock block => some block
  | .blockResponse block => block
  | _ => none

def Sent.message : Sent → Message
  | .broadcast message => message
  | .sendTo _ message => message

/-- The nodes hold no block but those of `U`, and what is in flight is stored where it
comes from. -/
structure Confined {V : Type} (K : Crates) (g : GenesisConfig) (U : Finset Block) (s : Gossip V) :
    Prop where
  node : ∀ v, NodeInv K g (s.nodes v)
  kept : ∀ v, Kept K g (s.nodes v) []
  held : ∀ x, s.Holds x → x ∈ U
  flight : ∀ p ∈ s.inFlight, ∀ x, p.message.payload = some x →
    ∃ h, (s.nodes p.source).chain.state.blocks h = some x

/-! ## What one message can cause -/

/-- The number of messages about blocks that a block of height `n` can cause by going
missing: a request to `D` peers, a reply to each, and what each reply causes. -/
def burden (D : ℕ) : ℕ → ℕ
  | 0 => 0
  | n + 1 => D * (1 + D * (1 + burden D n))

theorem burden_mono (D : ℕ) : Monotone (burden D) := by
  refine monotone_nat_of_le_succ fun n => ?_
  induction n with
  | zero => exact Nat.zero_le _
  | succ n ih =>
    show D * (1 + D * (1 + burden D n)) ≤ D * (1 + D * (1 + burden D (n + 1)))
    gcongr

section Cost

variable (K : Crates) (U : Finset Block) (D : ℕ)

/-- The largest height of a block with the identifier. -/
def rank (hash : Hash256) : ℕ :=
  (U.filter fun x => blockId K x = hash).sup fun x => x.header.height.toNat

/-- The number of messages about blocks that a message can cause, those of newly stored
blocks aside. -/
def Message.cost : Message → ℕ
  | .newBlock block => burden D block.header.height.toNat
  | .blockResponse (some block) => burden D block.header.height.toNat
  | .blockResponse none => 0
  | .getBlock hash => D * (1 + burden D (rank K U hash))
  | .newTransaction _ => 0

/-- A message about blocks and what it can cause. -/
def Message.weight (m : Message) : ℕ := if m.isNewTransaction then 0 else 1 + m.cost K U D

/-- What a message weighs once it goes to its peers. -/
def Sent.weight : Sent → ℕ
  | .broadcast message => D * message.weight K U D
  | .sendTo _ message => D * message.weight K U D

/-- The blocks of `U` that the node does not have yet. -/
def missing (node : Node) : ℕ :=
  ((U.image (blockId K)).filter fun h => node.chain.state.blocks h = none).card

end Cost

variable {V : Type} {K : Crates} {g : GenesisConfig} {G : PeerGraph V} {U : Finset Block}
  {s s' : Gossip V} {node node' : Node} {D : ℕ}

/-! ## No block comes from nowhere -/

theorem holds_retry (hc : ChainInv K g node.chain) {b x : Block}
    (h : (node.retry K b).1.Holds x) : node.Holds x ∨ x = b := by
  rcases h with ⟨k, hk⟩ | ⟨k, hk⟩
  · rw [blocks_retry] at hk
    rcases submit_blocks_cases hc hk with hold | ⟨-, rfl⟩
    · exact .inl (.inl ⟨k, hold⟩)
    · exact .inr rfl
  · rcases Node.retry_sent_cases hc b with ⟨-, hsame, -⟩ | ⟨-, -, -, hpush, -⟩ | ⟨-, -, hsame, -⟩
    · rw [hsame] at hk
      exact .inl (.inr ⟨k, hk⟩)
    · rw [hpush, Orphans.waiting_push] at hk
      split at hk
      · rcases List.mem_append.mp hk with hk | hk
        · exact .inl (.inr ⟨_, hk⟩)
        · exact .inr (List.mem_singleton.mp hk)
      · exact .inl (.inr ⟨k, hk⟩)
    · rw [hsame] at hk
      exact .inl (.inr ⟨k, hk⟩)

theorem holds_erase {k : Hash256} {x : Block}
    (h : ({ node with orphans := node.orphans.erase k } : Node).Holds x) : node.Holds x := by
  rcases h with hx | ⟨k', hk'⟩
  · exact .inl hx
  · rw [Orphans.waiting_erase] at hk'
    split at hk'
    · cases hk'
    · exact .inr ⟨k', hk'⟩

/-- A delivery brings in the delivered block and no other. -/
theorem holds_accept (hc : ChainInv K g node.chain) {b x : Block}
    (h : (node.acceptAndBroadcast K b).1.Holds x) : node.Holds x ∨ x = b := by
  obtain ⟨-, hheld, -⟩ := (node.loop_acceptAndBroadcast b).invariant (Q := fun _ => True)
    (I := fun m items _ => ChainInv K g m.chain ∧ (∀ y, m.Holds y → node.Holds y ∨ y = b) ∧
      ∀ i ∈ items, node.Holds i ∨ i = b)
    (fun m i items queue _ ⟨hinv, hheld, hitems⟩ => by
      refine ⟨hinv.retry i, fun y hy => ?_, fun y hy => hitems y (List.mem_cons_of_mem _ hy)⟩
      rcases holds_retry hinv hy with hy | rfl
      · exact hheld y hy
      · exact hitems y List.mem_cons_self)
    (fun m k queue ⟨hinv, hheld, _⟩ =>
      ⟨hinv, fun y hy => hheld y (holds_erase hy), fun y hy => hheld y (.inr ⟨k, hy⟩)⟩)
    (fun _ _ => trivial)
    ⟨hc, fun y hy => .inl hy, fun i hi => .inr (List.mem_singleton.mp hi)⟩
  exact hheld x h

theorem Quiet.holds (h : Quiet node node') {x : Block} (hx : node'.Holds x) : node.Holds x := by
  rcases hx with ⟨k, hk⟩ | ⟨k, hk⟩
  · rw [core_blocks h.core] at hk
    exact .inl ⟨k, hk⟩
  · rcases h.orphans with hsame | hempty
    · rw [hsame] at hk
      exact .inr ⟨k, hk⟩
    · rw [hempty] at hk
      exact absurd hk List.not_mem_nil

theorem holds_step (h : NodeInv K g node) {i : NodeInput} {x : Block}
    (hx : ((nodeMachine K g).step node i).Holds x) : node.Holds x ∨ i.delivered = some x := by
  rcases node_sent_cases h i with ⟨b, hb, hstep⟩ | ⟨hquiet, -⟩ | ⟨hquiet, -⟩
  · rw [hstep] at hx
    rcases holds_accept h.chain hx with hold | rfl
    · exact .inl hold
    · exact .inr hb
  · exact .inl (hquiet.holds hx)
  · exact .inl (hquiet.holds hx)

theorem blocks_step_grows (h : NodeInv K g node) (hkept : Kept K g node []) (i : NodeInput)
    {k : Hash256} {x : Block} (hx : node.chain.state.blocks k = some x) :
    ((nodeMachine K g).step node i).chain.state.blocks k = some x := by
  rcases node_sent_cases h i with ⟨b, hb, hstep⟩ | ⟨hquiet, -⟩ | ⟨hquiet, -⟩
  · rw [hstep]
    rcases Node.accept_cases hkept b with ⟨-, hblocks, -⟩ | ⟨xs, hxs⟩
    · rw [hblocks, hx]
    · exact hxs.grows k x hx
  · rw [core_blocks hquiet.core, hx]
  · rw [core_blocks hquiet.core, hx]

/-- A node sends only blocks that it has stored. -/
theorem payload_sentOn (h : NodeInv K g node) (hkept : Kept K g node []) {i : NodeInput} {m : Sent}
    (hm : m ∈ node.sentOn K g i) {x : Block} (hx : m.message.payload = some x) :
    ∃ k, ((nodeMachine K g).step node i).chain.state.blocks k = some x := by
  rcases node_sent_cases h i with ⟨b, -, hstep⟩ | ⟨hquiet, addr, k, -, hsent⟩ | ⟨-, hsent⟩
  · rcases Node.accept_cases hkept b with ⟨-, -, -, hsent⟩ | ⟨xs, hxs⟩
    · rw [sentOn_append (by rw [hstep, hsent])] at hm
      rw [List.mem_singleton.mp hm] at hx
      cases hx
    · rw [sentOn_append (by rw [hstep, hxs.sent])] at hm
      obtain ⟨y, hy, rfl⟩ := List.mem_map.mp hm
      cases hx
      rw [hstep]
      exact ⟨_, hxs.stored x hy⟩
  · rw [hsent] at hm
    rw [List.mem_singleton.mp hm] at hx
    refine ⟨k, ?_⟩
    rw [core_blocks hquiet.core]
    exact hx
  · obtain ⟨tx, rfl⟩ := hsent m hm
    cases hx

/-! ## What is still to come -/

/-- What is announced was missing. -/
theorem Announces.missing_add_length {xs : List Block} (h : Announces K node node' xs)
    (hU : ∀ x ∈ xs, x ∈ U) : missing K U node' + xs.length ≤ missing K U node := by
  have hcard : xs.length = (xs.map (blockId K)).toFinset.card := by
    rw [List.toFinset_card_of_nodup h.nodup, List.length_map]
  have hdisjoint : Disjoint
      ((U.image (blockId K)).filter fun k => node'.chain.state.blocks k = none)
      (xs.map (blockId K)).toFinset := by
    rw [Finset.disjoint_left]
    intro k hk hmem
    obtain ⟨x, hx, rfl⟩ := List.mem_map.mp (List.mem_toFinset.mp hmem)
    have hnone := (Finset.mem_filter.mp hk).2
    rw [h.stored x hx] at hnone
    cases hnone
  rw [missing, missing, hcard, ← Finset.card_union_of_disjoint hdisjoint]
  refine Finset.card_le_card fun k hk => ?_
  rcases Finset.mem_union.mp hk with hk | hk
  · obtain ⟨hk, hnone⟩ := Finset.mem_filter.mp hk
    refine Finset.mem_filter.mpr ⟨hk, ?_⟩
    cases hx : node.chain.state.blocks k with
    | none => rfl
    | some x =>
      rw [h.grows k x hx] at hnone
      cases hnone
  · obtain ⟨x, hx, rfl⟩ := List.mem_map.mp (List.mem_toFinset.mp hk)
    exact Finset.mem_filter.mpr ⟨Finset.mem_image_of_mem _ (hU x hx), h.fresh x hx⟩

/-- The height that no block of `U` exceeds. -/
def topHeight (U : Finset Block) : ℕ := U.sup fun x => x.header.height.toNat

/-- What the announcements still to come can cause. -/
def load (K : Crates) (U : Finset Block) (D : ℕ) (node : Node) : ℕ :=
  missing K U node * (D * (1 + burden D (topHeight U)))

theorem load_congr (h : node'.chain.state.blocks = node.chain.state.blocks) :
    load K U D node' = load K U D node := by
  rw [load, load, missing, missing, h]

/-- The weight of announcements is taken from what was still to come. -/
theorem Announces.weight {xs : List Block} (h : Announces K node node' xs)
    (hU : ∀ x ∈ xs, x ∈ U) :
    ((xs.map fun x => Sent.broadcast (.newBlock x)).map (Sent.weight K U D)).sum
      + load K U D node' ≤ load K U D node := by
  have hsum : ((xs.map fun x => Sent.broadcast (.newBlock x)).map (Sent.weight K U D)).sum
      ≤ xs.length * (D * (1 + burden D (topHeight U))) := by
    rw [List.map_map]
    refine (List.sum_le_card_nsmul _ (D * (1 + burden D (topHeight U))) fun w hw => ?_).trans_eq ?_
    · obtain ⟨x, hx, rfl⟩ := List.mem_map.mp hw
      have hheight : x.header.height.toNat ≤ topHeight U :=
        Finset.le_sup (f := fun x : Block => x.header.height.toNat) (hU x hx)
      have hburden := burden_mono D hheight
      show D * (1 + burden D x.header.height.toNat) ≤ _
      gcongr
    · rw [List.length_map, smul_eq_mul]
  have hmissing := h.missing_add_length hU
  calc ((xs.map fun x => Sent.broadcast (.newBlock x)).map (Sent.weight K U D)).sum
        + load K U D node'
      ≤ xs.length * (D * (1 + burden D (topHeight U))) + load K U D node' := by gcongr
    _ = (missing K U node' + xs.length) * (D * (1 + burden D (topHeight U))) := by
        rw [load, Nat.add_mul, Nat.add_comm]
    _ ≤ load K U D node := Nat.mul_le_mul_right _ hmissing

/-! ## Weights -/

/-- The largest number of peers. -/
def PeerGraph.degree [Fintype V] (G : PeerGraph V) : ℕ := Finset.univ.sup fun v => (G.peers v).length

/-- What a packet weighs. -/
def Packet.weight (K : Crates) (U : Finset Block) (D : ℕ) (p : Packet V) : ℕ :=
  p.message.weight K U D

/-- What is in flight can still cause, and what the nodes do not have yet. -/
def Gossip.potential [Fintype V] (K : Crates) (U : Finset Block) (D : ℕ) (s : Gossip V) : ℕ :=
  (s.inFlight.map fun p => p.message.cost K U D).sum + ∑ v, load K U D (s.nodes v)

theorem mem_route {v : V} {m : Sent} {p : Packet V} (h : p ∈ G.route v m) :
    p.source = v ∧ p.message = m.message ∧ p.target ∈ G.peers v := by
  cases m with
  | broadcast message =>
    obtain ⟨w, hw, rfl⟩ := List.mem_map.mp h
    exact ⟨rfl, rfl, hw⟩
  | sendTo addr message =>
    obtain ⟨w, hw, rfl⟩ := List.mem_map.mp h
    exact ⟨rfl, rfl, (List.mem_filter.mp hw).1⟩

theorem weight_route [Fintype V] (v : V) (m : Sent) :
    ((G.route v m).map (Packet.weight K U G.degree)).sum ≤ m.weight K U G.degree := by
  have hpeers : (G.peers v).length ≤ G.degree :=
    Finset.le_sup (f := fun v => (G.peers v).length) (Finset.mem_univ v)
  have hlen : (G.route v m).length ≤ G.degree := by
    cases m with
    | broadcast message => rwa [PeerGraph.route, List.length_map]
    | sendTo addr message =>
      rw [PeerGraph.route, List.length_map]
      exact (List.length_filter_le _ _).trans hpeers
  have hweight : ∀ w ∈ (G.route v m).map (Packet.weight K U G.degree),
      w ≤ m.message.weight K U G.degree := by
    intro w hw
    obtain ⟨p, hp, rfl⟩ := List.mem_map.mp hw
    rw [Packet.weight, (mem_route hp).2.1]
  have hsum := List.sum_le_card_nsmul _ _ hweight
  rw [List.length_map, smul_eq_mul] at hsum
  refine hsum.trans ?_
  cases m with
  | broadcast message => exact Nat.mul_le_mul_right _ hlen
  | sendTo addr message => exact Nat.mul_le_mul_right _ hlen

theorem weight_flatMap_route [Fintype V] (v : V) (ms : List Sent) :
    ((ms.flatMap (G.route v)).map (Packet.weight K U G.degree)).sum
      ≤ (ms.map (Sent.weight K U G.degree)).sum := by
  induction ms with
  | nil => exact Nat.le_refl 0
  | cons m ms ih =>
    rw [List.flatMap_cons, List.map_append, List.sum_append, List.map_cons, List.sum_cons]
    exact Nat.add_le_add (weight_route v m) ih

/-- The weight of packets is their number and what they can cause, transactions aside. -/
theorem sum_weight (ps : List (Packet V)) : (ps.map (Packet.weight K U D)).sum
    = ps.countP (fun p => !p.message.isNewTransaction)
      + (ps.map fun p => p.message.cost K U D).sum := by
  induction ps with
  | nil => rfl
  | cons p ps ih =>
    rw [List.map_cons, List.sum_cons, List.countP_cons, List.map_cons, List.sum_cons, ih,
      Packet.weight, Message.weight]
    cases hp : p.message with
    | newTransaction tx => simp [Message.isNewTransaction, Message.cost]
    | newBlock block => simp [Message.isNewTransaction]; omega
    | getBlock hash => simp [Message.isNewTransaction]; omega
    | blockResponse block => simp [Message.isNewTransaction]; omega

/-! ## Steps of the network -/

theorem nodes_taken (s : Gossip V) (i : NetworkInput V) : (i.taken s).nodes = s.nodes := by
  cases i <;> rfl

theorem mem_taken {s : Gossip V} {i : NetworkInput V} {p : Packet V}
    (h : p ∈ (i.taken s).inFlight) : p ∈ s.inFlight := by
  cases i with
  | deliver k => exact List.mem_of_mem_eraseIdx h
  | submitTx v tx => exact h
  | submitBlock v block => exact h
  | getWork v miner now => exact h
  | rebroadcast v => exact h

/-- What a step hands to consensus was in flight, or is submitted now. -/
theorem delivered_at {i : NetworkInput V} {v : V} {j : NodeInput} (h : i.at G s = some (v, j))
    {x : Block} (hx : j.delivered = some x) : i = .submitBlock v x ∨
      ∃ k p, i = .deliver k ∧ s.inFlight[k]? = some p ∧ p.message.payload = some x := by
  cases i with
  | submitTx v tx => cases h; cases hx
  | submitBlock v block => cases h; cases hx; exact .inl rfl
  | getWork v miner now => cases h; cases hx
  | rebroadcast v => cases h; cases hx
  | deliver k =>
    obtain ⟨p, hp, heq⟩ := Option.map_eq_some_iff.mp h
    cases heq
    refine .inr ⟨k, p, rfl, hp, ?_⟩
    cases hm : p.message with
    | newBlock block => rw [hm] at hx; exact hx
    | newTransaction tx => rw [hm] at hx; cases hx
    | getBlock hash => rw [hm] at hx; cases hx
    | blockResponse block => rw [hm] at hx; exact hx

/-- A request that is answered was in flight. -/
theorem request_at {i : NetworkInput V} {v : V} {addr : SocketAddr} {hash : Hash256}
    (h : i.at G s = some (v, .event (.getBlockRequest addr hash))) :
    ∃ k p, i = .deliver k ∧ s.inFlight[k]? = some p ∧ p.message = .getBlock hash := by
  cases i with
  | submitTx v tx => cases h
  | submitBlock v block => cases h
  | getWork v miner now => cases h
  | rebroadcast v => cases h
  | deliver k =>
    obtain ⟨p, hp, heq⟩ := Option.map_eq_some_iff.mp h
    refine ⟨k, p, rfl, hp, ?_⟩
    cases hm : p.message with
    | newBlock block => rw [hm] at heq; cases heq
    | newTransaction tx => rw [hm] at heq; cases heq
    | getBlock hash => rw [hm] at heq; cases heq; rfl
    | blockResponse block => rw [hm] at heq; cases heq

/-! ## Requests go down -/

/-- Blocks of different heights have different identifiers. -/
def LevelIds (K : Crates) (U : Finset Block) : Prop :=
  ∀ x ∈ U, ∀ y ∈ U, blockId K x = blockId K y → x.header.height = y.header.height

/-- A block that is asked for and answered has at most the rank of the request. -/
theorem Confined.height_le_rank (h : Confined K g U s) {v : V} {k : Hash256} {x : Block}
    (hx : (s.nodes v).chain.state.blocks k = some x) : x.header.height.toNat ≤ rank K U k := by
  have hs := (h.node v).chain.stored
  by_cases hk : k = g.genesisHash K
  · rw [hk, hs.genesis] at hx
    cases hx
    exact Nat.zero_le _
  · obtain ⟨l, -, hok⟩ := hs.stored k x hx hk
    refine Finset.le_sup (f := fun x : Block => x.header.height.toNat) (Finset.mem_filter.mpr ?_)
    exact ⟨h.held x ⟨v, .inl ⟨k, hx⟩⟩, hok.id⟩

/-- The parent of a block that comes from a store is lower. -/
theorem Confined.rank_parent (h : Confined K g U s) (hids : LevelIds K U) {u v : V} {k : Hash256}
    {x : Block} (hx : (s.nodes u).chain.state.blocks k = some x)
    (hdetached : Detached (s.nodes v).chain.state x) :
    rank K U x.header.prevHash + 1 ≤ x.header.height.toNat := by
  have hs := (h.node u).chain.stored
  have hne : k ≠ g.genesisHash K := by
    rintro rfl
    rw [hs.genesis] at hx
    cases hx
    exact hdetached.height rfl
  have hparent : x.header.prevHash ≠ g.genesisHash K := by
    intro hgen
    have hnone := hdetached.parent
    rw [hgen, (h.node v).chain.stored.genesis] at hnone
    cases hnone
  obtain ⟨l, hl, hok⟩ := hs.stored k x hx hne
  obtain ⟨y, t, hy, rfl⟩ := hl.head
  obtain ⟨_, -, hyok⟩ := hs.stored _ y hy hparent
  have hheight : x.header.height.toNat = y.header.height.toNat + 1 := by
    rw [hok.height, hs.height_eq hl, List.length_map, List.length_cons]
  rw [hheight]
  refine Nat.succ_le_succ (Finset.sup_le fun z hz => ?_)
  -- blocks of this identifier have one height
  obtain ⟨hz, hid⟩ := Finset.mem_filter.mp hz
  rw [hids z hz y (h.held y ⟨u, .inl ⟨_, hy⟩⟩) (hid.trans hyok.id.symm)]

/-- A message that carries a block costs what the height of the block says. -/
theorem Message.cost_payload {m : Message} {x : Block} (h : m.payload = some x) :
    m.cost K U D = burden D x.header.height.toNat := by
  cases m with
  | newBlock block => cases h; rfl
  | newTransaction tx => cases h
  | getBlock hash => cases h
  | blockResponse block =>
    obtain rfl : block = some x := h
    rfl

/-- What the delivered message could cause. -/
def NetworkInput.received (K : Crates) (U : Finset Block) (D : ℕ) (s : Gossip V) :
    NetworkInput V → ℕ
  | .deliver k => (s.inFlight[k]?.map fun p => p.message.cost K U D).getD 0
  | _ => 0

theorem received_add_taken (s : Gossip V) (i : NetworkInput V) :
    i.received K U D s + ((i.taken s).inFlight.map fun p => p.message.cost K U D).sum
      = (s.inFlight.map fun p => p.message.cost K U D).sum := by
  cases i with
  | deliver k =>
    rcases Nat.lt_or_ge k s.inFlight.length with hk | hk
    · have hperm := (List.getElem_cons_eraseIdx_perm hk).map fun p => p.message.cost K U D
      rw [NetworkInput.received, List.getElem?_eq_getElem hk, ← hperm.sum_eq]
      rfl
    · rw [NetworkInput.received, List.getElem?_eq_none hk, NetworkInput.taken,
        List.eraseIdx_of_length_le hk]
      exact Nat.zero_add _
  | submitTx v tx => exact Nat.zero_add _
  | submitBlock v block => exact Nat.zero_add _
  | getWork v miner now => exact Nat.zero_add _
  | rebroadcast v => exact Nat.zero_add _

/-- What a step of one node sends is paid for by what it received, or by the blocks that
are no longer missing. -/
theorem step_weight (h : Confined K g U s) (hids : LevelIds K U) {i : NetworkInput V} {v : V}
    {j : NodeInput} (hat : i.at G s = some (v, j)) (hi : i.NoBlock) :
    (((s.nodes v).sentOn K g j).map (Sent.weight K U D)).sum
        + load K U D ((nodeMachine K g).step (s.nodes v) j)
      ≤ i.received K U D s + load K U D (s.nodes v) := by
  have hinv := h.node v
  rcases node_sent_cases hinv j with ⟨b, hb, hstep⟩ | ⟨hquiet, addr, k, rfl, hsent⟩ | ⟨hquiet, hsent⟩
  · -- a block is delivered: it is known, it is an orphan, or it is stored
    rcases delivered_at hat hb with rfl | ⟨n, p, rfl, hp, hpay⟩
    · exact absurd hi id
    obtain ⟨k, hk⟩ := h.flight p (List.mem_of_getElem? hp) b hpay
    have hreceived : NetworkInput.received K U D s (.deliver n : NetworkInput V)
        = burden D b.header.height.toNat := by
      rw [NetworkInput.received, hp, Option.map_some, Option.getD_some, Message.cost_payload hpay]
    rcases Node.accept_cases (h.kept v) b with ⟨hdetached, hblocks, -, hsent⟩ | ⟨xs, hxs⟩
    · have hon : (s.nodes v).sentOn K g j = [.broadcast (.getBlock b.header.prevHash)] :=
        sentOn_append (by rw [hstep, hsent])
      have hrank := burden_mono D (h.rank_parent hids hk hdetached)
      rw [hon, hstep, load_congr hblocks, hreceived]
      exact Nat.add_le_add_right hrank _
    · have hon : (s.nodes v).sentOn K g j = xs.map fun x => .broadcast (.newBlock x) :=
        sentOn_append (by rw [hstep, hxs.sent])
      have hU : ∀ x ∈ xs, x ∈ U := by
        intro x hx
        have hheld : (((s.nodes v).acceptAndBroadcast K b).1).Holds x := .inl ⟨_, hxs.stored x hx⟩
        rcases holds_accept hinv.chain hheld with hold | rfl
        · exact h.held x ⟨v, hold⟩
        · exact h.held x ⟨p.source, .inl ⟨k, hk⟩⟩
      rw [hon, hstep]
      exact (hxs.weight hU).trans (Nat.le_add_left _ _)
  · -- a request is answered
    obtain ⟨n, p, rfl, hp, hmessage⟩ := request_at hat
    have hcost : (Message.blockResponse ((s.nodes v).chain.state.getBlock k)).cost K U D
        ≤ burden D (rank K U k) := by
      cases hx : (s.nodes v).chain.state.getBlock k with
      | none => exact Nat.zero_le _
      | some x => exact burden_mono D (h.height_le_rank hx)
    rw [hsent, load_congr (core_blocks hquiet.core), NetworkInput.received, hp, Option.map_some,
      Option.getD_some, hmessage]
    refine Nat.add_le_add_right ?_ _
    exact Nat.mul_le_mul_left D (Nat.add_le_add_left hcost 1)
  · -- transactions cost nothing
    have hzero : (((s.nodes v).sentOn K g j).map (Sent.weight K U D)).sum = 0 := by
      refine List.sum_eq_zero fun w hw => ?_
      obtain ⟨m, hm, rfl⟩ := List.mem_map.mp hw
      obtain ⟨tx, rfl⟩ := hsent m hm
      exact Nat.mul_zero D
    rw [hzero, load_congr (core_blocks hquiet.core), Nat.zero_add]
    exact Nat.le_add_left _ _

/-! ## Runs -/

variable [DecidableEq V]

/-- One node makes a step, and what it sends is in flight. -/
theorem network_step {i : NetworkInput V} {v : V} {j : NodeInput} (h : i.at G s = some (v, j)) :
    ((network K g G).step s i).nodes
        = Function.update s.nodes v ((nodeMachine K g).step (s.nodes v) j) ∧
      ((network K g G).step s i).inFlight
        = (i.taken s).inFlight ++ ((s.nodes v).sentOn K g j).flatMap (G.route v) ∧
      (network K g G).out s i = ((s.nodes v).sentOn K g j).flatMap (G.route v) := by
  have hstep : (network K g G).step s i
      = (i.taken s).moved G v ((nodeMachine K g).step (s.nodes v) j) := by simp only [network, h]
  have hout : (network K g G).out s i
      = G.sentSince v (s.nodes v) ((nodeMachine K g).step (s.nodes v) j) := by
    simp only [network, h]
  rw [hstep, hout, Gossip.moved, nodes_taken]
  exact ⟨rfl, rfl, rfl⟩

theorem network_idle {i : NetworkInput V} (h : i.at G s = none) :
    (network K g G).step s i = s ∧ (network K g G).out s i = [] := by
  simp only [network, h, and_self]

/-- No step brings in a block that is not submitted. -/
theorem Confined.step (h : Confined K g U s) {i : NetworkInput V}
    (hi : ∀ v b, i = .submitBlock v b → b ∈ U) : Confined K g U ((network K g G).step s i) := by
  cases hat : i.at G s with
  | none =>
    rw [(network_idle hat).1]
    exact h
  | some move =>
    obtain ⟨v, j⟩ := move
    obtain ⟨hnodes, hflight, -⟩ := network_step (K := K) (g := g) hat
    have hinv := h.node v
    have hkept := h.kept v
    have hgrows : ∀ w k x, (s.nodes w).chain.state.blocks k = some x →
        (((network K g G).step s i).nodes w).chain.state.blocks k = some x := by
      intro w k x hx
      rw [hnodes]
      by_cases hw : w = v
      · subst hw
        rw [Function.update_self]
        exact blocks_step_grows hinv hkept j hx
      · rwa [Function.update_of_ne hw]
    refine ⟨fun w => ?_, fun w => ?_, fun x ⟨w, hx⟩ => ?_, fun p hp x hx => ?_⟩
    · rw [hnodes]
      by_cases hw : w = v
      · subst hw
        rw [Function.update_self]
        exact (Advances.step hinv j).inv
      · rw [Function.update_of_ne hw]
        exact h.node w
    · rw [hnodes]
      by_cases hw : w = v
      · subst hw
        rw [Function.update_self]
        exact hkept.step hinv j
      · rw [Function.update_of_ne hw]
        exact h.kept w
    · rw [hnodes] at hx
      by_cases hw : w = v
      · subst hw
        rw [Function.update_self] at hx
        rcases holds_step hinv hx with hold | hnew
        · exact h.held x ⟨w, hold⟩
        · rcases delivered_at hat hnew with rfl | ⟨k, p, -, hp, hpay⟩
          · exact hi w x rfl
          · exact h.held x ⟨p.source, .inl (h.flight p (List.mem_of_getElem? hp) x hpay)⟩
      · rw [Function.update_of_ne hw] at hx
        exact h.held x ⟨w, hx⟩
    · rw [hflight] at hp
      rcases List.mem_append.mp hp with hp | hp
      · obtain ⟨k, hk⟩ := h.flight p (mem_taken hp) x hx
        exact ⟨k, hgrows _ k x hk⟩
      · obtain ⟨m, hm, hp⟩ := List.mem_flatMap.mp hp
        obtain ⟨hsource, hmessage, -⟩ := mem_route hp
        rw [hmessage] at hx
        rw [hsource, hnodes, Function.update_self]
        exact payload_sentOn hinv hkept hm hx

variable [Fintype V]

/-- A step sends no more about blocks than what it takes off the potential. -/
theorem traffic_step (h : Confined K g U s) (hids : LevelIds K U) {i : NetworkInput V}
    (hi : i.NoBlock) :
    ((network K g G).out s i).countP (fun p => !p.message.isNewTransaction)
        + ((network K g G).step s i).potential K U G.degree ≤ s.potential K U G.degree := by
  cases hat : i.at G s with
  | none =>
    rw [(network_idle hat).1, (network_idle hat).2, List.countP_nil, Nat.zero_add]
  | some move =>
    obtain ⟨v, j⟩ := move
    obtain ⟨hnodes, hflight, hout⟩ := network_step (K := K) (g := g) hat
    have hweight := step_weight (D := G.degree) h hids hat hi
    have hpackets := weight_flatMap_route (U := U) (K := K) (G := G) v ((s.nodes v).sentOn K g j)
    have hsplit := sum_weight (K := K) (U := U) (D := G.degree)
      (((s.nodes v).sentOn K g j).flatMap (G.route v))
    have htaken := received_add_taken (K := K) (U := U) (D := G.degree) s i
    -- only the load of the node that acts changes
    have hload : ∑ w, load K U G.degree (((network K g G).step s i).nodes w) + load K U G.degree (s.nodes v)
        = ∑ w, load K U G.degree (s.nodes w)
          + load K U G.degree ((nodeMachine K g).step (s.nodes v) j) := by
      rw [hnodes, ← Finset.add_sum_erase _ _ (Finset.mem_univ v),
        ← Finset.add_sum_erase (a := v) _ (fun w => load K U G.degree (s.nodes w)) (Finset.mem_univ v),
        Function.update_self]
      have hrest : ∑ w ∈ Finset.univ.erase v, load K U G.degree
            (Function.update s.nodes v ((nodeMachine K g).step (s.nodes v) j) w)
          = ∑ w ∈ Finset.univ.erase v, load K U G.degree (s.nodes w) := by
        refine Finset.sum_congr rfl fun w hw => ?_
        rw [Function.update_of_ne (Finset.ne_of_mem_erase hw)]
      rw [hrest]
      omega
    rw [hout, Gossip.potential, Gossip.potential, hflight, List.map_append, List.sum_append]
    omega

/-- Without new submissions the messages about blocks are bounded by the potential. -/
theorem traffic_le_potential (h : Confined K g U s) (hids : LevelIds K U)
    (is : List (NetworkInput V)) (his : ∀ i ∈ is, i.NoBlock) :
    blockMessages K g G s is ≤ s.potential K U G.degree := by
  induction is generalizing s with
  | nil => exact Nat.zero_le _
  | cons i is ih =>
    have hi := his i List.mem_cons_self
    have hnext : Confined K g U ((network K g G).step s i) := h.step fun v b heq => by
      subst heq
      exact absurd hi id
    have hrest := ih hnext fun i hi => his i (List.mem_cons_of_mem _ hi)
    have hstep := traffic_step (G := G) h hids hi
    have hcons : blockMessages K g G s (i :: is)
        = ((network K g G).out s i).countP (fun p => !p.message.isNewTransaction)
          + blockMessages K g G ((network K g G).step s i) is := by
      rw [blockMessages, Machine.outputs, List.flatten_cons, List.countP_append]
      rfl
    omega

/-- A node holds finitely many blocks. -/
theorem exists_held (hn : (nodeMachine K g).Reachable node) :
    ∃ U : Finset Block, ∀ x, node.Holds x → x ∈ U := by
  refine Machine.Reach.invariant (P := fun node : Node => ∃ U : Finset Block, ∀ x, node.Holds x → x ∈ U)
    (fun node hinit => ?_) (fun node i hr _ ⟨U, hU⟩ => ?_) hn
  · obtain ⟨c, hc, rfl⟩ := hinit
    refine ⟨{g.genesisBlock}, fun x hx => Finset.mem_singleton.mpr ?_⟩
    rcases hx with ⟨k, hk⟩ | ⟨k, hk⟩
    · by_cases hgen : k = g.genesisHash K
      · have hstored := (chainInv (.init hc)).stored.genesis
        rw [← hgen] at hstored
        exact Option.some.inj (hk.symm.trans hstored)
      · have hnone := (openDb_canonical hc).2.2 k hgen
        exact absurd (hk.symm.trans hnone) (Option.some_ne_none x)
    · exact absurd hk List.not_mem_nil
  · cases hb : i.delivered with
    | none =>
      refine ⟨U, fun x hx => ?_⟩
      rcases holds_step (nodeInv hr) hx with hold | hnew
      · exact hU x hold
      · rw [hb] at hnew
        cases hnew
    | some b =>
      refine ⟨insert b U, fun x hx => ?_⟩
      rcases holds_step (nodeInv hr) hx with hold | hnew
      · exact Finset.mem_insert_of_mem (hU x hold)
      · rw [hb] at hnew
        cases hnew
        exact Finset.mem_insert_self _ _

theorem exists_confined (hs : (network K g G).Reachable s) :
    ∃ U, Confined K g U s := by
  refine Machine.Reach.invariant (P := fun s => ∃ U, Confined K g U s) (fun s hinit => ?_)
    (fun s i _ _ ⟨U, hU⟩ => ?_) hs
  · obtain ⟨hflight, hnodes⟩ := hinit
    choose W hW using fun v => exists_held (hnodes v)
    refine ⟨Finset.univ.biUnion W, fun v => nodeInv (hnodes v), fun v => kept_reachable (hnodes v),
      fun x ⟨v, hx⟩ => ?_, fun p hp => ?_⟩
    · exact Finset.mem_biUnion.mpr ⟨v, Finset.mem_univ v, hW v x hx⟩
    · rw [hflight] at hp
      cases hp
  · cases i with
    | submitBlock v b =>
      refine ⟨insert b U, Confined.step ⟨hU.node, hU.kept, fun x hx => ?_, hU.flight⟩ ?_⟩
      · exact Finset.mem_insert_of_mem (hU.held x hx)
      · intro w x heq
        cases heq
        exact Finset.mem_insert_self _ _
    | submitTx v tx => exact ⟨U, hU.step fun w x heq => by cases heq⟩
    | getWork v miner now => exact ⟨U, hU.step fun w x heq => by cases heq⟩
    | rebroadcast v => exact ⟨U, hU.step fun w x heq => by cases heq⟩
    | deliver k => exact ⟨U, hU.step fun w x heq => by cases heq⟩

/-- **Block traffic ends.** After any past of the network, with orphans buffered and
requests under way, once no more blocks are submitted only so many messages about blocks
are sent, in whatever order they are delivered and whatever happens to transactions. No
two held blocks of different heights share an identifier. -/
theorem block_traffic_ends (hs : (network K g G).Reachable s)
    (hids : ∀ x y, s.Holds x → s.Holds y → blockId K x = blockId K y →
      x.header.height = y.header.height) :
    ∃ bound, ∀ is : List (NetworkInput V), (∀ i ∈ is, i.NoBlock) → blockMessages K g G s is ≤ bound := by
  classical
  obtain ⟨U, hU⟩ := exists_confined hs
  -- only what is held counts
  have hheld : Confined K g (U.filter fun x => s.Holds x) s :=
    ⟨hU.node, hU.kept, fun x hx => Finset.mem_filter.mpr ⟨hU.held x hx, hx⟩, hU.flight⟩
  have hlevel : LevelIds K (U.filter fun x => s.Holds x) := fun x hx y hy =>
    hids x y (Finset.mem_filter.mp hx).2 (Finset.mem_filter.mp hy).2
  exact ⟨_, fun is his => traffic_le_potential hheld hlevel is his⟩

/-- A block whose parent neither of two nodes has: it is requested, and that ends. -/
theorem block_traffic_ends_pair : ∃ bound, ∀ is : List (NetworkInput Bool), (∀ i ∈ is, i.NoBlock) →
    blockMessages smallCrates smallGenesis pairGraph
      ((network smallCrates smallGenesis pairGraph).step pairStart (.submitBlock true forkB2)) is
      ≤ bound := by
  have hinit : (nodeMachine smallCrates smallGenesis).Reachable smallNode :=
    .init ⟨smallOpen, init_small, rfl⟩
  have hstart : (network smallCrates smallGenesis pairGraph).Reachable pairStart :=
    .init ⟨rfl, fun _ => hinit⟩
  refine block_traffic_ends (hstart.step _) fun x y hx hy hid => ?_
  have hgenesis : ∀ x, smallNode.Holds x → x = smallGenesis.genesisBlock := by
    rintro x (⟨k, hk⟩ | ⟨k, hk⟩)
    · by_cases hgen : k = smallGenesis.genesisHash smallCrates
      · have hstored := (chainInv (.init init_small)).stored.genesis
        rw [← hgen] at hstored
        exact Option.some.inj (hk.symm.trans hstored)
      · exact absurd (hk.symm.trans (canonical_smallOpen.2 k hgen)) (Option.some_ne_none x)
    · exact absurd hk List.not_mem_nil
  -- the nodes hold the block that was handed in and genesis
  have honly : ∀ x, ((network smallCrates smallGenesis pairGraph).step pairStart
      (.submitBlock true forkB2)).Holds x → x = forkB2 ∨ x = smallGenesis.genesisBlock := by
    rintro x ⟨v, hx⟩
    rw [(network_step (v := true) (j := .submitBlock forkB2) rfl).1] at hx
    by_cases hv : v = true
    · subst hv
      rw [Function.update_self] at hx
      rcases holds_step (nodeInv hinit) hx with hold | hnew
      · exact .inr (hgenesis x hold)
      · exact .inl (Option.some.inj hnew).symm
    · rw [Function.update_of_ne hv] at hx
      exact .inr (hgenesis x hx)
  rw [blockId_small, blockId_small] at hid
  have hnonce := nonceId_injective hid
  rcases honly x hx with rfl | rfl <;> rcases honly y hy with rfl | rfl <;>
    first | rfl | exact absurd hnonce (by decide)

end Ondris
