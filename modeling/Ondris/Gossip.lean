import Ondris.Mempool

/-!
# Transaction gossip

Nodes that run the event loop, connected in pairs. A message that a node hands to its
network is in flight until it is delivered to the peer, where it is an event of the event
loop. The order of delivery is arbitrary: a schedule names the message that comes next by
its position among those in flight. The rebroadcast timer is left aside.

Results:
1. `deliver_newTransaction`: the delivery of a signed transaction puts it in flight to
   every peer of the receiver, the sender among them.
2. `gossip_dies_out_iff`: the gossip started by `submit_tx` ends exactly if the node that
   took the transaction in has no peer.
-/

namespace Ondris

/-! ## Networks of nodes -/

/-- The connections between nodes, and the address under which each is known. A
connection is used in both directions. -/
structure PeerGraph (V : Type) where
  peers : V → List V
  addr : V → SocketAddr
  symm : ∀ {v w}, w ∈ peers v → v ∈ peers w

/-- A message on its way. -/
structure Packet (V : Type) where
  source : V
  target : V
  message : Message
deriving DecidableEq

structure Gossip (V : Type) where
  nodes : V → Node
  inFlight : List (Packet V)

inductive GossipInput (V : Type)
  | submitTx (v : V) (tx : Transaction)
  | deliver (k : ℕ)

/-- The event that the read loop of a connection emits for a message. -/
def Message.event (peerAddr : SocketAddr) : Message → NetworkEvent
  | .newBlock block => .newBlock block
  | .newTransaction tx => .newTransaction tx
  | .getBlock hash => .getBlockRequest peerAddr hash
  | .blockResponse block => .blockResponse block

def Message.isNewTransaction : Message → Bool
  | .newTransaction _ => true
  | _ => false

section Network

variable {V : Type} (K : Crates) (G : PeerGraph V)

/-- `broadcast` reaches all peers, `send_to` the one with the address. -/
def PeerGraph.route (v : V) : Sent → List (Packet V)
  | .broadcast message => (G.peers v).map fun w => ⟨v, w, message⟩
  | .sendTo addr message => ((G.peers v).filter fun w => G.addr w = addr).map fun w => ⟨v, w, message⟩

/-- What a node has sent since it was `node`. -/
def PeerGraph.sentSince (v : V) (node node' : Node) : List (Packet V) :=
  (node'.sent.drop node.sent.length).flatMap (G.route v)

/-- The node `v` has moved to `node'`: its new messages are in flight. -/
def Gossip.moved [DecidableEq V] (s : Gossip V) (v : V) (node' : Node) : Gossip V where
  nodes := Function.update s.nodes v node'
  inFlight := s.inFlight ++ G.sentSince v (s.nodes v) node'

/-- The node that an input concerns, and what becomes of it. -/
def Gossip.next (s : Gossip V) : GossipInput V → Option (V × Node)
  | .submitTx v tx => some (v, ((s.nodes v).submitTx K tx).1)
  | .deliver k => s.inFlight[k]?.map fun p =>
      (p.target, (s.nodes p.target).handleEvent K (p.message.event (G.addr p.source)))

/-- The messages in flight without the one that is delivered. -/
def Gossip.taken (s : Gossip V) : GossipInput V → Gossip V
  | .submitTx _ _ => s
  | .deliver k => { s with inFlight := s.inFlight.eraseIdx k }

/-- The network as a machine; its output are the messages that a step sends. -/
def gossip [DecidableEq V] : Machine (Gossip V) (GossipInput V) (List (Packet V)) where
  init s := s.inFlight = []
  step s i :=
    match s.next K G i with
    | some (v, node') => (s.taken i).moved G v node'
    | none => s
  out s i :=
    match s.next K G i with
    | some (v, node') => G.sentSince v (s.nodes v) node'
    | none => []

/-! ## What gossip should do -/

/-- The transaction is handed in at `v`, and then messages are delivered as the schedule
says. -/
def gossipInputs (v : V) (tx : Transaction) (schedule : ℕ → ℕ) (n : ℕ) : List (GossipInput V) :=
  .submitTx v tx :: (List.range n).map fun i => .deliver (schedule i)

/-- The number of `NewTransaction` messages sent in a run. -/
def newTransactions [DecidableEq V] (s : Gossip V) (is : List (GossipInput V)) : ℕ :=
  ((gossip K G).outputs s is).flatten.countP fun p => p.message.isNewTransaction

/-- How often the node has broadcast the transaction. -/
def Node.broadcasts (node : Node) (tx : Transaction) : ℕ :=
  node.sent.count (.broadcast (.newTransaction tx))

/-- In every order of delivery the transaction causes finitely many messages, and no node
broadcasts it more than once in response to events. -/
structure DiesOut [DecidableEq V] (s : Gossip V) (v : V) (tx : Transaction) : Prop where
  finite : ∀ schedule, ∃ bound, ∀ n, newTransactions K G s (gossipInputs v tx schedule n) ≤ bound
  once : ∀ schedule n w,
    (((gossip K G).run s (gossipInputs v tx schedule n)).nodes w).broadcasts tx
      ≤ (((gossip K G).step s (.submitTx v tx)).nodes w).broadcasts tx + 1

end Network

variable {V : Type} {K : Crates} {G : PeerGraph V} {s : Gossip V} {tx : Transaction}

/-! ## Copies of a transaction -/

theorem sentSince_addTransaction (v : V) (node : Node) (tx : Transaction) :
    G.sentSince v node (node.addTransaction K tx)
      = (G.peers v).map fun w => ⟨v, w, .newTransaction tx⟩ := by
  have hsent : (node.addTransaction K tx).sent = node.sent ++ [.broadcast (.newTransaction tx)] := rfl
  rw [PeerGraph.sentSince, hsent, List.drop_left, List.flatMap_singleton]
  rfl

theorem countP_peers (v : V) (tx : Transaction) :
    ((G.peers v).map fun w => (⟨v, w, .newTransaction tx⟩ : Packet V)).countP
      (fun p => p.message.isNewTransaction) = (G.peers v).length := by
  rw [List.countP_map]
  exact List.countP_eq_length.mpr fun w _ => rfl

/-- Copies of the transaction are in flight, each to a peer of the node it comes from. -/
structure Flooding (G : PeerGraph V) (s : Gossip V) (tx : Transaction) : Prop where
  nonempty : s.inFlight ≠ []
  copies : ∀ p ∈ s.inFlight, p.message = .newTransaction tx ∧ p.target ∈ G.peers p.source

/-- What a node sends to its peers floods, if it has a peer. -/
theorem flooding_of_peers {s' : Gossip V} {rest : List (Packet V)} {v : V} (hpeers : G.peers v ≠ [])
    (hrest : ∀ p ∈ rest, p.message = .newTransaction tx ∧ p.target ∈ G.peers p.source)
    (hs' : s'.inFlight = rest ++ (G.peers v).map fun w => ⟨v, w, .newTransaction tx⟩) :
    Flooding G s' tx := by
  refine ⟨?_, fun p hp => ?_⟩
  · rw [hs']
    exact List.append_ne_nil_of_right_ne_nil _ (by simpa using hpeers)
  · rw [hs'] at hp
    rcases List.mem_append.mp hp with hp | hp
    · exact hrest p hp
    · obtain ⟨w, hw, rfl⟩ := List.mem_map.mp hp
      exact ⟨rfl, hw⟩

variable [DecidableEq V]

/-! ## Steps -/

/-- A signed transaction that is handed in goes to every peer. -/
theorem step_submitTx (htx : tx.isSignatureValid K = true) (s : Gossip V) (v : V) :
    ((gossip K G).step s (.submitTx v tx)).inFlight
        = s.inFlight ++ (G.peers v).map (fun w => ⟨v, w, .newTransaction tx⟩) ∧
      (gossip K G).out s (.submitTx v tx) = (G.peers v).map fun w => ⟨v, w, .newTransaction tx⟩ := by
  have hnext : s.next K G (.submitTx v tx) = some (v, (s.nodes v).addTransaction K tx) := by
    rw [Gossip.next, submitTx_fst htx]
  simp only [gossip, hnext, Gossip.taken, Gossip.moved, sentSince_addTransaction, and_self]

/-- So does one that is delivered, whether the node has it or not. -/
theorem deliver_newTransaction (htx : tx.isSignatureValid K = true) {k : ℕ} {u w : V}
    (hk : s.inFlight[k]? = some ⟨u, w, .newTransaction tx⟩) :
    ((gossip K G).step s (.deliver k)).inFlight
        = s.inFlight.eraseIdx k ++ (G.peers w).map (fun x => ⟨w, x, .newTransaction tx⟩) ∧
      (gossip K G).out s (.deliver k) = (G.peers w).map fun x => ⟨w, x, .newTransaction tx⟩ := by
  have hevent : (s.nodes w).handleEvent K (.newTransaction tx) = (s.nodes w).addTransaction K tx :=
    if_pos htx
  have hnext : s.next K G (.deliver k) = some (w, (s.nodes w).addTransaction K tx) := by
    rw [Gossip.next, hk, ← hevent]
    rfl
  simp only [gossip, hnext, Gossip.taken, Gossip.moved, sentSince_addTransaction, and_self]

theorem deliver_none {k : ℕ} (hk : s.inFlight[k]? = none) :
    (gossip K G).step s (.deliver k) = s ∧ (gossip K G).out s (.deliver k) = [] := by
  have hnext : s.next K G (.deliver k) = none := by
    rw [Gossip.next, hk]
    rfl
  simp only [gossip, hnext, and_self]

theorem newTransactions_cons (s : Gossip V) (i : GossipInput V) (is : List (GossipInput V)) :
    newTransactions K G s (i :: is)
      = ((gossip K G).out s i).countP (fun p => p.message.isNewTransaction)
        + newTransactions K G ((gossip K G).step s i) is := by
  rw [newTransactions, Machine.outputs, List.flatten_cons, List.countP_append]
  rfl

/-! ## A flood -/

/-- The receiver answers with at least one new message, to the sender. -/
theorem Flooding.deliver (htx : tx.isSignatureValid K = true) (h : Flooding G s tx) :
    Flooding G ((gossip K G).step s (.deliver 0)) tx ∧
      1 ≤ ((gossip K G).out s (.deliver 0)).countP (fun p => p.message.isNewTransaction) := by
  obtain ⟨hnonempty, hcopies⟩ := h
  obtain ⟨⟨u, w, message⟩, rest, hcons⟩ := List.exists_cons_of_ne_nil hnonempty
  obtain ⟨rfl, hpeer⟩ := hcopies ⟨u, w, message⟩ (hcons ▸ List.mem_cons_self)
  -- the sender is a peer of the receiver, and is not left out of the broadcast
  have hback : u ∈ G.peers w := G.symm hpeer
  have hpeers : G.peers w ≠ [] := List.ne_nil_of_mem hback
  obtain ⟨hflight, hout⟩ := deliver_newTransaction (G := G) (k := 0) htx (by rw [hcons]; rfl)
  refine ⟨flooding_of_peers hpeers (fun p hp => ?_) hflight, ?_⟩
  · exact hcopies p (List.mem_of_mem_eraseIdx hp)
  · rw [hout, countP_peers]
    exact List.length_pos_of_mem hback

/-- Every delivery adds a message. -/
theorem Flooding.count (htx : tx.isSignatureValid K = true) (h : Flooding G s tx) (n : ℕ) :
    n ≤ newTransactions K G s (List.replicate n (.deliver 0)) := by
  induction n generalizing s with
  | zero => exact Nat.zero_le _
  | succ n ih =>
    obtain ⟨hnext, hone⟩ := h.deliver htx
    rw [List.replicate_succ, newTransactions_cons]
    have hrest := ih hnext
    omega

/-- Delivered first in, first out, the messages never end. -/
theorem flood_unbounded (htx : tx.isSignatureValid K = true) (hs : s.inFlight = []) {v : V}
    (hpeers : G.peers v ≠ []) (bound : ℕ) :
    bound < newTransactions K G s (gossipInputs v tx (fun _ => 0) (bound + 1)) := by
  obtain ⟨hflight, -⟩ := step_submitTx (G := G) htx s v
  rw [hs] at hflight
  have hinputs : ((List.range (bound + 1)).map fun _ => (.deliver 0 : GossipInput V))
      = List.replicate (bound + 1) (.deliver 0) := by
    rw [List.map_const', List.length_range]
  have hflood : Flooding G ((gossip K G).step s (.submitTx v tx)) tx :=
    flooding_of_peers hpeers (fun p hp => absurd hp List.not_mem_nil) hflight
  have hcount := hflood.count htx (bound + 1)
  rw [gossipInputs, hinputs, newTransactions_cons]
  omega

/-! ## Silence -/

/-- With nothing in flight there is nothing to deliver. -/
theorem silent_run (h : s.inFlight = []) (ks : List ℕ) :
    (gossip K G).run s (ks.map .deliver) = s ∧
      newTransactions K G s (ks.map .deliver) = 0 := by
  induction ks with
  | nil => exact ⟨rfl, rfl⟩
  | cons k ks ih =>
    obtain ⟨hstep, hout⟩ := deliver_none (K := K) (G := G) (s := s) (k := k) (by rw [h]; rfl)
    rw [List.map_cons, Machine.run_cons, newTransactions_cons, hstep, hout]
    exact ⟨ih.1, by rw [ih.2, List.countP_nil]⟩

/-- **Gossip dies out exactly if the node that takes the transaction in has no peer.**
Any peer sends every copy it gets back to where it came from. -/
theorem gossip_dies_out_iff (s : Gossip V) (hs : s.inFlight = []) (v : V)
    (htx : tx.isSignatureValid K = true) : DiesOut K G s v tx ↔ G.peers v = [] := by
  constructor
  · intro h
    by_contra hpeers
    obtain ⟨bound, hbound⟩ := h.finite fun _ => 0
    exact absurd (hbound (bound + 1)) (Nat.not_le_of_gt (flood_unbounded htx hs hpeers bound))
  · intro hpeers
    obtain ⟨hflight, hout⟩ := step_submitTx (G := G) htx s v
    rw [hs, hpeers, List.map_nil, List.append_nil] at hflight
    rw [hpeers, List.map_nil] at hout
    have hrange : ∀ (schedule : ℕ → ℕ) n, (List.range n).map (fun i => .deliver (schedule i))
        = ((List.range n).map schedule).map (GossipInput.deliver (V := V)) := by
      intro schedule n
      rw [List.map_map]
      rfl
    refine ⟨fun schedule => ⟨0, fun n => ?_⟩, fun schedule n w => ?_⟩
    · rw [gossipInputs, newTransactions_cons, hout, hrange, (silent_run hflight _).2]
      exact Nat.le_refl 0
    · rw [gossipInputs, Machine.run_cons, hrange, (silent_run hflight _).1]
      exact Nat.le_succ _

/-! ## Two nodes -/

/-- Two nodes that are connected. -/
def pairGraph : PeerGraph Bool where
  peers v := [!v]
  addr v := ⟨[127, 0, 0, 1], if v then 1 else 2⟩
  symm := by decide

/-- Two nodes on the small genesis that have just started. -/
def pairStart : Gossip Bool := ⟨fun _ => smallNode, []⟩

theorem gossip_dies_out_iff_small : DiesOut smallCrates pairGraph pairStart true firstTx ↔
    pairGraph.peers true = [] :=
  gossip_dies_out_iff pairStart rfl true (by decide)

/-- One transaction that is handed in to one of them goes back and forth for ever. -/
theorem gossip_never_ends : pairStart.inFlight = [] ∧
    firstTx.isSignatureValid smallCrates = true ∧
    ¬ ∃ bound, ∀ n, newTransactions smallCrates pairGraph pairStart
      (gossipInputs true firstTx (fun _ => 0) n) ≤ bound := by
  have hsigned : firstTx.isSignatureValid smallCrates = true := by decide
  refine ⟨rfl, hsigned, fun ⟨bound, hbound⟩ => ?_⟩
  have hmore := flood_unbounded (s := pairStart) (G := pairGraph) (v := true) hsigned rfl
    (List.cons_ne_nil _ _) bound
  exact absurd (hbound (bound + 1)) (Nat.not_le_of_gt hmore)

end Ondris
