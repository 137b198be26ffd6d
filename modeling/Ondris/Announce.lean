import Ondris.NodeRuns

/-!
# What a node announces

The messages that a run of a node hands to the network, restarts included. A block is
announced when it is stored; a block that waits for its parent is answered with a
request.

Results:
1. `Node.accept_cases`: a delivered block is requested further back, or the delivery
   announces distinct blocks that it stores.
2. `announced_once`: over any run a block is announced at most once, and only if the
   run stores it.
-/

namespace Ondris

variable {K : Crates} {g : GenesisConfig} {c : Chain} {node node' : Node}

/-! ## Definitions -/

/-- The identifier of the block that a message announces. -/
def Sent.announced (K : Crates) : Sent → Option Hash256
  | .broadcast (.newBlock block) => some (blockId K block)
  | _ => none

/-- The messages that one input makes a node send. -/
def Node.sentOn (K : Crates) (g : GenesisConfig) (node : Node) (i : NodeInput) : List Sent :=
  ((nodeMachine K g).step node i).sent.drop node.sent.length

/-- The messages of a run. -/
def Node.sentOver (K : Crates) (g : GenesisConfig) : Node → List NodeInput → List Sent
  | _, [] => []
  | node, i :: is => node.sentOn K g i ++ sentOver K g ((nodeMachine K g).step node i) is

/-- How often messages announce the block of an identifier. -/
def announcements (K : Crates) (messages : List Sent) (hash : Hash256) : ℕ :=
  (messages.filterMap (Sent.announced K)).count hash

/-- A block past genesis whose parent is not stored. -/
structure Detached (st : ChainState) (b : Block) : Prop where
  height : b.header.height ≠ 0
  parent : st.blocks b.header.prevHash = none

/-- The blocks `xs` are new, they are stored, and their announcement is all that is sent. -/
structure Announces (K : Crates) (node node' : Node) (xs : List Block) : Prop where
  sent : node'.sent = node.sent ++ xs.map fun x => .broadcast (.newBlock x)
  fresh : ∀ x ∈ xs, node.chain.state.blocks (blockId K x) = none
  stored : ∀ x ∈ xs, node'.chain.state.blocks (blockId K x) = some x
  nodup : (xs.map (blockId K)).Nodup
  grows : ∀ h x, node.chain.state.blocks h = some x → node'.chain.state.blocks h = some x

/-! ## One call -/

/-- An orphan is a block whose parent is not stored. -/
theorem checkBlock_orphan {st : ChainState} {dataset : Dataset} {b : Block} {hash : Hash256}
    (h : checkBlock K g st dataset b = .ok (.done (.orphan hash))) :
    hash = b.header.prevHash ∧ st.blocks b.header.prevHash = none := by
  unfold checkBlock at h
  simp only at h
  split at h
  · cases h
  split at h
  · cases h
  split at h
  · cases h
  split at h
  · cases h
  split at h
  · next hparent =>
    cases h
    exact ⟨rfl, hparent⟩
  -- the parent is stored, so the other checks fail or the block is stored
  split at h
  · cases h
  split at h
  · cases h
  split at h
  · cases h
  split at h <;> cases h

/-- A block that is not stored is refused without a message, or waits for its parent. -/
theorem submitBlock_unstorable_parent (hc : ChainInv K g c) {b : Block}
    (hb : ¬ Storable K g c.state b) : (∃ e, (c.submitBlock K b).result = .error e) ∨
      (c.submitBlock K b).result = .ok .alreadyKnown ∨
      (c.submitBlock K b).result = .ok (.orphan b.header.prevHash) ∧ Detached c.state b := by
  rcases (submitBlock_unstorable_cases hc hb).2 with hfail | ⟨outcome, hcheck, hres⟩
  · exact .inl hfail
  · rcases checkBlock_done hcheck with rfl | rfl
    · exact .inr (.inl hres)
    · refine .inr (.inr ⟨hres, fun hzero => ?_, (checkBlock_orphan hcheck).2⟩)
      -- a second genesis block is an error before anything is looked up
      rw [Chain.submitBlock, if_pos hzero] at hres
      cases hres

/-- What a call stores, buffers, and sends. -/
theorem Node.retry_sent_cases (hc : ChainInv K g node.chain) (b : Block) :
    (Storable K g node.chain.state b ∧ (node.retry K b).1.orphans = node.orphans ∧
      ((node.retry K b).1.sent = node.sent ++ [.broadcast (.newBlock b)] ∨
        (∃ e, (node.chain.submitBlock K b).result = .error e) ∧
          (node.retry K b).1.sent = node.sent)) ∨
    (¬ Storable K g node.chain.state b ∧ Detached node.chain.state b ∧ (node.retry K b).2 = none ∧
      (node.retry K b).1.orphans = node.orphans.push b.header.prevHash b ∧
      (node.retry K b).1.sent = node.sent ++ [.broadcast (.getBlock b.header.prevHash)]) ∨
    (¬ Storable K g node.chain.state b ∧ (node.retry K b).2 = none ∧
      (node.retry K b).1.orphans = node.orphans ∧ (node.retry K b).1.sent = node.sent) := by
  by_cases hb : Storable K g node.chain.state b
  · refine .inl ⟨hb, ?_⟩
    obtain ⟨n, t, lo, hcan⟩ := hc.canonical
    obtain ⟨lp, a, p, s, hpl⟩ := Placement.exists hc.stored hcan hb
    by_cases hover : branchWork lo < branchWork ((blockId K b, b) :: lp) ∧
        ∃ overlay, simulate K g node.chain.state a p = .ok overlay
    · obtain ⟨-, reorged, requeue, hres⟩ := submitBlock_accepted hc hcan hpl hover
      rw [retry, hres]
      exact ⟨rfl, .inl rfl⟩
    · rcases (submitBlock_stored hc hcan hpl hover).2 with ⟨e, hres⟩ | hres
      · rw [retry, hres]
        exact ⟨rfl, .inr ⟨⟨e, rfl⟩, rfl⟩⟩
      · rw [retry, hres]
        exact ⟨rfl, .inl rfl⟩
  · refine .inr ?_
    rcases submitBlock_unstorable_parent hc hb with ⟨e, hres⟩ | hres | ⟨hres, hdetached⟩
    · rw [retry, hres]
      exact .inr ⟨hb, rfl, rfl, rfl⟩
    · rw [retry, hres]
      exact .inr ⟨hb, rfl, rfl, rfl⟩
    · rw [retry, hres]
      exact .inl ⟨hb, hdetached, rfl, rfl, rfl⟩

/-- What is stored stays stored. -/
theorem blocks_retry_grows (hc : ChainInv K g node.chain) {h : Hash256} {x : Block}
    (hx : node.chain.state.blocks h = some x) (b : Block) :
    (node.retry K b).1.chain.state.blocks h = some x := by
  obtain ⟨l, hl⟩ := hc.stored.exists_branch hx
  rw [blocks_retry]
  exact (hl.submit hc b).mem_get List.mem_cons_self

/-- A storable block is stored under its identifier. -/
theorem Storable.blocks_retry (hc : ChainInv K g node.chain) {b : Block}
    (hb : Storable K g node.chain.state b) :
    (node.retry K b).1.chain.state.blocks (blockId K b) = some b := by
  obtain ⟨-, l, hl, -⟩ := id hb
  rw [Ondris.blocks_retry]
  exact (hb.branch_submit hc hl).mem_get List.mem_cons_self

/-! ## A delivery -/

theorem Announces.refl (node : Node) : Announces K node node [] where
  sent := (List.append_nil _).symm
  fresh _ hx := absurd hx List.not_mem_nil
  stored _ hx := absurd hx List.not_mem_nil
  nodup := List.nodup_nil
  grows _ _ hx := hx

/-- Only what is sent and stored counts. -/
theorem Announces.congr {xs : List Block} (h : Announces K node node' xs) {m : Node}
    (hblocks : m.chain.state.blocks = node'.chain.state.blocks) (hsent : m.sent = node'.sent) :
    Announces K node m xs where
  sent := hsent.trans h.sent
  fresh := h.fresh
  stored := by
    rw [hblocks]
    exact h.stored
  nodup := h.nodup
  grows := by
    rw [hblocks]
    exact h.grows

/-- A further call that is not an orphan. -/
theorem Announces.retry {xs : List Block} (h : Announces K node node' xs)
    (hc : ChainInv K g node'.chain) {b : Block}
    (hb : Storable K g node'.chain.state b ∨ (node'.chain.state.blocks b.header.prevHash).isSome) :
    ∃ ys, Announces K node (node'.retry K b).1 ys := by
  have hgrows : ∀ k x, node'.chain.state.blocks k = some x →
      (node'.retry K b).1.chain.state.blocks k = some x :=
    fun k x hx => blocks_retry_grows hc hx b
  have hsame : (node'.retry K b).1.sent = node'.sent → Announces K node (node'.retry K b).1 xs :=
    fun hsent => ⟨hsent.trans h.sent, h.fresh, fun x hx => hgrows _ x (h.stored x hx), h.nodup,
      fun k x hx => hgrows k x (h.grows k x hx)⟩
  rcases Node.retry_sent_cases hc b with
    ⟨hst, -, hsent | ⟨-, hsent⟩⟩ | ⟨hnot, hdetached, -⟩ | ⟨-, -, -, hsent⟩
  · -- the block is new, so it is not among those announced before
    have hnew : node'.chain.state.blocks (blockId K b) = none := hst.1
    have hfresh : node.chain.state.blocks (blockId K b) = none := by
      cases hx : node.chain.state.blocks (blockId K b) with
      | none => rfl
      | some x => rw [h.grows _ x hx] at hnew; cases hnew
    refine ⟨xs ++ [b], ?_, fun x hx => ?_, fun x hx => ?_, ?_, fun k x hx => hgrows k x (h.grows k x hx)⟩
    · rw [hsent, h.sent, List.map_append, List.append_assoc]
      rfl
    · rcases List.mem_append.mp hx with hx | hx
      · exact h.fresh x hx
      · rw [List.mem_singleton.mp hx]
        exact hfresh
    · rcases List.mem_append.mp hx with hx | hx
      · exact hgrows _ x (h.stored x hx)
      · rw [List.mem_singleton.mp hx]
        exact hst.blocks_retry hc
    · rw [List.map_append, List.nodup_append]
      refine ⟨h.nodup, List.nodup_singleton _, fun k hk k' hk' heq => ?_⟩
      obtain ⟨x, hx, rfl⟩ := List.mem_map.mp hk
      rw [List.mem_singleton.mp hk'] at heq
      rw [← heq, h.stored x hx] at hnew
      cases hnew
  · exact ⟨xs, hsame hsent⟩
  · rcases hb with hst | hsome
    · exact absurd hst hnot
    · rw [hdetached.parent] at hsome
      cases hsome
  · exact ⟨xs, hsame hsent⟩

/-- The blocks that an accepted one wakes are not orphans, and are announced with it. -/
theorem Announces.cascade {queue : List Hash256} (hkept : Kept K g node' queue) {xs : List Block}
    (h : Announces K node node' xs) :
    ∃ ys, Announces K node ((Node.cascade K).run node' queue) ys := by
  have hloop := Worklist.loop_run (W := Node.cascade K) node' queue
  obtain ⟨-, hann, -⟩ := hloop.invariant (Q := fun _ => True)
    (I := fun m items queue => Kept K g m queue ∧ (∃ ys, Announces K node m ys) ∧
      ∀ i ∈ items, (m.chain.state.blocks i.header.prevHash).isSome)
    (fun m i items queue _ ⟨hkept, ⟨ys, hys⟩, hitems⟩ => by
      refine ⟨hkept.call i, hys.retry hkept.inv (.inr (hitems i List.mem_cons_self)), fun x hx => ?_⟩
      exact isSome_blocks_retry hkept.inv (hitems x (List.mem_cons_of_mem _ hx)) i)
    (fun m k queue ⟨hkept, ⟨ys, hys⟩, _⟩ => by
      refine ⟨hkept.pop, ⟨ys, hys.congr rfl rfl⟩, fun x hx => ?_⟩
      -- what waits under an accepted hash is a child of it
      have hkey : x.header.prevHash = k := hkept.keyed k x hx
      rw [hkey]
      exact hkept.queue k List.mem_cons_self)
    (fun _ _ => trivial) ⟨hkept, ⟨xs, h⟩, fun _ hi => absurd hi List.not_mem_nil⟩
  exact hann

/-- A delivered block is requested further back, or announced with all it wakes. -/
theorem Node.accept_cases (hkept : Kept K g node []) (b : Block) :
    (Detached node.chain.state b ∧
      (node.acceptAndBroadcast K b).1.chain.state.blocks = node.chain.state.blocks ∧
      (node.acceptAndBroadcast K b).1.orphans = node.orphans.push b.header.prevHash b ∧
      (node.acceptAndBroadcast K b).1.sent
        = node.sent ++ [.broadcast (.getBlock b.header.prevHash)]) ∨
    ∃ xs, Announces K node (node.acceptAndBroadcast K b).1 xs := by
  rw [acceptAndBroadcast_eq]
  have hcall := hkept.call b
  rw [List.nil_append] at hcall
  rcases Node.retry_sent_cases hkept.inv b with
    ⟨hst, -⟩ | ⟨hnot, hdetached, hnone, horphans, hsent⟩ | ⟨hnot, hnone, -, hsent⟩
  · obtain ⟨xs, hxs⟩ := (Announces.refl node).retry hkept.inv (.inl hst)
    exact .inr (hxs.cascade hcall)
  · have hrun : (cascade K).run (node.retry K b).1 (node.retry K b).2.toList
        = (node.retry K b).1 := by rw [hnone, Option.toList_none, Worklist.run]
    rw [hrun]
    refine .inl ⟨hdetached, ?_, horphans, hsent⟩
    rw [blocks_retry, state_submit_unstorable hkept.inv hnot]
  · have hblocks : (node.retry K b).1.chain.state.blocks = node.chain.state.blocks := by
      rw [blocks_retry, state_submit_unstorable hkept.inv hnot]
    exact .inr (((Announces.refl node).congr hblocks hsent).cascade hcall)

/-! ## Runs -/

theorem kept_start (hc : ChainInv K g c) : Kept K g (.start c) [] where
  inv := hc
  queue _ hh := absurd hh List.not_mem_nil
  keyed _ _ hb := absurd hb List.not_mem_nil

theorem sentOn_append {i : NodeInput} {ms : List Sent}
    (h : ((nodeMachine K g).step node i).sent = node.sent ++ ms) : node.sentOn K g i = ms := by
  rw [Node.sentOn, h, List.drop_left]

theorem sentOn_nil {i : NodeInput} (h : ((nodeMachine K g).step node i).sent = node.sent) :
    node.sentOn K g i = [] := by
  rw [Node.sentOn, h, List.drop_length]

/-- Asking for work sends nothing. -/
theorem getWork_quiet (node : Node) (miner : Bytes) (now : UInt64) :
    (node.getWork K miner now).1.orphans = node.orphans ∧
      (node.getWork K miner now).1.sent = node.sent := by
  unfold Node.getWork
  split
  · exact ⟨rfl, rfl⟩
  · next address _ =>
    split
    · exact ⟨rfl, rfl⟩
    · next pending _ =>
      rcases node.chain.workTemplate K address now pending with ⟨e | ⟨block, dataset⟩, cache⟩
      · exact ⟨rfl, rfl⟩
      · exact ⟨rfl, rfl⟩

/-- A restarted node has sent nothing yet, and its buffer is empty. -/
theorem restart_quiet (node : Node) :
    ((node.restart K g).orphans = ∅ ∧ (node.restart K g).sent = []) ∨
      node.restart K g = node := by
  unfold Node.restart
  cases Chain.openDb K g node.chain.state with
  | error e => exact .inr rfl
  | ok c => exact .inl ⟨rfl, rfl⟩

/-- The node is asked for a block, and answers with what it has. -/
def Answers (K : Crates) (g : GenesisConfig) (node : Node) (i : NodeInput) : Prop :=
  ∃ peerAddr hash, i = .event (.getBlockRequest peerAddr hash) ∧
    node.sentOn K g i = [.sendTo peerAddr (.blockResponse (node.chain.state.getBlock hash))]

/-- A step that leaves chain and buffer alone, or loses the buffer. -/
structure Quiet (node node' : Node) : Prop where
  core : node'.chain.state.core = node.chain.state.core
  orphans : node'.orphans = node.orphans ∨ node'.orphans = ∅

theorem Quiet.refl (node : Node) : Quiet node node := ⟨rfl, .inl rfl⟩

/-- A step hands a block to consensus, answers a request, or sends transactions only. -/
theorem node_sent_cases (h : NodeInv K g node) (i : NodeInput) :
    (∃ b, i.delivered = some b ∧
      (nodeMachine K g).step node i = (node.acceptAndBroadcast K b).1) ∨
    (Quiet node ((nodeMachine K g).step node i) ∧ Answers K g node i) ∨
    (Quiet node ((nodeMachine K g).step node i) ∧
      ∀ m ∈ node.sentOn K g i, ∃ tx, m = .broadcast (.newTransaction tx)) := by
  have hsilent : (nodeMachine K g).step node i = node →
      Quiet node ((nodeMachine K g).step node i) ∧
        ∀ m ∈ node.sentOn K g i, ∃ tx, m = .broadcast (.newTransaction tx) := by
    intro hstep
    refine ⟨by rw [hstep]; exact .refl node, fun m hm => ?_⟩
    rw [sentOn_nil (by rw [hstep])] at hm
    cases hm
  have hadd : ∀ tx, (nodeMachine K g).step node i = node.addTransaction K tx →
      Quiet node ((nodeMachine K g).step node i) ∧
        ∀ m ∈ node.sentOn K g i, ∃ tx, m = .broadcast (.newTransaction tx) := by
    intro tx hstep
    refine ⟨by rw [hstep]; exact ⟨rfl, .inl rfl⟩, fun m hm => ?_⟩
    have hsent : node.sentOn K g i = [.broadcast (.newTransaction tx)] :=
      sentOn_append (by rw [hstep]; rfl)
    rw [hsent] at hm
    exact ⟨tx, List.mem_singleton.mp hm⟩
  cases i with
  | event event =>
    cases event with
    | newBlock block => exact .inl ⟨block, rfl, rfl⟩
    | newTransaction tx =>
      have hstep : (nodeMachine K g).step node (.event (.newTransaction tx))
          = if tx.isSignatureValid K then node.addTransaction K tx else node := rfl
      by_cases htx : tx.isSignatureValid K = true
      · rw [if_pos htx] at hstep
        exact .inr (.inr (hadd tx hstep))
      · rw [if_neg htx] at hstep
        exact .inr (.inr (hsilent hstep))
    | getBlockRequest peerAddr hash =>
      exact .inr (.inl ⟨⟨rfl, .inl rfl⟩, peerAddr, hash, rfl, sentOn_append rfl⟩)
    | blockResponse block =>
      cases block with
      | none => exact .inr (.inr (hsilent rfl))
      | some block => exact .inl ⟨block, rfl, rfl⟩
    | peerConnected addr => exact .inr (.inr (hsilent rfl))
    | peerDisconnected addr => exact .inr (.inr (hsilent rfl))
  | submitTx tx =>
    by_cases htx : tx.isSignatureValid K = true
    · exact .inr (.inr (hadd tx (submitTx_fst htx node)))
    · refine .inr (.inr (hsilent ?_))
      show (node.submitTx K tx).1 = node
      rw [Node.submitTx, if_neg htx]
  | submitBlock block => exact .inl ⟨block, rfl, submitBlock_fst node block⟩
  | getWork miner now =>
    obtain ⟨horphans, hsent⟩ := getWork_quiet (K := K) node miner now
    refine .inr (.inr ⟨⟨?_, .inl horphans⟩, fun m hm => ?_⟩)
    · exact congrArg ChainState.core (getWork_state node miner now)
    · rw [sentOn_nil (i := .getWork miner now) hsent] at hm
      cases hm
  | rebroadcast =>
    have hstep : (nodeMachine K g).step node .rebroadcast = node.rebroadcast := rfl
    unfold Node.rebroadcast at hstep
    cases hpending : node.chain.state.mempoolAll with
    | none =>
      rw [hpending] at hstep
      exact .inr (.inr (hsilent hstep))
    | some pending =>
      rw [hpending] at hstep
      refine .inr (.inr ⟨by rw [hstep]; exact ⟨rfl, .inl rfl⟩, fun m hm => ?_⟩)
      rw [sentOn_append (by rw [hstep])] at hm
      obtain ⟨tx, -, rfl⟩ := List.mem_map.mp hm
      exact ⟨tx, rfl⟩
  | restart =>
    rcases restart_quiet (K := K) (g := g) node with ⟨horphans, hsent⟩ | hsame
    · refine .inr (.inr ⟨⟨congrArg ChainState.core (Idle.restart h).state, .inr horphans⟩,
        fun m hm => ?_⟩)
      have hnil : node.sentOn K g .restart = [] := by
        show ((node.restart K g).sent).drop _ = []
        rw [hsent, List.drop_nil]
      rw [hnil] at hm
      cases hm
    · exact .inr (.inr (hsilent hsame))

theorem Kept.quiet (hkept : Kept K g node []) (hinv : ChainInv K g node'.chain)
    (h : Quiet node node') : Kept K g node' [] := by
  refine ⟨hinv, fun _ hh => absurd hh List.not_mem_nil, ?_⟩
  rcases h.orphans with horphans | horphans
  · rw [horphans]
    exact hkept.keyed
  · rw [horphans]
    exact fun _ _ hb => absurd hb List.not_mem_nil

theorem Kept.step (h : NodeInv K g node) (hkept : Kept K g node []) (i : NodeInput) :
    Kept K g ((nodeMachine K g).step node i) [] := by
  have hinv := (Advances.step h i).inv.chain
  rcases node_sent_cases h i with ⟨b, -, hstep⟩ | ⟨hquiet, -⟩ | ⟨hquiet, -⟩
  · rw [hstep]
    exact hkept.deliver b
  · exact hkept.quiet hinv hquiet
  · exact hkept.quiet hinv hquiet

theorem kept_reachable (hn : (nodeMachine K g).Reachable node) : Kept K g node [] := by
  refine Machine.Reach.invariant (P := fun node => Kept K g node []) (fun node hinit => ?_)
    (fun node i hr _ ih => ih.step (nodeInv hr) i) hn
  obtain ⟨c, hc, rfl⟩ := hinit
  exact kept_start (chainInv (.init hc))

/-! ## Announcements -/

theorem announcements_append (ms ns : List Sent) (hash : Hash256) :
    announcements K (ms ++ ns) hash = announcements K ms hash + announcements K ns hash := by
  rw [announcements, List.filterMap_append, List.count_append]
  rfl

theorem announcements_eq_zero {ms : List Sent} (h : ∀ m ∈ ms, m.announced K = none)
    (hash : Hash256) : announcements K ms hash = 0 := by
  rw [announcements, List.filterMap_eq_nil_iff.mpr h, List.count_nil]

theorem announcements_newBlock (xs : List Block) (hash : Hash256) :
    announcements K (xs.map fun x => .broadcast (.newBlock x)) hash
      = (xs.map (blockId K)).count hash := by
  rw [announcements, List.filterMap_map]
  congr 1
  exact List.filterMap_eq_map.symm ▸ rfl

/-- A step announces a block at most once, and stores it then. -/
theorem announced_step (h : NodeInv K g node) (hkept : Kept K g node []) (i : NodeInput)
    (hash : Hash256) :
    announcements K (node.sentOn K g i) hash + (node.chain.state.hasBlock hash).toNat
      ≤ (((nodeMachine K g).step node i).chain.state.hasBlock hash).toNat := by
  have hquiet : Quiet node ((nodeMachine K g).step node i) →
      (∀ m ∈ node.sentOn K g i, m.announced K = none) →
      announcements K (node.sentOn K g i) hash + (node.chain.state.hasBlock hash).toNat
        ≤ (((nodeMachine K g).step node i).chain.state.hasBlock hash).toNat := by
    intro hquiet hsent
    rw [announcements_eq_zero hsent, Nat.zero_add, ChainState.hasBlock, ChainState.hasBlock,
      core_blocks hquiet.core]
  rcases node_sent_cases h i with ⟨b, -, hstep⟩ | ⟨hstep, addr, k, -, hsent⟩ | ⟨hstep, hsent⟩
  · rcases Node.accept_cases hkept b with ⟨-, hblocks, -, hsent⟩ | ⟨xs, hxs⟩
    · have hon : node.sentOn K g i = [.broadcast (.getBlock b.header.prevHash)] :=
        sentOn_append (by rw [hstep, hsent])
      rw [hon, announcements_eq_zero (fun m hm => by rw [List.mem_singleton.mp hm]; rfl), hstep,
        ChainState.hasBlock, ChainState.hasBlock, hblocks, Nat.zero_add]
    · have hon : node.sentOn K g i = xs.map fun x => .broadcast (.newBlock x) :=
        sentOn_append (by rw [hstep, hxs.sent])
      rw [hon, announcements_newBlock, hstep, ChainState.hasBlock, ChainState.hasBlock]
      have honce := List.nodup_iff_count_le_one.mp hxs.nodup hash
      by_cases hmem : hash ∈ xs.map (blockId K)
      · obtain ⟨x, hx, rfl⟩ := List.mem_map.mp hmem
        rw [hxs.fresh x hx, hxs.stored x hx]
        exact honce
      · rw [List.count_eq_zero_of_not_mem hmem, Nat.zero_add]
        cases hold : node.chain.state.blocks hash with
        | none => exact Nat.zero_le _
        | some x => rw [hxs.grows _ x hold]
  · refine hquiet hstep fun m hm => ?_
    rw [hsent] at hm
    rw [List.mem_singleton.mp hm]
    rfl
  · refine hquiet hstep fun m hm => ?_
    obtain ⟨tx, rfl⟩ := hsent m hm
    rfl

/-- **A block is announced at most once, by the run that stores it.** This covers restarts
and the blocks that others wake. -/
theorem announced_once (hn : (nodeMachine K g).Reachable node) (is : List NodeInput)
    (hash : Hash256) :
    announcements K (node.sentOver K g is) hash + (node.chain.state.hasBlock hash).toNat
      ≤ (((nodeMachine K g).run node is).chain.state.hasBlock hash).toNat := by
  induction is generalizing node with
  | nil =>
    rw [Node.sentOver, announcements_eq_zero fun m hm => absurd hm List.not_mem_nil, Nat.zero_add]
    exact Nat.le_refl _
  | cons i is ih =>
    have hstep := announced_step (nodeInv hn) (kept_reachable hn) i hash
    have hrest := ih (hn.step i)
    rw [Node.sentOver, announcements_append, Machine.run_cons]
    omega

/-- A block that is mined and comes back from a peer after a restart. -/
theorem announced_once_small : announcements smallCrates (smallNode.sentOver smallCrates smallGenesis
    [.submitBlock forkB1, .restart, .event (.newBlock forkB1)]) (nonceId 2) ≤ 1 := by
  have hn : (nodeMachine smallCrates smallGenesis).Reachable smallNode :=
    .init ⟨smallOpen, init_small, rfl⟩
  have honce := announced_once hn [.submitBlock forkB1, .restart, .event (.newBlock forkB1)] (nonceId 2)
  exact (Nat.le_add_right _ _).trans (honce.trans (Bool.toNat_le _))

end Ondris
