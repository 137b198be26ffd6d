import Ondris.Orphans

/-!
# Deliveries that resolve

When the deliveries of a set of blocks end with all of them stored, none waiting,
and the heaviest branch canonical.

Results:
1. `Stuck.call`: a block that does not overtake the tip while others wait for it
   leaves the node stuck for good.
2. `resolved_iff`: the deliveries resolve exactly when every block that others wait
   for, and the head of the heaviest branch, overtakes the tip when it is submitted.
3. `resolved_iff_of_valid`: for valid branches below the supply bound it is enough
   that a block that others wait for has more work than the tip;
   `not_resolved_small`: a block of equal work leaves its child in the buffer.
-/

namespace Ondris

open Ledger

variable {K : Crates} {g : GenesisConfig} {c : Chain} {node : Node}

/-! ## A block that wakes nobody -/

/-- Checks that end early have found a known block or an orphan. -/
theorem checkBlock_done {st : ChainState} {dataset : Dataset} {b : Block} {outcome : SubmitOutcome}
    (h : checkBlock K g st dataset b = .ok (.done outcome)) :
    outcome = .alreadyKnown ∨ outcome = .orphan b.header.prevHash := by
  unfold checkBlock at h
  simp only at h
  split at h
  · cases h
    exact .inl rfl
  split at h
  · cases h
  split at h
  · cases h
  split at h
  · cases h
  split at h
  · cases h
    exact .inr rfl
  -- the parent is stored, so the other checks fail or the block is stored
  split at h
  · cases h
  split at h
  · cases h
  split at h
  · cases h
  split at h <;> cases h

/-- The blocks that are not stored are rejected, known, or orphans. -/
theorem submitBlock_unstorable_result (hc : ChainInv K g c) {b : Block}
    (hb : ¬ Storable K g c.state b) : (∃ e, (c.submitBlock K b).result = .error e) ∨
      (c.submitBlock K b).result = .ok .alreadyKnown ∨
      (c.submitBlock K b).result = .ok (.orphan b.header.prevHash) := by
  rcases (submitBlock_unstorable_cases hc hb).2 with hfail | ⟨outcome, hcheck, hres⟩
  · exact .inl hfail
  · rcases checkBlock_done hcheck with rfl | rfl
    · exact .inr (.inl hres)
    · exact .inr (.inr hres)

/-- What it takes to be accepted. -/
theorem accepted_cases (hc : ChainInv K g c) {n : UInt64} {t : Hash256} {lo : BlockChain}
    (hcan : Canonical K g c.state n t lo) {b : Block} {hash : Hash256} {height : UInt64}
    {reorged : Bool} {requeue : List Transaction}
    (h : (c.submitBlock K b).result = .ok (.accepted hash height reorged requeue)) :
    ∃ lp a p s, Placement K g c.state lo b lp a p s ∧
      (branchWork lo < branchWork ((blockId K b, b) :: lp) ∧
        ∃ overlay, simulate K g c.state a p = .ok overlay) ∧ requeue = requeueOf K a p.reverse := by
  by_cases hb : Storable K g c.state b
  · obtain ⟨lp, a, p, s, hpl⟩ := Placement.exists hc.stored hcan hb
    by_cases hover : branchWork lo < branchWork ((blockId K b, b) :: lp) ∧
        ∃ overlay, simulate K g c.state a p = .ok overlay
    · obtain ⟨hwork, overlay, hsim⟩ := hover
      rw [(submitBlock_overtakes hc hcan hpl hwork hsim).1] at h
      obtain ⟨-, -, -, rfl⟩ := SubmitOutcome.accepted.inj (Except.ok.inj h)
      exact ⟨lp, a, p, s, hpl, ⟨hwork, overlay, hsim⟩, rfl⟩
    · rcases (submitBlock_stored hc hcan hpl hover).2 with ⟨e, hres⟩ | hres
      · rw [hres] at h
        cases h
      · rw [hres] at h
        cases h
  · rcases submitBlock_unstorable_result hc hb with ⟨e, hres⟩ | hres | hres
    · rw [hres] at h
      cases h
    · rw [hres] at h
      cases h
    · rw [hres] at h
      cases h

/-- What a call does to the buffer and the queue. -/
theorem Node.retry_cases (hc : ChainInv K g node.chain) (b : Block) :
    (∃ n t lo lp a p s, Canonical K g node.chain.state n t lo ∧
      Placement K g node.chain.state lo b lp a p s ∧
      (node.retry K b).1.orphans = node.orphans ∧
      ((branchWork lo < branchWork ((blockId K b, b) :: lp) ∧
            ∃ overlay, simulate K g node.chain.state a p = .ok overlay) ∧
          (node.retry K b).2 = some (blockId K b) ∨
        ¬ (branchWork lo < branchWork ((blockId K b, b) :: lp) ∧
            ∃ overlay, simulate K g node.chain.state a p = .ok overlay) ∧
          (node.retry K b).2 = none ∧
          (node.retry K b).1.chain.state.tip = node.chain.state.tip)) ∨
    (¬ Storable K g node.chain.state b ∧ (node.retry K b).2 = none ∧
      ((node.retry K b).1.orphans = node.orphans ∨
        (node.retry K b).1.orphans = node.orphans.push b.header.prevHash b)) := by
  by_cases hb : Storable K g node.chain.state b
  · obtain ⟨n, t, lo, hcan⟩ := hc.canonical
    obtain ⟨lp, a, p, s, hpl⟩ := Placement.exists hc.stored hcan hb
    refine .inl ⟨n, t, lo, lp, a, p, s, hcan, hpl, ?_⟩
    by_cases hover : branchWork lo < branchWork ((blockId K b, b) :: lp) ∧
        ∃ overlay, simulate K g node.chain.state a p = .ok overlay
    · obtain ⟨-, reorged, requeue, hres⟩ := submitBlock_accepted hc hcan hpl hover
      obtain ⟨horphans, hhash⟩ := Node.retry_accepted hres
      exact ⟨horphans, .inl ⟨hover, hhash⟩⟩
    · obtain ⟨hst, hres⟩ := submitBlock_stored hc hcan hpl hover
      obtain ⟨horphans, hnone⟩ := Node.retry_quiet (hres.elim .inl fun hres => .inr (.inl ⟨_, _, hres⟩))
      refine ⟨horphans, .inr ⟨hover, hnone, ?_⟩⟩
      rw [tip_retry, hst, (hpl.canonical_stored hcan).tip, hcan.tip]
  · refine .inr ⟨hb, ?_⟩
    rcases submitBlock_unstorable_result hc hb with hres | hres | hres
    · obtain ⟨horphans, hnone⟩ := Node.retry_quiet (.inl hres)
      exact ⟨hnone, .inl horphans⟩
    · obtain ⟨horphans, hnone⟩ := Node.retry_quiet (.inr (.inr hres))
      exact ⟨hnone, .inl horphans⟩
    · obtain ⟨horphans, hnone⟩ := Node.retry_orphan hres
      exact ⟨hnone, .inr horphans⟩

/-- One placement tells whether a block overtakes the tip. -/
theorem overtakes_of {st : ChainState} {n : UInt64} {t : Hash256} {lo lp a p s : BlockChain}
    {b : Block} (hcan : Canonical K g st n t lo) (hpl : Placement K g st lo b lp a p s)
    (hover : branchWork lo < branchWork ((blockId K b, b) :: lp) ∧
      ∃ overlay, simulate K g st a p = .ok overlay) : Overtakes K g st b := by
  intro n' t' lo' lp' a' p' s' hcan' hpl'
  obtain ⟨-, -, rfl⟩ := hcan.unique hcan'
  obtain rfl := hpl.parent.unique hpl'.parent
  obtain ⟨rfl, rfl, -⟩ := hpl.fork.unique hpl'.fork
  exact hover

/-- What every node keeps: accepted hashes are stored, and blocks wait under the hash
of their parent. -/
structure Kept (K : Crates) (g : GenesisConfig) (node : Node) (queue : List Hash256) : Prop where
  inv : ChainInv K g node.chain
  queue : ∀ h ∈ queue, (node.chain.state.blocks h).isSome
  keyed : ∀ h, ∀ b ∈ node.orphans.waiting h, b.header.prevHash = h

/-- Blocks wait for a stored one that will wake nobody, or the block `t` is stored
but is not the tip. -/
def Stuck (t : Hash256) (node : Node) (queue : List Hash256) : Prop :=
  (∃ h, (node.chain.state.blocks h).isSome ∧ h ∉ queue ∧ node.orphans.waiting h ≠ []) ∨
    (node.chain.state.blocks t).isSome ∧ ∀ n, node.chain.state.tip ≠ some (n, t)

theorem Kept.call {queue : List Hash256} (h : Kept K g node queue) (b : Block) :
    Kept K g (node.retry K b).1 (queue ++ (node.retry K b).2.toList) := by
  have hold : ∀ k ∈ queue, ((node.retry K b).1.chain.state.blocks k).isSome :=
    fun k hk => isSome_blocks_retry h.inv (h.queue k hk) b
  rcases Node.retry_cases h.inv b with
    ⟨n, t, lo, lp, a, p, s, hcan, hpl, horphans, hres⟩ | ⟨-, hnone, horphans⟩
  · refine ⟨h.inv.retry b, fun k hk => ?_, ?_⟩
    · rcases List.mem_append.mp hk with hk | hk
      · exact hold k hk
      · rcases hres with ⟨-, hhash⟩ | ⟨-, hnone, -⟩
        · rw [hhash, Option.toList_some] at hk
          obtain rfl := List.mem_singleton.mp hk
          exact hpl.storable.isSome_blocks_retry h.inv
        · rw [hnone] at hk
          cases hk
    · rw [horphans]
      exact h.keyed
  · rw [hnone, Option.toList_none, List.append_nil]
    refine ⟨h.inv.retry b, hold, fun k x hx => ?_⟩
    rcases horphans with horphans | horphans
    · rw [horphans] at hx
      exact h.keyed k x hx
    · rw [horphans, Orphans.waiting_push] at hx
      split at hx
      · next heq =>
        rw [heq]
        rcases List.mem_append.mp hx with hx | hx
        · exact h.keyed _ x hx
        · rw [List.mem_singleton.mp hx]
      · exact h.keyed k x hx

theorem Kept.pop {queue : List Hash256} {k : Hash256} (h : Kept K g node (k :: queue)) :
    Kept K g { node with orphans := node.orphans.erase k } queue where
  inv := h.inv
  queue k' hk' := h.queue k' (List.mem_cons_of_mem _ hk')
  keyed k' b hb := by
    rw [Orphans.waiting_erase] at hb
    split at hb
    · cases hb
    · exact h.keyed k' b hb

/-- Blocks are only added to those that wait for a hash. -/
theorem waiting_retry_ne_nil (hc : ChainInv K g node.chain) {k : Hash256}
    (hk : node.orphans.waiting k ≠ []) (b : Block) : (node.retry K b).1.orphans.waiting k ≠ [] := by
  rcases Node.retry_cases hc b with
    ⟨n, t, lo, lp, a, p, s, -, -, horphans, -⟩ | ⟨-, -, horphans | horphans⟩
  · rwa [horphans]
  · rwa [horphans]
  · rw [horphans, Orphans.waiting_push]
    split
    · simp
    · exact hk

/-- A node that is stuck stays so, and is stuck after a call that should have woken
others. -/
theorem Stuck.call {t : Hash256} {queue : List Hash256} {b : Block} (hkept : Kept K g node queue)
    (h : Stuck t node queue ∨ ¬ Wakes K g t (node, b)) :
    Stuck t (node.retry K b).1 (queue ++ (node.retry K b).2.toList) := by
  rcases h with (⟨k, hk, hqueue, hwait⟩ | ⟨hsome, htip⟩) | hnot
  · -- the accepted hash is new, so it is not `k`
    refine .inl ⟨k, isSome_blocks_retry hkept.inv hk b, ?_, waiting_retry_ne_nil hkept.inv hwait b⟩
    rw [List.mem_append, not_or]
    refine ⟨hqueue, fun hmem => ?_⟩
    rcases Node.retry_cases hkept.inv b with
      ⟨n, t', lo, lp, a, p, s, -, hpl, -, ⟨-, hhash⟩ | ⟨-, hnone, -⟩⟩ | ⟨-, hnone, -⟩
    · rw [hhash, Option.toList_some] at hmem
      obtain rfl := List.mem_singleton.mp hmem
      rw [hpl.new] at hk
      cases hk
    · rw [hnone] at hmem
      cases hmem
    · rw [hnone] at hmem
      cases hmem
  · -- the tip moves only to a block that was not stored, so not to `t`
    refine .inr ⟨isSome_blocks_retry hkept.inv hsome b, fun n heq => ?_⟩
    obtain ⟨n', t', lo, hcan⟩ := hkept.inv.canonical
    rw [tip_retry] at heq
    rcases tip_submit_cases hkept.inv hcan b with hsame | ⟨lp, a, p, s, hpl, -, hnew⟩
    · rw [hsame, ← hcan.tip] at heq
      exact htip n heq
    · rw [hnew] at heq
      obtain ⟨-, rfl⟩ := Prod.mk.inj (Option.some.inj heq)
      rw [hpl.new] at hsome
      cases hsome
  · -- the block is stored but wakes nobody
    unfold Wakes at hnot
    obtain ⟨hwaits, hnot⟩ := Classical.not_imp.mp hnot
    rcases Node.retry_cases hkept.inv b with
      ⟨n, t', lo, lp, a, p, s, hcan, hpl, horphans, ⟨hover, -⟩ | ⟨-, hnone, htip⟩⟩ | ⟨hst, -⟩
    · exact absurd (overtakes_of hcan hpl hover) hnot
    · have hself := hpl.storable.isSome_blocks_retry hkept.inv
      rw [hnone, Option.toList_none, List.append_nil]
      rcases hwaits with hwait | rfl
      · refine .inl ⟨_, hself, fun hmem => ?_, ?_⟩
        · have hsome := hkept.queue _ hmem
          rw [hpl.new] at hsome
          cases hsome
        · rw [horphans]
          exact hwait
      · refine .inr ⟨hself, fun n heq => ?_⟩
        rw [htip, hcan.tip] at heq
        obtain ⟨-, rfl⟩ := Prod.mk.inj (Option.some.inj heq)
        have hsome := hcan.branch.get_isSome
        rw [hpl.new] at hsome
        cases hsome
    · exact absurd (fun n t lo lp a p s _ hpl => absurd hpl.storable hst) hnot

theorem Stuck.pop {t : Hash256} {queue : List Hash256} {k : Hash256}
    (h : Stuck t node (k :: queue)) :
    Stuck t { node with orphans := node.orphans.erase k } queue := by
  rcases h with ⟨k', hk', hqueue, hwait⟩ | htip
  · rw [List.mem_cons, not_or] at hqueue
    refine .inl ⟨k', hk', hqueue.2, ?_⟩
    rw [Orphans.waiting_erase, if_neg hqueue.1]
    exact hwait
  · exact .inr htip

/-! ## Deliveries -/

theorem Kept.deliver (h : Kept K g node []) (b : Block) :
    Kept K g (node.acceptAndBroadcast K b).1 [] :=
  (node.loop_acceptAndBroadcast b).invariant (I := fun node _ queue => Kept K g node queue)
    (Q := fun _ => True) (fun _ b _ _ _ h => h.call b) (fun _ _ _ h => h.pop) (fun _ _ => trivial) h

/-- If the node is not stuck in the end, no call left it stuck. -/
theorem wakes_of_not_stuck {t : Hash256} (bs : List Block) (hkept : Kept K g node [])
    (hend : ¬ Stuck t (bs.foldl (fun node b => (node.acceptAndBroadcast K b).1) node) []) :
    ¬ Stuck t node [] ∧ ∀ call ∈ node.deliverCalls K bs, Wakes K g t call := by
  induction bs generalizing node with
  | nil => exact ⟨hend, fun call hcall => (nomatch hcall)⟩
  | cons b bs ih =>
    obtain ⟨hnext, hrest⟩ := ih (hkept.deliver b) hend
    obtain ⟨hnow, hcalls⟩ := (node.loop_acceptAndBroadcast b).forall_calls
      (J := Kept K g) (B := Stuck t) (Q := Wakes K g t) (fun _ b _ h => h.call b)
      (fun _ _ _ h => h.pop) (fun _ _ _ hk h => Stuck.call hk h) (fun _ _ _ _ h => h.pop)
      hkept hnext
    refine ⟨hnow, fun call hcall => ?_⟩
    rcases List.mem_append.mp hcall with hcall | hcall
    · exact hcalls call hcall
    · exact hrest call hcall

/-- The first call for each delivered block. -/
theorem Node.mem_deliverCalls (node : Node) (pre : List Block) (b : Block) (post : List Block) :
    (pre.foldl (fun node b => (node.acceptAndBroadcast K b).1) node, b)
      ∈ node.deliverCalls K (pre ++ b :: post) := by
  induction pre generalizing node with
  | nil => exact List.mem_append_left _ List.mem_cons_self
  | cons x pre ih => exact List.mem_append_right _ (ih _)

theorem Progress.deliverAll {S : List Block} {t : Hash256} {lt : BlockChain}
    (hset : BlockSet K g S t lt) {P : List Block} (bs : List Block) (hbs : ∀ b ∈ bs, b ∈ S)
    (h : Progress K g S t P node [] []) (hwakes : ∀ call ∈ node.deliverCalls K bs, Wakes K g t call) :
    Progress K g S t (P ++ bs) (bs.foldl (fun node b => (node.acceptAndBroadcast K b).1) node)
      [] [] := by
  induction bs generalizing node P with
  | nil => rwa [List.append_nil]
  | cons b bs ih =>
    have hfirst := h.deliver hset (hbs b List.mem_cons_self) fun call hcall =>
      hwakes call (List.mem_append_left _ hcall)
    have hrest := ih (fun x hx => hbs x (List.mem_cons_of_mem _ hx)) hfirst fun call hcall =>
      hwakes call (List.mem_append_right _ hcall)
    rwa [List.append_assoc] at hrest

/-- Both kinds of event that deliver a block do the same. -/
theorem handleEvent_of_delivered {event : NetworkEvent} {b : Block}
    (h : event.delivered = some b) : node.handleEvent K event = (node.acceptAndBroadcast K b).1 := by
  cases event with
  | newBlock block =>
    cases h
    rfl
  | blockResponse block =>
    obtain rfl : block = some b := h
    rfl
  | peerConnected addr => cases h
  | peerDisconnected addr => cases h
  | newTransaction tx => cases h
  | getBlockRequest addr hash => cases h

theorem foldl_handleEvent {events : List NetworkEvent} {bs : List Block}
    (h : events.map NetworkEvent.delivered = bs.map some) (node : Node) :
    events.foldl (Node.handleEvent K) node
      = bs.foldl (fun node b => (node.acceptAndBroadcast K b).1) node := by
  induction bs generalizing node events with
  | nil =>
    rw [List.map_nil, List.map_eq_nil_iff] at h
    rw [h]
    rfl
  | cons b bs ih =>
    obtain ⟨event, rest, rfl, hevent, hrest⟩ := List.map_eq_cons_iff.mp h
    rw [List.foldl_cons, List.foldl_cons, handleEvent_of_delivered hevent, ih hrest]

/-- Blocks handed to `accept_and_broadcast` one after another. -/
theorem resolves_iff {S : List Block} {t : Hash256} {lt : BlockChain} (hset : BlockSet K g S t lt)
    (hinit : (chainMachine K g).init node.chain) (horphans : node.orphans = ∅) :
    Resolved K S t (S.foldl (fun node b => (node.acceptAndBroadcast K b).1) node) ↔
      ∀ call ∈ node.deliverCalls K S, Wakes K g t call := by
  have hstart : Progress K g S t [] node [] [] := .start hinit horphans
  constructor
  · intro hres
    have hkept : Kept K g node [] :=
      ⟨hstart.part.inv, fun h hh => (nomatch hh), fun h b hb => (hstart.waiting_mem h b hb).2⟩
    refine (wakes_of_not_stuck S hkept ?_).2
    rintro (⟨h, hsome, -, hwait⟩ | ⟨-, htip⟩)
    · obtain ⟨b, hb⟩ := List.exists_mem_of_ne_nil _ hwait
      have hend : Kept K g (S.foldl (fun node b => (node.acceptAndBroadcast K b).1) node) [] :=
        List.foldlRecOn (motive := fun node => Kept K g node []) S _ hkept
          fun _ h b _ => h.deliver b
      rw [← hend.keyed h b hb, hres.buffer h b hb] at hsome
      cases hsome
    · obtain ⟨n, hn⟩ := hres.tip
      exact htip n hn
  · intro hwakes
    exact (hstart.deliverAll hset S (fun _ hb => hb) hwakes).resolved hset

/-- **The deliveries are resolved exactly when every block that others wait for, and
the head of the heaviest branch, overtakes the tip when it is submitted.** -/
theorem resolved_iff {S : List Block} {t : Hash256} {lt : BlockChain} (hset : BlockSet K g S t lt)
    (hinit : (chainMachine K g).init node.chain) (horphans : node.orphans = ∅)
    {events : List NetworkEvent} (hevents : events.map NetworkEvent.delivered = S.map some) :
    Resolved K S t (events.foldl (Node.handleEvent K) node) ↔
      ∀ call ∈ node.deliverCalls K S, Wakes K g t call := by
  rw [foldl_handleEvent hevents]
  exact resolves_iff hset hinit horphans

/-! ## Valid branches -/

/-- If the block is stored, it has more work than the tip. -/
def Outweighs (K : Crates) (g : GenesisConfig) (st : ChainState) (b : Block) : Prop :=
  ∀ n t lo lp a p s, Canonical K g st n t lo → Placement K g st lo b lp a p s →
    branchWork lo < branchWork ((blockId K b, b) :: lp)

theorem LedgerInv.congr {st st' : ChainState} (h : LedgerInv K g st) (hcore : st'.core = st.core) :
    LedgerInv K g st' := by
  simp only [ChainState.core, Prod.mk.injEq] at hcore
  obtain ⟨haccounts, hblocks, hheights, -, htip⟩ := hcore
  have hledger : st'.ledger = st.ledger := by
    funext addr
    rw [ChainState.ledger, ChainState.ledger, ChainState.getAccount, ChainState.getAccount,
      haccounts]
  intro n t l hcan
  rw [hledger]
  exact h n t l (hcan.congr hblocks.symm hheights.symm htip.symm)

section Valid

variable {S : List Block} {t : Hash256} {lt : BlockChain}

/-- The state of a node whenever it submits a block of the set. -/
structure Sane (K : Crates) (g : GenesisConfig) (S : List Block) (node : Node)
    (items : List Block) : Prop where
  part : StoredPart K g S node.chain
  ledger : LedgerInv K g node.chain.state
  items_mem : ∀ b ∈ items, b ∈ S
  waiting_mem : ∀ h, ∀ b ∈ node.orphans.waiting h, b ∈ S

theorem Sane.call (hbound : SupplyBound g) {b : Block} {items : List Block}
    (h : Sane K g S node (b :: items)) : Sane K g S (node.retry K b).1 items where
  part := h.part.retry (h.items_mem b List.mem_cons_self)
  ledger := by
    have hroom := roomFor_of_bound hbound h.part.inv b
    exact (LedgerInv.submit h.part.inv h.ledger hroom).congr (core_retry node b)
  items_mem x hx := h.items_mem x (List.mem_cons_of_mem _ hx)
  waiting_mem k x hx := by
    rcases Node.retry_cases h.part.inv b with
      ⟨n, t, lo, lp, a, p, s, -, -, horphans, -⟩ | ⟨-, -, horphans | horphans⟩
    · rw [horphans] at hx
      exact h.waiting_mem k x hx
    · rw [horphans] at hx
      exact h.waiting_mem k x hx
    · rw [horphans, Orphans.waiting_push] at hx
      split at hx
      · rcases List.mem_append.mp hx with hx | hx
        · exact h.waiting_mem _ x hx
        · rw [List.mem_singleton.mp hx]
          exact h.items_mem b List.mem_cons_self
      · exact h.waiting_mem k x hx

theorem Sane.pop {k : Hash256} (h : Sane K g S node []) :
    Sane K g S { node with orphans := node.orphans.erase k } (node.orphans.waiting k) where
  part := h.part
  ledger := h.ledger
  items_mem := h.waiting_mem k
  waiting_mem k' b hb := by
    rw [Orphans.waiting_erase] at hb
    split at hb
    · cases hb
    · exact h.waiting_mem k' b hb

/-- Every call while the blocks are delivered is made in such a state. -/
theorem Sane.deliverCalls (hbound : SupplyBound g) {bs : List Block} (hbs : ∀ b ∈ bs, b ∈ S)
    (h : Sane K g S node []) : ∀ call ∈ node.deliverCalls K bs, ∃ items,
      Sane K g S call.1 (call.2 :: items) := by
  induction bs generalizing node with
  | nil => exact fun call hcall => (nomatch hcall)
  | cons b bs ih =>
    have hloop := node.loop_acceptAndBroadcast (K := K) b
    have hfirst : Sane K g S node [b] := by
      refine ⟨h.part, h.ledger, fun x hx => ?_, h.waiting_mem⟩
      rw [List.mem_singleton.mp hx]
      exact hbs b List.mem_cons_self
    have hnext : Sane K g S (node.acceptAndBroadcast K b).1 [] :=
      hloop.invariant (I := fun node items _ => Sane K g S node items) (Q := fun _ => True)
        (fun _ _ _ _ _ h => h.call hbound) (fun _ _ _ h => h.pop) (fun _ _ => trivial) hfirst
    intro call hcall
    rcases List.mem_append.mp hcall with hcall | hcall
    · obtain ⟨items, -, hsane⟩ := hloop.calls_invariant
        (I := fun node items _ => Sane K g S node items)
        (fun _ _ _ _ h => h.call hbound) (fun _ _ _ h => h.pop) hfirst call hcall
      exact ⟨items, hsane⟩
    · exact ih (fun x hx => hbs x (List.mem_cons_of_mem _ hx)) hnext call hcall

/-- A valid block overtakes the tip if it outweighs it. -/
theorem Sane.overtakes (hbound : SupplyBound g) (hset : BlockSet K g S t lt)
    (hvalid : ∀ h l, Admitted K g S h l → (branchLedger K g l).isSome) {b : Block}
    {items : List Block} (h : Sane K g S node (b :: items))
    (hout : Outweighs K g node.chain.state b) : Overtakes K g node.chain.state b := by
  intro n t' lo lp a p s hcan hpl
  refine ⟨hout n t' lo lp a p s hcan hpl, ?_⟩
  have hb := h.items_mem b List.mem_cons_self
  have hbranch := Admitted.block hb (hset.ne_genesis b hb) (h.part.admitted hpl.parent) hpl.ok
  have hreplay := hpl.simulate_ledger h.part.inv h.ledger hcan
    (hpl.hasRoom hbound h.part.inv.stored)
  have hsome := hvalid _ _ hbranch
  rw [← hreplay] at hsome
  cases hsim : simulate K g node.chain.state a p with
  | error e =>
    rw [hsim] at hsome
    cases hsome
  | ok overlay => exact ⟨overlay, rfl⟩

/-- The head of the heaviest branch outweighs every tip. -/
theorem Sane.outweighs_head (hset : BlockSet K g S t lt) {b : Block} {items : List Block}
    (h : Sane K g S node (b :: items)) (hhead : blockId K b = t) :
    Outweighs K g node.chain.state b := by
  intro n t' lo lp a p s hcan hpl
  have hb := h.items_mem b List.mem_cons_self
  have hbranch := Admitted.block hb (hset.ne_genesis b hb) (h.part.admitted hpl.parent) hpl.ok
  have hne : t' ≠ t := by
    rintro rfl
    have hsome := hcan.branch.get_isSome
    rw [← hhead, hpl.new] at hsome
    cases hsome
  subst hhead
  rw [hset.unique hbranch hset.head]
  exact hset.heaviest _ _ (h.part.admitted hcan.branch) hne

/-- Valid branches below the supply bound: the deliveries resolve exactly when every
block that others wait for has more work than the tip when it is submitted. -/
theorem resolved_iff_of_valid (hbound : SupplyBound g) (hset : BlockSet K g S t lt)
    (hvalid : ∀ h l, Admitted K g S h l → (branchLedger K g l).isSome)
    (hinit : (chainMachine K g).init node.chain) (horphans : node.orphans = ∅)
    {events : List NetworkEvent} (hevents : events.map NetworkEvent.delivered = S.map some) :
    Resolved K S t (events.foldl (Node.handleEvent K) node) ↔
      ∀ call ∈ node.deliverCalls K S, call.1.orphans.waiting (blockId K call.2) ≠ [] →
        Outweighs K g call.1.chain.state call.2 := by
  have hstart : Progress K g S t [] node [] [] := .start hinit horphans
  have hsane : Sane K g S node [] := by
    refine ⟨hstart.part, ledgerInv hbound (.init hinit), fun b hb => (nomatch hb), fun h b hb => ?_⟩
    exact (hstart.waiting_mem h b hb).1
  rw [foldl_handleEvent hevents, resolves_iff hset hinit horphans]
  constructor
  · intro hwakes call hcall hwait n t' lo lp a p s hcan hpl
    exact (hwakes call hcall (.inl hwait) n t' lo lp a p s hcan hpl).1
  · intro hout call hcall hwaits
    obtain ⟨items, hcallSane⟩ := hsane.deliverCalls hbound (fun _ hb => hb) call hcall
    refine hcallSane.overtakes hbound hset hvalid ?_
    rcases hwaits with hwait | hhead
    · exact hout call hcall hwait
    · exact hcallSane.outweighs_head hset hhead

end Valid

/-! ## A side branch that wakes nobody -/

/-- A block on genesis. -/
def forkA1 : Block := emptyBlock 1 (smallGenesis.genesisHash smallCrates) 1

/-- Another block on genesis. -/
def forkB1 : Block := emptyBlock 1 (smallGenesis.genesisHash smallCrates) 2

/-- A block on the other one. -/
def forkB2 : Block := emptyBlock 2 (nonceId 2) 3

/-- The child comes first, its parent last. -/
def forkBlocks : List Block := [forkB2, forkA1, forkB1]

def forkEvents : List NetworkEvent :=
  [.newBlock forkB2, .blockResponse (some forkA1), .newBlock forkB1]

/-- The node of the small chain as it starts. -/
def smallNode : Node := ⟨smallOpen, ∅, 0, []⟩

/-- Branches of empty blocks are valid. -/
theorem branchLedger_isSome {l : BlockChain} (h : ∀ p ∈ l, p.2.transactions.val = []) :
    (branchLedger K g l).isSome := by
  refine isSome_replay fun P hP => ?_
  obtain ⟨p, hp, rfl⟩ := List.mem_map.mp (List.mem_reverse.mp hP)
  rw [Block.page, h p (List.mem_of_mem_dropLast hp)]
  rfl

theorem Admitted.transactions {S : List Block} (hS : ∀ b ∈ S, b.transactions.val = [])
    {h : Hash256} {l : BlockChain} (hl : Admitted K g S h l) :
    ∀ p ∈ l, p.2.transactions.val = [] := by
  induction hl with
  | genesis =>
    intro p hp
    rw [List.mem_singleton.mp hp]
    rfl
  | @block b l hb _ _ _ ih =>
    intro p hp
    rcases List.mem_cons.mp hp with rfl | hp
    · exact hS b hb
    · exact ih p hp

theorem admitted_genesis_unique {S : List Block} {l : BlockChain}
    (hl : Admitted K g S (g.genesisHash K) l) : l = [(g.genesisHash K, g.genesisBlock)] := by
  rcases hl.head with ⟨-, rfl⟩ | ⟨b, t, -, -, hne, -⟩
  · rfl
  · exact absurd rfl hne

theorem blockId_forkA1 : blockId smallCrates forkA1 = nonceId 1 := blockId_small _

theorem blockId_forkB1 : blockId smallCrates forkB1 = nonceId 2 := blockId_small _

theorem blockId_forkB2 : blockId smallCrates forkB2 = nonceId 3 := blockId_small _

theorem blockSet_fork : ∃ lt, BlockSet smallCrates smallGenesis forkBlocks (nonceId 3) lt := by
  have hA : forkA1 ∈ forkBlocks := by simp [forkBlocks]
  have hB : forkB1 ∈ forkBlocks := by simp [forkBlocks]
  have hB2 : forkB2 ∈ forkBlocks := by simp [forkBlocks]
  have hids : ∀ b ∈ forkBlocks, blockId smallCrates b = nonceId b.header.nonce :=
    fun b _ => blockId_small b
  have hne : ∀ b ∈ forkBlocks, blockId smallCrates b ≠ smallGenesis.genesisHash smallCrates := by
    intro b hb
    rw [hids b hb]
    exact nonceId_ne_genesisHash _
  have hokA : BlockOk smallCrates smallGenesis [smallGenesis.genesisBlock]
      (blockId smallCrates forkA1) forkA1 := by
    rw [blockId_forkA1]
    exact emptyBlock_ok _ _ (by decide) (by decide)
  have hokB : BlockOk smallCrates smallGenesis [smallGenesis.genesisBlock]
      (blockId smallCrates forkB1) forkB1 := by
    rw [blockId_forkB1]
    exact emptyBlock_ok _ _ (by decide) (by decide)
  have hokB2 : BlockOk smallCrates smallGenesis [forkB1, smallGenesis.genesisBlock]
      (blockId smallCrates forkB2) forkB2 := by
    rw [blockId_forkB2]
    exact emptyBlock_ok _ _ rfl (by simp [toNat_epochLength])
  have hgen : Admitted smallCrates smallGenesis forkBlocks (smallGenesis.genesisHash smallCrates)
      [(smallGenesis.genesisHash smallCrates, smallGenesis.genesisBlock)] := .genesis
  have hbranchB := Admitted.block hB (hne _ hB) hgen hokB
  have hparent : forkB2.header.prevHash = blockId smallCrates forkB1 := blockId_forkB1.symm
  have hparentB2 : Admitted smallCrates smallGenesis forkBlocks forkB2.header.prevHash
      [(blockId smallCrates forkB1, forkB1),
        (smallGenesis.genesisHash smallCrates, smallGenesis.genesisBlock)] := by
    rw [hparent]
    exact hbranchB
  have hbranchB2 := Admitted.block hB2 (hne _ hB2) hparentB2 hokB2
  rw [blockId_forkB2] at hbranchB2
  refine ⟨_, ?_, hne, ?_, hbranchB2, ?_⟩
  · intro x hx y hy heq
    rw [hids x hx, hids y hy] at heq
    have hnonce := nonceId_injective heq
    simp only [forkBlocks, List.mem_cons, List.not_mem_nil, or_false] at hx hy
    rcases hx with rfl | rfl | rfl <;> rcases hy with rfl | rfl | rfl <;>
      first | rfl | exact absurd hnonce (by decide)
  · intro b hb
    simp only [forkBlocks, List.mem_cons, List.not_mem_nil, or_false] at hb
    rcases hb with rfl | rfl | rfl
    · exact ⟨_, hparentB2, hokB2⟩
    · exact ⟨_, hgen, hokA⟩
    · exact ⟨_, hgen, hokB⟩
  · intro h l hl hhead
    rcases hl.head with ⟨-, rfl⟩ | ⟨x, tail, hx, rfl, -, rfl, hpar, -⟩
    · decide
    · simp only [forkBlocks, List.mem_cons, List.not_mem_nil, or_false] at hx
      rcases hx with rfl | rfl | rfl
      · exact absurd blockId_forkB2 hhead
      · rw [admitted_genesis_unique hpar]
        decide
      · rw [admitted_genesis_unique hpar]
        decide

/-- The claimed end is reached exactly if all three calls wake what waits. -/
theorem resolved_iff_small : Resolved smallCrates forkBlocks (nonceId 3)
      (forkEvents.foldl (Node.handleEvent smallCrates) smallNode) ↔
    ∀ call ∈ smallNode.deliverCalls smallCrates forkBlocks,
      Wakes smallCrates smallGenesis (nonceId 3) call := by
  obtain ⟨lt, hset⟩ := blockSet_fork
  exact resolved_iff hset init_small rfl rfl

/-- A delivery that wakes nobody. -/
theorem accept_of_none {b : Block} (h : (node.retry K b).2 = none) :
    (node.acceptAndBroadcast K b).1 = (node.retry K b).1 := by
  rw [Node.acceptAndBroadcast_eq, h, Option.toList_none, Worklist.run]

/-- A block is accepted and nothing waits for it. -/
theorem accept_of_idle {b : Block} {hash : Hash256} (h : (node.retry K b).2 = some hash)
    (hidle : (node.retry K b).1.orphans.waiting hash = []) : (node.acceptAndBroadcast K b).1
      = { (node.retry K b).1 with orphans := (node.retry K b).1.orphans.erase hash } := by
  have htake : ((Node.cascade K).take (node.retry K b).1 hash).2 = [] := hidle
  rw [Node.acceptAndBroadcast_eq, h, Option.toList_some, Worklist.run]
  simp only [htake, Worklist.handleAll]
  rw [Worklist.run]
  rfl

/-- The node after the child: it waits for its parent. -/
theorem forkNode_child {n : Node} (hn : n = (smallNode.acceptAndBroadcast smallCrates forkB2).1) :
    n.orphans = Orphans.push ∅ (nonceId 2) forkB2 ∧ ChainInv smallCrates smallGenesis n.chain ∧
      n.chain.state.core = smallOpen.state.core := by
  have hinv : ChainInv smallCrates smallGenesis smallNode.chain := chainInv (.init init_small)
  obtain ⟨hcan, honly⟩ := canonical_smallOpen
  have hnone : ∀ m, smallOpen.state.blocks (nonceId m) = none :=
    fun m => honly _ (nonceId_ne_genesisHash m)
  have hres : (smallNode.chain.submitBlock smallCrates forkB2).result = .ok (.orphan (nonceId 2)) := by
    refine submitBlock_orphan hinv (by decide) (by decide) ?_ (merkleRoot_nil smallCrates).symm ?_
      (by decide) (hnone 2)
    · rw [blockId_forkB2]
      exact hnone 3
    · rw [blockId_forkB2]
      exact meetsTarget_nonceId 3
  obtain ⟨horphans, hwake⟩ := Node.retry_orphan hres
  have hnot : ¬ Storable smallCrates smallGenesis smallNode.chain.state forkB2 := by
    rintro ⟨-, l, hl, -⟩
    have hsome : (smallOpen.state.blocks (nonceId 2)).isSome := hl.get_isSome
    rw [hnone 2] at hsome
    cases hsome
  rw [hn, accept_of_none hwake]
  refine ⟨horphans, hinv.retry forkB2, ?_⟩
  rw [core_retry, state_submit_unstorable hinv hnot]
  rfl

/-- The node after the first block on genesis, which becomes the tip. -/
theorem forkNode_tip {n n' : Node} (hn : n = (smallNode.acceptAndBroadcast smallCrates forkB2).1)
    (hn' : n' = (n.acceptAndBroadcast smallCrates forkA1).1) :
    n'.orphans.waiting (nonceId 2) ≠ [] ∧ ChainInv smallCrates smallGenesis n'.chain ∧
      Canonical smallCrates smallGenesis n'.chain.state 1 (nonceId 1) [(nonceId 1, forkA1),
        (smallGenesis.genesisHash smallCrates, smallGenesis.genesisBlock)] ∧
      n'.chain.state.blocks (nonceId 2) = none := by
  obtain ⟨horphans, hinv, hcore⟩ := forkNode_child hn
  obtain ⟨hcan₀, honly⟩ := canonical_smallOpen
  have hblocks := core_blocks hcore
  have hcan : Canonical smallCrates smallGenesis n.chain.state 0
      (smallGenesis.genesisHash smallCrates)
      [(smallGenesis.genesisHash smallCrates, smallGenesis.genesisBlock)] :=
    hcan₀.congr hblocks (core_heights hcore) (core_tip hcore)
  have hnone : ∀ m, n.chain.state.blocks (nonceId m) = none := fun m => by
    rw [hblocks, honly _ (nonceId_ne_genesisHash m)]
  have hnew : n.chain.state.blocks (blockId smallCrates forkA1) = none := by
    rw [blockId_forkA1, hnone 1]
  have hok : BlockOk smallCrates smallGenesis [smallGenesis.genesisBlock]
      (blockId smallCrates forkA1) forkA1 := by
    rw [blockId_forkA1]
    exact emptyBlock_ok _ _ (by decide) (by decide)
  have hempty : forkA1.transactions.val = [] := rfl
  obtain ⟨overlay, happ⟩ := applyBlock_empty (K := smallCrates) (g := smallGenesis) n.chain.state
    (blockId smallCrates forkA1) hempty
  have hone : (1 : UInt64) ≤ forkA1.header.difficulty := UInt64.le_refl 1
  have hcan' := Canonical.extend hinv hcan rfl hnew hok hone happ
  have hres := submitBlock_extension hinv hcan rfl hnew hok hone
  rw [happ] at hres
  obtain ⟨horphans', hwake⟩ := Node.retry_accepted (congrArg Submission.result hres)
  rw [blockId_forkA1] at hwake hcan'
  have hidle : (n.retry smallCrates forkA1).1.orphans.waiting (nonceId 1) = [] := by
    rw [horphans', horphans, Orphans.waiting_push, if_neg (nonceId_ne (by decide))]
    rfl
  have hcore' := core_retry (K := smallCrates) n forkA1
  rw [hn', accept_of_idle hwake hidle]
  refine ⟨?_, hinv.retry forkA1, hcan'.congr (core_blocks hcore') (core_heights hcore')
    (core_tip hcore'), ?_⟩
  · simp only
    rw [Orphans.waiting_erase, if_neg (nonceId_ne (by decide)), horphans', horphans,
      Orphans.waiting_push, if_pos rfl]
    simp
  · by_contra hsome
    obtain ⟨x, hx⟩ := Option.ne_none_iff_exists'.mp hsome
    have hx' : (n.chain.submit smallCrates forkA1).state.blocks (nonceId 2) = some x := by
      rw [← core_blocks hcore']
      exact hx
    rcases submit_blocks_cases hinv hx' with hold | ⟨heq, -⟩
    · rw [hnone 2] at hold
      cases hold
    · rw [blockId_forkA1] at heq
      exact nonceId_ne (by decide) heq

/-- The child waits in the buffer although its parent is stored. -/
theorem not_resolved_small : (∃ lt, BlockSet smallCrates smallGenesis forkBlocks (nonceId 3) lt) ∧
    SupplyBound smallGenesis ∧
    (∀ h l, Admitted smallCrates smallGenesis forkBlocks h l →
      (branchLedger smallCrates smallGenesis l).isSome) ∧
    (chainMachine smallCrates smallGenesis).init smallNode.chain ∧
    forkEvents.map NetworkEvent.delivered = forkBlocks.map some ∧
    ¬ Resolved smallCrates forkBlocks (nonceId 3)
      (forkEvents.foldl (Node.handleEvent smallCrates) smallNode) := by
  obtain ⟨lt, hset⟩ := blockSet_fork
  refine ⟨⟨lt, hset⟩, supplyBound_small, fun h l hl => ?_, init_small, rfl, fun hres => ?_⟩
  · refine branchLedger_isSome (hl.transactions fun b hb => ?_)
    simp only [forkBlocks, List.mem_cons, List.not_mem_nil, or_false] at hb
    rcases hb with rfl | rfl | rfl <;> rfl
  have hevents : forkEvents.map NetworkEvent.delivered = forkBlocks.map some := rfl
  rw [foldl_handleEvent hevents] at hres
  have hwakes := (resolves_iff hset init_small rfl).mp hres
  have hmem := smallNode.mem_deliverCalls (K := smallCrates) [forkB2, forkA1] forkB1 []
  rw [List.foldl_cons, List.foldl_cons, List.foldl_nil] at hmem
  generalize hn' : ((smallNode.acceptAndBroadcast smallCrates forkB2).1.acceptAndBroadcast
    smallCrates forkA1).1 = n' at hmem
  have hcall : Wakes smallCrates smallGenesis (nonceId 3) (n', forkB1) := hwakes _ hmem
  obtain ⟨hwait, hinv, hcan, hnone⟩ := forkNode_tip rfl hn'.symm
  rw [← blockId_forkB1] at hwait hnone
  have hok : BlockOk smallCrates smallGenesis [smallGenesis.genesisBlock]
      (blockId smallCrates forkB1) forkB1 := by
    rw [blockId_forkB1]
    exact emptyBlock_ok _ _ (by decide) (by decide)
  have hdisjoint : ∀ k ∈ [(nonceId 1, forkA1)].map Prod.fst,
      k ∉ [(blockId smallCrates forkB1, forkB1)].map Prod.fst := by
    intro k hk hk'
    rw [List.mem_singleton.mp hk, blockId_forkB1] at hk'
    exact nonceId_ne (by decide) (List.mem_singleton.mp hk')
  have hfork : Fork [(nonceId 1, forkA1),
      (smallGenesis.genesisHash smallCrates, smallGenesis.genesisBlock)]
      [(blockId smallCrates forkB1, forkB1),
        (smallGenesis.genesisHash smallCrates, smallGenesis.genesisBlock)]
      [(nonceId 1, forkA1)] [(blockId smallCrates forkB1, forkB1)]
      [(smallGenesis.genesisHash smallCrates, smallGenesis.genesisBlock)] :=
    ⟨List.singleton_append.symm, List.singleton_append.symm, List.cons_ne_nil _ _, hdisjoint⟩
  -- the parent has as much work as the tip, and no more
  have hover := hcall (.inl hwait) _ _ _ _ _ _ _ hcan
    ⟨hnone, hinv.stored.genesis_branch, hok, hfork⟩
  have hequal : ¬ branchWork [(nonceId 1, forkA1), (smallGenesis.genesisHash smallCrates,
        smallGenesis.genesisBlock)]
      < branchWork [(blockId smallCrates forkB1, forkB1), (smallGenesis.genesisHash smallCrates,
        smallGenesis.genesisBlock)] := Nat.lt_irrefl 2
  exact hequal hover.1

end Ondris
