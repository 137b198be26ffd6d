import Ondris.Convergence
import Ondris.Node
import Ondris.Atomicity

/-!
# Orphan blocks

Blocks that arrive before their parent wait in the buffer of the node until the
parent is accepted. A parent that is stored on a side branch wakes nobody.

Results:
1. `StoredPart.cases`: a block of a well-formed set is known, an orphan, or
   storable.
2. `Progress.call`, `Progress.deliver`: as long as every block that others wait for
   overtakes the tip when it is submitted, every block is stored or waits for a
   parent that is not.
3. `Progress.resolved`: once all are delivered none waits.
-/

namespace Ondris

open Ledger

/-! ## Definitions -/

/-- If the block is stored, it has more work than the tip and the simulation of the
move to it succeeds. -/
def Overtakes (K : Crates) (g : GenesisConfig) (st : ChainState) (b : Block) : Prop :=
  ∀ n t lo lp a p s, Canonical K g st n t lo → Placement K g st lo b lp a p s →
    branchWork lo < branchWork ((blockId K b, b) :: lp) ∧ ∃ overlay, simulate K g st a p = .ok overlay

/-- A set of blocks on well-formed branches down to genesis, given as a list in any
order, with distinct identifiers and a strictly heaviest branch `lt` of head `t`. -/
structure BlockSet (K : Crates) (g : GenesisConfig) (S : List Block) (t : Hash256)
    (lt : BlockChain) : Prop where
  distinct : ∀ x ∈ S, ∀ y ∈ S, blockId K x = blockId K y → x = y
  ne_genesis : ∀ b ∈ S, blockId K b ≠ g.genesisHash K
  ok : ∀ b ∈ S, ∃ l, Admitted K g S b.header.prevHash l ∧ BlockOk K g (l.map Prod.snd) (blockId K b) b
  head : Admitted K g S t lt
  heaviest : ∀ h l, Admitted K g S h l → h ≠ t → branchWork l < branchWork lt

/-- No block waits for a stored one, all blocks are stored, and the tip is `t`. -/
structure Resolved (K : Crates) (S : List Block) (t : Hash256) (node : Node) : Prop where
  buffer : ∀ h, ∀ b ∈ node.orphans.waiting h, node.chain.state.blocks b.header.prevHash = none
  stored : ∀ b ∈ S, node.chain.state.blocks (blockId K b) = some b
  tip : ∃ n, node.chain.state.tip = some (n, t)

/-- The block an event delivers. -/
def NetworkEvent.delivered : NetworkEvent → Option Block
  | .newBlock block => some block
  | .blockResponse block => block
  | _ => none

/-- The calls of `submit_block` made by `accept_and_broadcast`, each with the node
before it. -/
def Node.calls (K : Crates) (node : Node) (block : Block) : List (Node × Block) :=
  (node, block) :: (cascade K).calls (node.retry K block).1 (node.retry K block).2.toList

/-- The calls made while the blocks are delivered one after another. -/
def Node.deliverCalls (K : Crates) : Node → List Block → List (Node × Block)
  | _, [] => []
  | node, b :: bs => node.calls K b ++ deliverCalls K (node.acceptAndBroadcast K b).1 bs

variable {K : Crates} {g : GenesisConfig} {c : Chain} {node : Node}

/-! ## What one call does -/

/-- A block that passes the checks on itself waits for its parent if that is not
stored. -/
theorem submitBlock_orphan (hc : ChainInv K g c) {b : Block} (hzero : b.header.height ≠ 0)
    (hlow : b.header.height.toNat < epochLength.toNat)
    (hnew : c.state.blocks (blockId K b) = none) (hroot : b.header.txRoot = b.computeTxRoot K)
    (htarget : meetsTarget (blockId K b) (targetForDifficulty b.header.difficulty) = true)
    (hsigned : ∀ tx ∈ b.transactions.val, tx.isSignatureValid K = true)
    (hparent : c.state.blocks b.header.prevHash = none) :
    (c.submitBlock K b).result = .ok (.orphan b.header.prevHash) := by
  have hblock : c.state.hasBlock (b.header.id K (epochZeroDataset K)) = false := by
    rw [ChainState.hasBlock, ← blockId, hnew]
    rfl
  have hmeets : meetsTarget (b.header.id K (epochZeroDataset K))
      (targetForDifficulty b.header.difficulty) = true := htarget
  have hall : b.transactions.val.all (·.isSignatureValid K) = true := List.all_eq_true.mpr hsigned
  have hget : c.state.getBlock b.header.prevHash = none := hparent
  have hcheck : checkBlock K g c.state (epochZeroDataset K) b
      = .ok (.done (.orphan b.header.prevHash)) := by
    simp [checkBlock, hblock, hroot, hmeets, hall, hget]
  rw [submitBlock_of_done hc hzero hlow hcheck]

theorem state_submit_unstorable (hc : ChainInv K g c) {b : Block}
    (hb : ¬ Storable K g c.state b) : (c.submit K b).state = c.state := by
  rw [Chain.submit, submitBlock_unstorable hc hb]
  rfl

/-- A storable block that overtakes the tip is accepted and becomes the tip. -/
theorem submitBlock_accepted (hc : ChainInv K g c) {n : UInt64} {t : Hash256}
    {lo lp a p s : BlockChain} (hcan : Canonical K g c.state n t lo) {b : Block}
    (hpl : Placement K g c.state lo b lp a p s)
    (hover : branchWork lo < branchWork ((blockId K b, b) :: lp) ∧
      ∃ overlay, simulate K g c.state a p = .ok overlay) :
    (c.submit K b).state.tip = some (b.header.height, blockId K b) ∧ ∃ reorged requeue,
      (c.submitBlock K b).result
        = .ok (.accepted (blockId K b) b.header.height reorged requeue) := by
  obtain ⟨hwork, overlay, hsim⟩ := hover
  obtain ⟨hres, hcan'⟩ := submitBlock_overtakes hc hcan hpl hwork hsim
  exact ⟨hcan'.tip, _, _, hres⟩

/-- A storable block that does not overtake the tip is stored, and that is all. -/
theorem submitBlock_stored (hc : ChainInv K g c) {n : UInt64} {t : Hash256}
    {lo lp a p s : BlockChain} (hcan : Canonical K g c.state n t lo) {b : Block}
    (hpl : Placement K g c.state lo b lp a p s)
    (hover : ¬ (branchWork lo < branchWork ((blockId K b, b) :: lp) ∧
      ∃ overlay, simulate K g c.state a p = .ok overlay)) :
    (c.submit K b).state = stateWith K c.state b lp ∧
      ((∃ e, (c.submitBlock K b).result = .error e) ∨
        (c.submitBlock K b).result = .ok (.sideBranch (blockId K b) b.header.height)) := by
  have hstate : (c.submit K b).state = c.state.writes (c.submitBlock K b).writes := rfl
  rw [hstate, submitBlock_storable hc hcan hpl, storeOutcome]
  by_cases hwork : branchWork lo < branchWork ((blockId K b, b) :: lp)
  · rw [if_pos hwork]
    cases hsim : simulate K g c.state a p with
    | error e => exact ⟨rfl, .inl ⟨e, rfl⟩⟩
    | ok overlay => exact absurd ⟨hwork, overlay, hsim⟩ hover
  · rw [if_neg hwork]
    exact ⟨rfl, .inr rfl⟩

namespace Node

/-- The block wakes what waits for it exactly when it is accepted. -/
theorem retry_accepted {b : Block} {hash : Hash256} {height : UInt64} {reorged : Bool}
    {requeue : List Transaction}
    (h : (node.chain.submitBlock K b).result = .ok (.accepted hash height reorged requeue)) :
    (node.retry K b).1.orphans = node.orphans ∧ (node.retry K b).2 = some hash := by
  rw [retry, h]
  exact ⟨rfl, rfl⟩

theorem retry_orphan {b : Block} {parent : Hash256}
    (h : (node.chain.submitBlock K b).result = .ok (.orphan parent)) :
    (node.retry K b).1.orphans = node.orphans.push parent b ∧ (node.retry K b).2 = none := by
  rw [retry, h]
  exact ⟨rfl, rfl⟩

theorem retry_quiet {b : Block} (h : (∃ e, (node.chain.submitBlock K b).result = .error e) ∨
      (∃ hash height, (node.chain.submitBlock K b).result = .ok (.sideBranch hash height)) ∨
      (node.chain.submitBlock K b).result = .ok .alreadyKnown) :
    (node.retry K b).1.orphans = node.orphans ∧ (node.retry K b).2 = none := by
  rcases h with ⟨e, h⟩ | ⟨hash, height, h⟩ | h
  · rw [retry, h]
    exact ⟨rfl, rfl⟩
  · rw [retry, h]
    exact ⟨rfl, rfl⟩
  · rw [retry, h]
    exact ⟨rfl, rfl⟩

/-- The first call is like the others. -/
theorem acceptAndBroadcast_eq (node : Node) (b : Block) : (node.acceptAndBroadcast K b).1
    = (cascade K).run (node.retry K b).1 (node.retry K b).2.toList := by
  have hrun : ∀ node : Node, (cascade K).run node [] = node := fun node => by rw [Worklist.run]
  unfold acceptAndBroadcast retry
  cases (node.chain.submitBlock K b).result with
  | error e => exact (hrun _).symm
  | ok outcome =>
    cases outcome with
    | accepted hash height reorged requeue => rfl
    | sideBranch hash height => exact (hrun _).symm
    | alreadyKnown => exact (hrun _).symm
    | orphan missingParent => exact (hrun _).symm

/-- A delivery as a loop in small steps. -/
theorem loop_acceptAndBroadcast (node : Node) (b : Block) :
    (cascade K).Loop node [b] [] (node.acceptAndBroadcast K b).1 (node.calls K b) := by
  rw [acceptAndBroadcast_eq]
  exact .call (Worklist.loop_run _ _)

end Node

/-! ## Blocks of a set -/

section Set

variable {S : List Block} {t : Hash256} {lt : BlockChain}

/-- A branch of the set is determined by its head. -/
theorem BlockSet.unique (hset : BlockSet K g S t lt) {h : Hash256} {l l' : BlockChain}
    (hl : Admitted K g S h l) (hl' : Admitted K g S h l') : l = l' := by
  induction hl generalizing l' with
  | genesis =>
    rcases hl'.head with ⟨-, rfl⟩ | ⟨b, _, -, -, hne, -⟩
    · rfl
    · exact absurd rfl hne
  | @block b l hb hne _ _ ih =>
    rcases hl'.head with ⟨hgen, -⟩ | ⟨x, t', hx, hid, -, rfl, hpar, -⟩
    · exact absurd hgen hne
    · obtain rfl := hset.distinct b hb x hx hid
      rw [ih hpar]

/-- What is stored of a set is a part of its branches. -/
structure StoredPart (K : Crates) (g : GenesisConfig) (S : List Block) (c : Chain) : Prop where
  inv : ChainInv K g c
  sound : ∀ h b, c.state.blocks h = some b → h ≠ g.genesisHash K → b ∈ S

/-- A stored block of the set is stored under its identifier. -/
theorem StoredPart.blocks_eq (hset : BlockSet K g S t lt) (hc : StoredPart K g S c) {b : Block}
    (hb : b ∈ S) (hsome : (c.state.blocks (blockId K b)).isSome) :
    c.state.blocks (blockId K b) = some b := by
  obtain ⟨x, hx⟩ := Option.isSome_iff_exists.mp hsome
  obtain ⟨l, -, hok⟩ := hc.inv.stored.stored _ x hx (hset.ne_genesis b hb)
  rw [hx, hset.distinct x (hc.sound _ x hx (hset.ne_genesis b hb)) b hb hok.id]

theorem StoredPart.admitted (hc : StoredPart K g S c) {h : Hash256} {l : BlockChain}
    (hl : Branch K g c.state h l) : Admitted K g S h l :=
  hl.admitted hc.inv.stored hc.sound

/-- A block of the set is known, waits for its parent, or is storable. -/
theorem StoredPart.cases (hset : BlockSet K g S t lt) (hc : StoredPart K g S c) {b : Block}
    (hb : b ∈ S) :
    ((c.state.blocks (blockId K b)).isSome ∧ (c.submitBlock K b).result = .ok .alreadyKnown) ∨
    (c.state.blocks b.header.prevHash = none ∧
      (c.submitBlock K b).result = .ok (.orphan b.header.prevHash) ∧
      ¬ Storable K g c.state b) ∨
    Storable K g c.state b := by
  obtain ⟨l, hl, hok⟩ := hset.ok b hb
  have hzero : b.header.height ≠ 0 := by
    refine hok.height_ne_zero ?_
    rcases hl.head with ⟨-, rfl⟩ | ⟨x, t', -, -, -, rfl, -⟩ <;> simp
  cases hknown : c.state.blocks (blockId K b) with
  | some x =>
    exact .inl ⟨rfl, submitBlock_known hc.inv hzero hok.low (by rw [hknown]; rfl)⟩
  | none =>
    cases hparent : c.state.blocks b.header.prevHash with
    | none =>
      refine .inr (.inl ⟨rfl, submitBlock_orphan hc.inv hzero hok.low hknown hok.root hok.target
        hok.signed hparent, ?_⟩)
      rintro ⟨-, lp, hlp, -⟩
      have hsome := hlp.get_isSome
      rw [hparent] at hsome
      cases hsome
    | some q =>
      obtain ⟨lp, hlp⟩ := hc.inv.stored.exists_branch hparent
      refine .inr (.inr ⟨hknown, _, hlp, ?_⟩)
      rw [← hset.unique hl (hc.admitted hlp)]
      exact hok

theorem StoredPart.retry (hc : StoredPart K g S node.chain) {b : Block} (hb : b ∈ S) :
    StoredPart K g S (node.retry K b).1.chain where
  inv := hc.inv.retry b
  sound h x hx hne := by
    rw [blocks_retry] at hx
    rcases submit_blocks_cases hc.inv hx with hold | ⟨-, rfl⟩
    · exact hc.sound h x hold hne
    · exact hb

/-! ## Every block is woken -/

/-- The condition on a call: a block that others wait for, and the head of the
heaviest branch, overtakes the tip. -/
def Wakes (K : Crates) (g : GenesisConfig) (t : Hash256) (call : Node × Block) : Prop :=
  call.1.orphans.waiting (blockId K call.2) ≠ [] ∨ blockId K call.2 = t →
    Overtakes K g call.1.chain.state call.2

/-- The state of a node that has been handed the blocks `P`, of which `items` are to
be submitted and those waiting for the hashes of `queue` are to be woken. -/
structure Progress (K : Crates) (g : GenesisConfig) (S : List Block) (t : Hash256) (P : List Block)
    (node : Node) (items : List Block) (queue : List Hash256) : Prop where
  part : StoredPart K g S node.chain
  items_mem : ∀ b ∈ items, b ∈ S
  waiting_mem : ∀ h, ∀ b ∈ node.orphans.waiting h, b ∈ S ∧ b.header.prevHash = h
  placed : ∀ b ∈ P, (node.chain.state.blocks (blockId K b)).isSome ∨ b ∈ items ∨
    b ∈ node.orphans.waiting b.header.prevHash
  awake : ∀ h, node.orphans.waiting h ≠ [] → (node.chain.state.blocks h).isSome → h ∈ queue
  tip : (node.chain.state.blocks t).isSome → ∃ n, node.chain.state.tip = some (n, t)

/-- The tip moves only to a block that was not stored and outweighs it. -/
theorem tip_submit_cases (hc : ChainInv K g c) {n : UInt64} {h : Hash256} {lo : BlockChain}
    (hcan : Canonical K g c.state n h lo) (b : Block) :
    (c.submit K b).state.tip = some (n, h) ∨
    ∃ lp a p s, Placement K g c.state lo b lp a p s ∧
      branchWork lo < branchWork ((blockId K b, b) :: lp) ∧
      (c.submit K b).state.tip = some (b.header.height, blockId K b) := by
  rcases submit_cases hc hcan b with ⟨-, hst⟩ | ⟨lp, a, p, s, hpl, ⟨-, hst⟩ | ⟨o, hwork, -, hst⟩⟩
  · rw [hst]
    exact .inl hcan.tip
  · rw [hst]
    exact .inl (hpl.canonical_stored hcan).tip
  · rw [hst]
    exact .inr ⟨lp, a, p, s, hpl, hwork, (hpl.canonical hc.stored hcan o).tip⟩

/-- Once the head of the heaviest branch is the tip, it stays so. -/
theorem BlockSet.tip_stays (hset : BlockSet K g S t lt) (hc : StoredPart K g S c) {n : UInt64}
    (htip : c.state.tip = some (n, t)) {b : Block} (hb : b ∈ S) :
    (c.submit K b).state.tip = some (n, t) := by
  obtain ⟨n', t', lo, hcan⟩ := hc.inv.canonical
  obtain ⟨rfl, rfl⟩ := Prod.mk.inj (Option.some.inj (hcan.tip.symm.trans htip))
  rcases tip_submit_cases hc.inv hcan b with hsame | ⟨lp, a, p, s, hpl, hwork, -⟩
  · exact hsame
  · obtain rfl := hset.unique (hc.admitted hcan.branch) hset.head
    have hne : blockId K b ≠ t' := by
      rintro rfl
      have hsome := hcan.branch.get_isSome
      rw [hpl.new] at hsome
      cases hsome
    have hbranch := Admitted.block hb (hset.ne_genesis b hb) (hc.admitted hpl.parent) hpl.ok
    exact absurd (hset.heaviest _ _ hbranch hne) (Nat.lt_asymm hwork)

/-- A call that does not buffer the block, once its effect on what is awake and on the
tip is known. -/
theorem Progress.call_unbuffered {P items : List Block} {queue : List Hash256} {b : Block}
    (h : Progress K g S t P node (b :: items) queue)
    (horphans : (node.retry K b).1.orphans = node.orphans)
    (hself : ((node.retry K b).1.chain.state.blocks (blockId K b)).isSome)
    (hawake : ∀ k, node.orphans.waiting k ≠ [] →
      ((node.retry K b).1.chain.state.blocks k).isSome → k ∈ queue ++ (node.retry K b).2.toList)
    (htip : ((node.retry K b).1.chain.state.blocks t).isSome →
      ∃ n, (node.retry K b).1.chain.state.tip = some (n, t)) :
    Progress K g S t P (node.retry K b).1 items (queue ++ (node.retry K b).2.toList) where
  part := h.part.retry (h.items_mem b List.mem_cons_self)
  items_mem x hx := h.items_mem x (List.mem_cons_of_mem _ hx)
  waiting_mem := by
    rw [horphans]
    exact h.waiting_mem
  placed x hx := by
    rw [horphans]
    rcases h.placed x hx with hsome | hmem | hwait
    · exact .inl (isSome_blocks_retry h.part.inv hsome b)
    · rcases List.mem_cons.mp hmem with rfl | hmem
      · exact .inl hself
      · exact .inr (.inl hmem)
    · exact .inr (.inr hwait)
  awake k hk hsome := by
    rw [horphans] at hk
    exact hawake k hk hsome
  tip := htip

/-- An orphan joins what waits for its parent, which is not stored. -/
theorem Progress.call_orphan {P items : List Block} {queue : List Hash256} {b : Block}
    (h : Progress K g S t P node (b :: items) queue)
    (hparent : node.chain.state.blocks b.header.prevHash = none)
    (hres : (node.chain.submitBlock K b).result = .ok (.orphan b.header.prevHash))
    (hnot : ¬ Storable K g node.chain.state b) :
    Progress K g S t P (node.retry K b).1 items (queue ++ (node.retry K b).2.toList) := by
  obtain ⟨horphans, hnone⟩ := Node.retry_orphan hres
  have hb : b ∈ S := h.items_mem b List.mem_cons_self
  have hblocks : (node.retry K b).1.chain.state.blocks = node.chain.state.blocks := by
    rw [blocks_retry, state_submit_unstorable h.part.inv hnot]
  have htip : (node.retry K b).1.chain.state.tip = node.chain.state.tip := by
    rw [tip_retry, state_submit_unstorable h.part.inv hnot]
  refine ⟨h.part.retry hb, fun x hx => h.items_mem x (List.mem_cons_of_mem _ hx), fun k x hx => ?_,
    fun x hx => ?_, fun k hk hsome => ?_, ?_⟩
  · rw [horphans, Orphans.waiting_push] at hx
    split at hx
    · next heq =>
      rcases List.mem_append.mp hx with hx | hx
      · rw [heq]
        exact h.waiting_mem _ x hx
      · obtain rfl := List.mem_singleton.mp hx
        exact ⟨hb, heq.symm⟩
    · exact h.waiting_mem k x hx
  · -- the block moves from the list to the buffer
    rw [horphans, hblocks, Orphans.waiting_push]
    rcases h.placed x hx with hsome | hmem | hwait
    · exact .inl hsome
    · rcases List.mem_cons.mp hmem with rfl | hmem
      · refine .inr (.inr ?_)
        rw [if_pos rfl]
        exact List.mem_append_right _ (List.mem_singleton_self x)
      · exact .inr (.inl hmem)
    · refine .inr (.inr ?_)
      split
      · next heq =>
        rw [← heq]
        exact List.mem_append_left _ hwait
      · exact hwait
  · -- its parent is not stored, so nothing has to wake it yet
    rw [horphans, Orphans.waiting_push] at hk
    rw [hblocks] at hsome
    rw [hnone, Option.toList_none, List.append_nil]
    split at hk
    · next heq =>
      rw [heq, hparent] at hsome
      cases hsome
    · exact h.awake k hk hsome
  · rw [hblocks, htip]
    exact h.tip

/-- Only the submitted block can be new after a call. -/
theorem isSome_retry_cases (hc : ChainInv K g node.chain) {b : Block} {k : Hash256}
    (hk : ((node.retry K b).1.chain.state.blocks k).isSome) :
    (node.chain.state.blocks k).isSome ∨ k = blockId K b := by
  obtain ⟨x, hx⟩ := Option.isSome_iff_exists.mp hk
  rw [blocks_retry] at hx
  rcases submit_blocks_cases hc hx with hx | ⟨rfl, -⟩
  · exact .inl (Option.isSome_iff_exists.mpr ⟨x, hx⟩)
  · exact .inr rfl

/-- A storable block is stored, and wakes what waits for it if it overtakes the tip. -/
theorem Progress.call_storable (hset : BlockSet K g S t lt) {P items : List Block}
    {queue : List Hash256} {b : Block} (hwakes : Wakes K g t (node, b))
    (h : Progress K g S t P node (b :: items) queue) (hst : Storable K g node.chain.state b) :
    Progress K g S t P (node.retry K b).1 items (queue ++ (node.retry K b).2.toList) := by
  have hb : b ∈ S := h.items_mem b List.mem_cons_self
  have hself := hst.isSome_blocks_retry h.part.inv
  obtain ⟨n, t', lo, hcan⟩ := h.part.inv.canonical
  obtain ⟨lp, a, p, s, hpl⟩ := Placement.exists h.part.inv.stored hcan hst
  have htip : (node.chain.state.blocks t).isSome →
      ∃ n, (node.retry K b).1.chain.state.tip = some (n, t) := by
    intro hsome
    obtain ⟨n, hn⟩ := h.tip hsome
    rw [tip_retry]
    exact ⟨n, hset.tip_stays h.part hn hb⟩
  by_cases hover : branchWork lo < branchWork ((blockId K b, b) :: lp) ∧
      ∃ overlay, simulate K g node.chain.state a p = .ok overlay
  · -- accepted: its hash goes to the queue
    obtain ⟨htip', reorged, requeue, hres⟩ := submitBlock_accepted h.part.inv hcan hpl hover
    obtain ⟨horphans, hhash⟩ := Node.retry_accepted hres
    refine h.call_unbuffered horphans hself (fun k hk hsome => ?_) fun hsome => ?_
    · rw [hhash, Option.toList_some]
      rcases isSome_retry_cases h.part.inv hsome with hk' | rfl
      · exact List.mem_append_left _ (h.awake k hk hk')
      · exact List.mem_append_right _ (List.mem_singleton_self _)
    · rcases isSome_retry_cases h.part.inv hsome with hsome | rfl
      · exact htip hsome
      · rw [tip_retry]
        exact ⟨_, htip'⟩
  · -- stored only: by assumption nothing waits for it and it is not the last head
    obtain ⟨-, hres⟩ := submitBlock_stored h.part.inv hcan hpl hover
    obtain ⟨horphans, hnone⟩ := Node.retry_quiet (hres.elim .inl fun hres => .inr (.inl ⟨_, _, hres⟩))
    have hidle : ¬ (node.orphans.waiting (blockId K b) ≠ [] ∨ blockId K b = t) := fun hw =>
      hover (hwakes hw n t' lo lp a p s hcan hpl)
    rw [not_or] at hidle
    refine h.call_unbuffered horphans hself (fun k hk hsome => ?_) fun hsome => ?_
    · rcases isSome_retry_cases h.part.inv hsome with hk' | rfl
      · exact List.mem_append_left _ (h.awake k hk hk')
      · exact absurd hk hidle.1
    · rcases isSome_retry_cases h.part.inv hsome with hsome | heq
      · exact htip hsome
      · exact absurd heq.symm hidle.2

/-- One call. -/
theorem Progress.call (hset : BlockSet K g S t lt) {P items : List Block} {queue : List Hash256}
    {b : Block} (hwakes : Wakes K g t (node, b)) (h : Progress K g S t P node (b :: items) queue) :
    Progress K g S t P (node.retry K b).1 items (queue ++ (node.retry K b).2.toList) := by
  rcases h.part.cases hset (h.items_mem b List.mem_cons_self) with
    ⟨hknown, hres⟩ | ⟨hparent, hres, hnot⟩ | hst
  · -- known: nothing happens
    obtain ⟨horphans, hnone⟩ := Node.retry_quiet (.inr (.inr hres))
    have hnot : ¬ Storable K g node.chain.state b := fun hst => by
      rw [hst.1] at hknown
      cases hknown
    refine h.call_unbuffered horphans (isSome_blocks_retry h.part.inv hknown b)
      (fun k hk hsome => ?_) fun hsome => ?_
    · rw [blocks_retry, state_submit_unstorable h.part.inv hnot] at hsome
      exact List.mem_append_left _ (h.awake k hk hsome)
    · rw [blocks_retry, state_submit_unstorable h.part.inv hnot] at hsome
      rw [tip_retry, state_submit_unstorable h.part.inv hnot]
      exact h.tip hsome
  · exact h.call_orphan hparent hres hnot
  · exact h.call_storable hset hwakes hst

/-- A hash is taken off the queue. -/
theorem Progress.pop {P : List Block} {queue : List Hash256} {k : Hash256}
    (h : Progress K g S t P node [] (k :: queue)) :
    Progress K g S t P { node with orphans := node.orphans.erase k } (node.orphans.waiting k)
      queue where
  part := h.part
  items_mem b hb := (h.waiting_mem k b hb).1
  waiting_mem k' b hb := by
    rw [Orphans.waiting_erase] at hb
    split at hb
    · cases hb
    · exact h.waiting_mem k' b hb
  placed b hb := by
    rcases h.placed b hb with hsome | hmem | hwait
    · exact .inl hsome
    · cases hmem
    · by_cases hk : b.header.prevHash = k
      · rw [← hk]
        exact .inr (.inl hwait)
      · refine .inr (.inr ?_)
        rw [Orphans.waiting_erase, if_neg hk]
        exact hwait
  awake k' hk' hsome := by
    rw [Orphans.waiting_erase] at hk'
    split at hk'
    · exact absurd rfl hk'
    · next hne => exact (List.mem_cons.mp (h.awake k' hk' hsome)).resolve_left hne
  tip := h.tip

/-- One more block is delivered. -/
theorem Progress.deliver (hset : BlockSet K g S t lt) {P : List Block} {b : Block} (hb : b ∈ S)
    (h : Progress K g S t P node [] []) (hwakes : ∀ call ∈ node.calls K b, Wakes K g t call) :
    Progress K g S t (P ++ [b]) (node.acceptAndBroadcast K b).1 [] [] := by
  refine (node.loop_acceptAndBroadcast b).invariant
    (I := fun node items queue => Progress K g S t (P ++ [b]) node items queue)
    (fun node b items queue hw h => h.call hset hw) (fun node k queue h => h.pop) hwakes ?_
  refine ⟨h.part, fun x hx => ?_, h.waiting_mem, fun x hx => ?_, h.awake, h.tip⟩
  · obtain rfl := List.mem_singleton.mp hx
    exact hb
  · rcases List.mem_append.mp hx with hx | hx
    · rcases h.placed x hx with hsome | hmem | hwait
      · exact .inl hsome
      · cases hmem
      · exact .inr (.inr hwait)
    · exact .inr (.inl hx)

/-- All blocks are delivered: nothing waits any more. -/
theorem Progress.resolved (hset : BlockSet K g S t lt) (h : Progress K g S t S node [] []) :
    Resolved K S t node := by
  have hstored : ∀ {k l}, Admitted K g S k l → (node.chain.state.blocks k).isSome := by
    intro k l hl
    induction hl with
    | genesis => exact h.part.inv.stored.genesis_isSome
    | @block b l hb _ _ _ ih =>
      rcases h.placed b hb with hsome | hmem | hwait
      · exact hsome
      · cases hmem
      · exact nomatch h.awake _ (List.ne_nil_of_mem hwait) ih
  refine ⟨fun k b hb => ?_, fun b hb => ?_, h.tip (hstored hset.head)⟩
  · rw [(h.waiting_mem k b hb).2]
    by_contra hsome
    exact nomatch h.awake k (List.ne_nil_of_mem hb) (Option.isSome_iff_ne_none.mpr hsome)
  · obtain ⟨l, hl, hok⟩ := hset.ok b hb
    exact h.part.blocks_eq hset hb (hstored (.block hb (hset.ne_genesis b hb) hl hok))

/-- A node that has just been started. -/
theorem Progress.start (hinit : (chainMachine K g).init node.chain) (horphans : node.orphans = ∅) :
    Progress K g S t [] node [] [] := by
  obtain ⟨-, hcan, honly⟩ := openDb_canonical hinit
  have hwaiting : ∀ h, node.orphans.waiting h = [] := fun h => by rw [horphans]; rfl
  have hgenesis : ∀ h, (node.chain.state.blocks h).isSome → h = g.genesisHash K := by
    intro h hsome
    by_contra hne
    rw [honly h hne] at hsome
    cases hsome
  refine ⟨⟨chainInv (.init hinit), fun h b hb hne => ?_⟩, fun b hb => (nomatch hb), fun h b hb => ?_,
    fun b hb => (nomatch hb), fun h hne => absurd (hwaiting h) hne, fun hsome => ?_⟩
  · exact absurd (hgenesis h (by rw [hb]; rfl)) hne
  · rw [hwaiting h] at hb
    cases hb
  · rw [hgenesis t hsome]
    exact ⟨0, hcan.tip⟩

end Set

end Ondris
