import Ondris.Mempool

/-!
# Concurrent deliveries

`accept_and_broadcast` runs in the event loop and in every RPC call that submits a block,
at the same time. The chain takes one `submit_block` after another, but `handle_outcome`
runs after the lock is released: each of its operations is atomic, and other tasks run
in between. A schedule decides which task takes its next operation.

Results:
1. `task_alone`: a task that runs alone does what `Node.acceptAndBroadcast` does.
2. `Accounted.step`: a transaction that is pending, confirmed or about to be inserted
   again stays so, unless a task removes one that a move of the tip has displaced.
3. `no_transaction_lost`: without such a removal none is lost. `transaction_lost`: with
   one it is.
-/

namespace Ondris

/-! ## Tasks -/

/-- One operation of `handle_outcome`. -/
inductive Op
  | setHeight (height : UInt64)
  | send (message : Sent)
  | buffer (missingParent : Hash256) (block : Block)
  | mempoolRemove (hash : Hash256)
  | mempoolInsert (hash : Hash256) (tx : Transaction)
deriving DecidableEq

def Node.op (node : Node) : Op → Node
  | .setHeight height => { node with height }
  | .send message => node.send message
  | .buffer missingParent block =>
    { node with orphans := node.orphans.push missingParent block }
  | .mempoolRemove hash => node.writes [.mempoolRemove hash]
  | .mempoolInsert hash tx => node.writes [.mempoolInsert hash tx]

/-- `handle_outcome` as the list of its operations. -/
def outcomeOps (K : Crates) (block : Block) : SubmitOutcome → List Op
  | .accepted _ height _ requeue =>
    .setHeight height :: .send (.broadcast (.newBlock block)) ::
      (block.transactions.val.map (fun tx => .mempoolRemove (tx.hash K)) ++
        requeue.map fun tx => .mempoolInsert (tx.hash K) tx)
  | .sideBranch _ _ => [.send (.broadcast (.newBlock block))]
  | .alreadyKnown => []
  | .orphan missingParent =>
    [.buffer missingParent block, .send (.broadcast (.getBlock missingParent))]

/-- What a call of `accept_and_broadcast` has still to do: operations of the outcome it
handles, blocks to submit, and accepted hashes for which to look into the buffer. -/
structure Task where
  ops : List Op
  items : List Block
  queue : List Hash256
deriving DecidableEq

def Task.start (block : Block) : Task := ⟨[], [block], []⟩

def Task.done : Task := ⟨[], [], []⟩

def SubmitOutcome.acceptedHash : SubmitOutcome → Option Hash256
  | .accepted hash _ _ _ => some hash
  | _ => none

/-- The next operation of a task. -/
def Task.turn (K : Crates) (node : Node) : Task → Task × Node
  | ⟨op :: ops, items, queue⟩ => (⟨ops, items, queue⟩, node.op op)
  | ⟨[], block :: items, queue⟩ =>
    match (node.chain.submitBlock K block).result with
    | .error _ => (⟨[], items, queue⟩, node.submitted K block)
    | .ok outcome =>
      (⟨outcomeOps K block outcome, items, queue ++ outcome.acceptedHash.toList⟩,
        node.submitted K block)
  | ⟨[], [], hash :: queue⟩ =>
    (⟨[], node.orphans.waiting hash, queue⟩, { node with orphans := node.orphans.erase hash })
  | ⟨[], [], []⟩ => (.done, node)

/-- A node and the calls of `accept_and_broadcast` that were made. -/
structure Tasks where
  node : Node
  tasks : List Task

inductive TaskInput
  /-- A block comes in, as an event or over RPC. -/
  | accept (block : Block)
  /-- A task takes its next operation. -/
  | turn (i : ℕ)
  /-- A transaction comes in. -/
  | handIn (tx : Transaction)

def taskMachine (K : Crates) (g : GenesisConfig) : Machine Tasks TaskInput Unit where
  init s := ∃ c, Chain.openDb K g ChainState.empty = .ok c ∧ s = ⟨.start c, []⟩
  step
    | s, .accept block => { s with tasks := s.tasks ++ [.start block] }
    | s, .turn i =>
      match s.tasks[i]? with
      | none => s
      | some task => ⟨(task.turn K s.node).2, s.tasks.set i (task.turn K s.node).1⟩
    | s, .handIn tx =>
      if tx.isSignatureValid K then { s with node := s.node.addTransaction K tx } else s
  out _ _ := ()

/-! ## Transactions that must not be lost -/

/-- The transaction is in the mempool or on the canonical chain. -/
def Held (K : Crates) (st : ChainState) (hash : Hash256) : Prop :=
  hash ∈ st.pending ∨ Confirmed K st hash

/-- A task is going to put the transaction back into the mempool. -/
def Tasks.Returning (s : Tasks) (hash : Hash256) : Prop :=
  ∃ task ∈ s.tasks, ∃ tx, .mempoolInsert hash tx ∈ task.ops

/-- All calls have returned. -/
def Tasks.Finished (s : Tasks) : Prop := ∀ task ∈ s.tasks, task = .done

/-- If the step takes a transaction out of the mempool, that is on the canonical chain, or
a task is going to put it back. -/
def SafeTurn (K : Crates) (s : Tasks) : TaskInput → Prop
  | .turn i => ∀ task hash ops, s.tasks[i]? = some task →
      task.ops = .mempoolRemove hash :: ops →
      Confirmed K s.node.chain.state hash ∨ s.Returning hash
  | _ => True

variable {K : Crates} {g : GenesisConfig} {node : Node} {s : Tasks} {hash : Hash256}

/-! ## A task that runs alone -/

theorem foldl_removes (txs : List Transaction) (node : Node) :
    (txs.map fun tx => Op.mempoolRemove (tx.hash K)).foldl Node.op node
      = node.writes (txs.map fun tx => .mempoolRemove (tx.hash K)) := by
  induction txs generalizing node with
  | nil => rfl
  | cons tx txs ih => exact ih (node.writes [.mempoolRemove (tx.hash K)])

theorem foldl_inserts (txs : List Transaction) (node : Node) :
    (txs.map fun tx => Op.mempoolInsert (tx.hash K) tx).foldl Node.op node
      = node.writes (txs.map fun tx => .mempoolInsert (tx.hash K) tx) := by
  induction txs generalizing node with
  | nil => rfl
  | cons tx txs ih => exact ih (node.writes [.mempoolInsert (tx.hash K) tx])

/-- The operations of an outcome, one after another, are `handle_outcome`. -/
theorem foldl_outcomeOps (node : Node) (block : Block) (outcome : SubmitOutcome) :
    (outcomeOps K block outcome).foldl Node.op node = node.handleOutcome K block outcome := by
  cases outcome with
  | accepted hash height reorged requeue =>
    rw [outcomeOps, List.foldl_cons, List.foldl_cons, List.foldl_append, foldl_removes, foldl_inserts,
      Node.handleOutcome, Node.mempoolWrites]
    simp only [Node.writes, ChainState.writes_append, Node.op]
  | sideBranch hash height => rfl
  | alreadyKnown => rfl
  | orphan missingParent => rfl

/-- The next operation of a task that runs alone. -/
def alone (K : Crates) (p : Task × Node) : Task × Node := p.1.turn K p.2

theorem alone_ops (ops : List Op) (items : List Block) (queue : List Hash256) (node : Node) :
    (alone K)^[ops.length] (⟨ops, items, queue⟩, node) = (⟨[], items, queue⟩, ops.foldl Node.op node) := by
  induction ops generalizing node with
  | nil => rfl
  | cons op ops ih =>
    rw [List.length_cons, Function.iterate_succ_apply, List.foldl_cons, ← ih]
    rfl

/-- Submitting a block and handling its outcome is one call of the worklist. -/
theorem alone_call (node : Node) (block : Block) (items : List Block) (queue : List Hash256) :
    ∃ n, (alone K)^[n] (⟨[], block :: items, queue⟩, node)
      = (⟨[], items, queue ++ (node.retry K block).2.toList⟩, (node.retry K block).1) := by
  cases hres : (node.chain.submitBlock K block).result with
  | error e =>
    refine ⟨1, ?_⟩
    rw [Function.iterate_one, alone, Task.turn, Node.retry, hres, Option.toList_none, List.append_nil]
  | ok outcome =>
    refine ⟨(outcomeOps K block outcome).length + 1, ?_⟩
    have hturn : alone K (⟨[], block :: items, queue⟩, node)
        = (⟨outcomeOps K block outcome, items, queue ++ outcome.acceptedHash.toList⟩,
          node.submitted K block) := by
      rw [alone, Task.turn, hres]
    rw [Function.iterate_succ_apply, hturn, alone_ops, foldl_outcomeOps, Node.retry, hres]
    rfl

/-- So a task goes through the loop of the worklist. -/
theorem alone_loop {node' : Node} {items : List Block} {queue : List Hash256}
    {cs : List (Node × Block)} (h : (Node.cascade K).Loop node items queue node' cs) :
    ∃ n, (alone K)^[n] (⟨[], items, queue⟩, node) = (.done, node') := by
  induction h with
  | done => exact ⟨0, rfl⟩
  | pop _ ih =>
    obtain ⟨n, hn⟩ := ih
    exact ⟨n + 1, hn⟩
  | @call node node' block items queue cs _ ih =>
    obtain ⟨n, hn⟩ := ih
    obtain ⟨m, hm⟩ := alone_call (K := K) node block items queue
    refine ⟨n + m, ?_⟩
    rw [Function.iterate_add_apply, hm]
    exact hn

/-- **A task that runs alone is `accept_and_broadcast`.** -/
theorem task_alone (node : Node) (block : Block) :
    ∃ n, (alone K)^[n] (.start block, node) = (.done, (node.acceptAndBroadcast K block).1) :=
  alone_loop (node.loop_acceptAndBroadcast block)

/-! ## One operation -/

/-- The transaction is in the mempool, on the canonical chain, or about to be put back. -/
def Accounted (K : Crates) (s : Tasks) (hash : Hash256) : Prop :=
  Held K s.node.chain.state hash ∨ s.Returning hash

theorem Confirmed.congr {st st' : ChainState} (h : Confirmed K st hash) (hcore : st'.core = st.core) :
    Confirmed K st' hash := by
  obtain ⟨blocks, ⟨n, t, htip, hlen, hget⟩, htx⟩ := h
  refine ⟨blocks, ⟨n, t, ?_, hlen, fun i hone hle => ?_⟩, htx⟩
  · rw [core_tip hcore, htip]
  · rw [← hget i hone hle]
    unfold ChainState.getBlockByHeight ChainState.getHashByHeight ChainState.getBlock
    rw [core_heights hcore, core_blocks hcore]

theorem core_op (node : Node) (op : Op) : (node.op op).chain.state.core = node.chain.state.core := by
  cases op <;> rfl

/-- Only its own removal takes a transaction out of the mempool. -/
theorem pending_op {op : Op} (h : hash ∈ node.chain.state.pending) (hne : op ≠ .mempoolRemove hash) :
    hash ∈ (node.op op).chain.state.pending := by
  cases op with
  | setHeight height => exact h
  | send message => exact h
  | buffer missingParent block => exact h
  | mempoolRemove hash' =>
    exact Mempool.mem_keys_remove.mpr ⟨h, fun heq => hne (congrArg Op.mempoolRemove heq.symm)⟩
  | mempoolInsert hash' tx => exact Mempool.mem_keys_insert.mpr (.inr h)

/-- A task that has taken an operation other than the insertion still returns what it
was going to return. -/
theorem Tasks.Returning.set (h : s.Returning hash) {i : ℕ} {task task' : Task}
    (hi : s.tasks[i]? = some task)
    (hops : ∀ tx, .mempoolInsert hash tx ∈ task.ops → .mempoolInsert hash tx ∈ task'.ops)
    (node' : Node) : Tasks.Returning ⟨node', s.tasks.set i task'⟩ hash := by
  obtain ⟨other, hother, tx, htx⟩ := h
  obtain ⟨j, hj⟩ := List.mem_iff_getElem?.mp hother
  have hlt : i < s.tasks.length := (List.getElem?_eq_some_iff.mp hi).1
  by_cases hij : i = j
  · subst hij
    obtain rfl := Option.some.inj (hi.symm.trans hj)
    exact ⟨task', List.mem_set hlt task', tx, hops tx htx⟩
  · refine ⟨other, List.mem_iff_getElem?.mpr ⟨j, ?_⟩, tx, htx⟩
    rw [List.getElem?_set_ne hij, hj]

/-- The task takes an operation of `handle_outcome`. -/
theorem Accounted.op (h : Accounted K s hash) {i : ℕ} {op : Op} {ops : List Op} {items : List Block}
    {queue : List Hash256} (hi : s.tasks[i]? = some ⟨op :: ops, items, queue⟩)
    (hsafe : op = .mempoolRemove hash →
      Confirmed K s.node.chain.state hash ∨ s.Returning hash) :
    Accounted K ⟨s.node.op op, s.tasks.set i ⟨ops, items, queue⟩⟩ hash := by
  have hreturning : s.Returning hash →
      Accounted K ⟨s.node.op op, s.tasks.set i ⟨ops, items, queue⟩⟩ hash := by
    intro hret
    by_cases hinsert : ∃ tx, op = .mempoolInsert hash tx
    · -- the insertion that is counted on may be this one
      obtain ⟨tx, rfl⟩ := hinsert
      exact .inl (.inl (Mempool.mem_keys_insert.mpr (.inl rfl)))
    · refine .inr (hret.set hi (fun tx htx => ?_) _)
      rcases List.mem_cons.mp htx with heq | htx
      · exact absurd ⟨tx, heq.symm⟩ hinsert
      · exact htx
  have hconfirmed : Confirmed K s.node.chain.state hash →
      Accounted K ⟨s.node.op op, s.tasks.set i ⟨ops, items, queue⟩⟩ hash :=
    fun hconf => .inl (.inr (hconf.congr (core_op s.node op)))
  rcases h with (hpending | hconf) | hret
  · by_cases hremove : op = .mempoolRemove hash
    · rcases hsafe hremove with hconf | hret
      · exact hconfirmed hconf
      · exact hreturning hret
    · exact .inl (.inl (pending_op hpending hremove))
  · exact hconfirmed hconf
  · exact hreturning hret

/-- The task submits a block: its next operations are those of the outcome. -/
theorem turn_submit (node : Node) (block : Block) (items : List Block) (queue : List Hash256) :
    ∃ ops more, Task.turn K node ⟨[], block :: items, queue⟩
        = (⟨ops, items, queue ++ more⟩, node.submitted K block) ∧
      ∀ outcome, (node.chain.submitBlock K block).result = .ok outcome →
        ops = outcomeOps K block outcome := by
  cases hres : (node.chain.submitBlock K block).result with
  | error e =>
    refine ⟨[], [], ?_, fun outcome h => nomatch h⟩
    rw [Task.turn, hres, List.append_nil]
  | ok outcome =>
    refine ⟨outcomeOps K block outcome, outcome.acceptedHash.toList, ?_, fun outcome' h => ?_⟩
    · rw [Task.turn, hres]
    · rw [Except.ok.inj h]

/-- What a move of the tip displaces is in the operations of the task. -/
theorem Accounted.submit (hc : ChainInv K g s.node.chain) (h : Accounted K s hash) {i : ℕ}
    {block : Block} {items : List Block} {queue more : List Hash256} {ops : List Op}
    (hi : s.tasks[i]? = some ⟨[], block :: items, queue⟩)
    (hops : ∀ outcome, (s.node.chain.submitBlock K block).result = .ok outcome →
      ops = outcomeOps K block outcome) :
    Accounted K ⟨s.node.submitted K block, s.tasks.set i ⟨ops, items, queue ++ more⟩⟩ hash := by
  have hlt : i < s.tasks.length := (List.getElem?_eq_some_iff.mp hi).1
  rcases h with (hpending | hconf) | hret
  · have hpool : (s.node.submitted K block).chain.state.pending = s.node.chain.state.pending :=
      pending_submit hc block
    exact .inl (.inl (hpool ▸ hpending))
  · obtain ⟨n, t, lo, hcan⟩ := hc.canonical
    rw [confirmed_iff hc.stored hcan] at hconf
    by_cases htakes : ∃ lp, TakesOver K g s.node.chain.state block lp
    · obtain ⟨lp, htakes⟩ := htakes
      obtain ⟨a, p, c, reorged, hfork, hres, hcan'⟩ := htakes.submit hc hcan
      have hnew : Confirmed K (s.node.submitted K block).chain.state hash ↔
          hash ∈ (blockTxs (p ++ c)).map (·.hash K) := by
        rw [← hfork.new]
        exact confirmed_iff (hc.submit block).stored hcan'
      obtain ⟨tx, htx, rfl⟩ := List.mem_map.mp hconf
      rw [hfork.old, blockTxs_append] at htx
      rcases List.mem_append.mp htx with hundone | hcommon
      · by_cases happlied : tx.hash K ∈ (blockTxs p.reverse).map (·.hash K)
        · -- the new part of the chain has it as well
          obtain ⟨tx', htx', heq⟩ := List.mem_map.mp happlied
          refine .inl (.inr (hnew.mpr ?_))
          rw [blockTxs_append, List.map_append]
          exact List.mem_append_left _
            (List.mem_map.mpr ⟨tx', mem_blockTxs_reverse.mp htx', heq⟩)
        · -- it is displaced, so an insertion of it is queued behind the removals
          have hrequeue := mem_requeueOf.mpr ⟨hundone, happlied⟩
          refine .inr ⟨⟨ops, items, queue ++ more⟩, List.mem_set hlt _, tx, ?_⟩
          rw [hops _ hres]
          exact List.mem_cons_of_mem _ (List.mem_cons_of_mem _ (List.mem_append_right _
            (List.mem_map.mpr ⟨tx, hrequeue, rfl⟩)))
      · refine .inl (.inr (hnew.mpr ?_))
        rw [blockTxs_append]
        exact List.mem_map_of_mem (List.mem_append_right _ hcommon)
    · obtain ⟨-, hcan'⟩ := submit_stays hc (fun lp hlp => htakes ⟨lp, hlp⟩) hcan
      exact .inl (.inr ((confirmed_iff (hc.submit block).stored hcan').mpr hconf))
  · exact .inr (hret.set hi (fun tx htx => nomatch htx) _)

/-! ## Steps and runs -/

theorem chainInv_turn (hc : ChainInv K g node.chain) (task : Task) :
    ChainInv K g (task.turn K node).2.chain := by
  obtain ⟨_ | ⟨op, ops⟩, items, queue⟩ := task
  · cases items with
    | nil =>
      cases queue with
      | nil => exact hc
      | cons hash queue => exact hc.congr rfl rfl rfl
    | cons block items =>
      obtain ⟨ops, more, hturn, -⟩ := turn_submit (K := K) node block items queue
      rw [hturn]
      exact hc.submit block
  · refine hc.congr ?_ ?_ (core_op node op)
    · cases op <;> rfl
    · cases op <;> rfl

theorem chainInv_step (hc : ChainInv K g s.node.chain) (i : TaskInput) :
    ChainInv K g ((taskMachine K g).step s i).node.chain := by
  cases i with
  | accept block => exact hc
  | turn i =>
    simp only [taskMachine]
    split
    · exact hc
    · next task hi => exact chainInv_turn hc task
  | handIn tx =>
    simp only [taskMachine]
    split
    · exact hc.congr rfl rfl rfl
    · exact hc

/-- **A safe step loses nothing.** -/
theorem Accounted.step (hc : ChainInv K g s.node.chain) (h : Accounted K s hash) {i : TaskInput}
    (hsafe : SafeTurn K s i) : Accounted K ((taskMachine K g).step s i) hash := by
  cases i with
  | accept block =>
    refine h.imp_right ?_
    rintro ⟨task, htask, hret⟩
    exact ⟨task, List.mem_append_left _ htask, hret⟩
  | turn i =>
    simp only [taskMachine]
    split
    · exact h
    · next task hi =>
      obtain ⟨_ | ⟨op, ops⟩, items, queue⟩ := task
      · cases items with
        | nil =>
          cases queue with
          | nil => exact h.imp_right fun hret => hret.set hi (fun tx htx => nomatch htx) _
          | cons hash' queue => exact h.imp_right fun hret => hret.set hi (fun tx htx => nomatch htx) _
        | cons block items =>
          obtain ⟨ops, more, hturn, hops⟩ := turn_submit (K := K) s.node block items queue
          rw [hturn]
          exact h.submit hc hi hops
      · refine h.op hi fun hremove => ?_
        subst hremove
        exact hsafe _ hash ops hi rfl
  | handIn tx =>
    simp only [taskMachine]
    split
    · refine h.imp_left ?_
      rintro (hpending | hconf)
      · exact .inl (Mempool.mem_keys_insert.mpr (.inr hpending))
      · exact .inr (hconf.congr rfl)
    · exact h

theorem chainInv_tasks (hs : (taskMachine K g).Reachable s) : ChainInv K g s.node.chain := by
  refine Machine.Reach.invariant (P := fun s => ChainInv K g s.node.chain) (fun s hinit => ?_)
    (fun s i _ _ hc => chainInv_step hc i) hs
  obtain ⟨c, hc, rfl⟩ := hinit
  exact chainInv (.init hc)

/-- **No transaction is lost** from a state on after which no task removes a transaction
that a move of the tip has displaced: once all calls have returned, it is in the mempool
or on the canonical chain. -/
theorem no_transaction_lost (hs : (taskMachine K g).Reachable s)
    (hheld : Held K s.node.chain.state hash) {s' : Tasks}
    (hrun : ((taskMachine K g).startingAt s).Reach (SafeTurn K) s') (hdone : s'.Finished) :
    Held K s'.node.chain.state hash := by
  have hall : ChainInv K g s'.node.chain ∧ Accounted K s' hash := by
    refine hrun.invariant (P := fun s' => ChainInv K g s'.node.chain ∧ Accounted K s' hash)
      (fun s₀ hs₀ => ?_) (fun s₀ i _ hsafe ih => ?_)
    · obtain rfl : s₀ = s := hs₀
      exact ⟨chainInv_tasks hs, .inl hheld⟩
    · exact ⟨chainInv_step ih.1 i, ih.2.step ih.1 hsafe⟩
  rcases hall.2 with hheld' | ⟨task, htask, tx, htx⟩
  · exact hheld'
  · rw [hdone task htask] at htx
    exact absurd htx List.not_mem_nil

/-- A removal that is not safe loses its transaction. -/
theorem lost_of_not_safe {i : ℕ} {task : Task} {ops : List Op} (hi : s.tasks[i]? = some task)
    (hops : task.ops = .mempoolRemove hash :: ops)
    (hnot : ¬ (Confirmed K s.node.chain.state hash ∨ s.Returning hash)) :
    ¬ Accounted K ((taskMachine K g).step s (.turn i)) hash := by
  obtain ⟨rest, items, queue⟩ := task
  obtain rfl : rest = .mempoolRemove hash :: ops := hops
  have hlt : i < s.tasks.length := (List.getElem?_eq_some_iff.mp hi).1
  have hstep : (taskMachine K g).step s (.turn i)
      = ⟨s.node.op (.mempoolRemove hash), s.tasks.set i ⟨ops, items, queue⟩⟩ := by
    simp only [taskMachine, hi]
    rfl
  rw [hstep]
  rintro ((hpending | hconf) | ⟨other, hother, tx, htx⟩)
  · exact (Mempool.mem_keys_remove.mp hpending).2 rfl
  · exact hnot (.inl (hconf.congr (core_op s.node (.mempoolRemove hash)).symm))
  · refine hnot (.inr ?_)
    rcases List.mem_or_eq_of_mem_set hother with hold | rfl
    · exact ⟨other, hold, tx, htx⟩
    · exact ⟨_, List.mem_of_getElem? hi, tx, List.mem_cons_of_mem _ htx⟩

/-! ## Deliveries without interruption -/

theorem step_turn {i : ℕ} {task : Task} (hi : s.tasks[i]? = some task) :
    (taskMachine K g).step s (.turn i)
      = ⟨(task.turn K s.node).2, s.tasks.set i (task.turn K s.node).1⟩ := by
  simp only [taskMachine, hi]

/-- A task takes several operations in a row. -/
theorem run_turns {i : ℕ} {task : Task} (hi : s.tasks[i]? = some task) (n : ℕ) :
    (taskMachine K g).run s (List.replicate n (.turn i))
      = ⟨((alone K)^[n] (task, s.node)).2, s.tasks.set i ((alone K)^[n] (task, s.node)).1⟩ := by
  induction n generalizing s task with
  | zero =>
    obtain ⟨hlt, rfl⟩ := List.getElem?_eq_some_iff.mp hi
    rw [Function.iterate_zero, List.replicate_zero, Machine.run_nil, id, List.set_getElem_self]
  | succ n ih =>
    have hlt : i < s.tasks.length := (List.getElem?_eq_some_iff.mp hi).1
    rw [List.replicate_succ, Machine.run_cons, step_turn hi, Function.iterate_succ_apply,
      ih (List.getElem?_set_self hlt), List.set_set]
    rfl

/-- A delivery during which no other task runs. -/
theorem run_delivery (s : Tasks) (block : Block) : ∃ is, (taskMachine K g).run s is
    = ⟨(s.node.acceptAndBroadcast K block).1, s.tasks ++ [.done]⟩ := by
  obtain ⟨n, hn⟩ := task_alone (K := K) s.node block
  have hstart : (taskMachine K g).step s (.accept block)
      = ⟨s.node, s.tasks ++ [.start block]⟩ := rfl
  have hlast : (s.tasks ++ [Task.start block])[s.tasks.length]? = some (.start block) :=
    List.getElem?_concat_length
  refine ⟨.accept block :: List.replicate n (.turn s.tasks.length), ?_⟩
  rw [Machine.run_cons, hstart, run_turns hlast, hn]
  simp

/-! ## A transaction that is lost -/

/-- The chain once the transaction is confirmed. -/
def lostChain₁ : Chain := smallOpen.submit smallCrates confirming

/-- A block beside the confirming one. -/
def lostChain₂ : Chain := lostChain₁.submit smallCrates forkB1

/-- Its child moves the tip. -/
def lostChain₃ : Chain := lostChain₂.submit smallCrates forkB2

theorem lostChain₁_blocks {m : UInt64} (hm : m ≠ 0) : lostChain₁.state.blocks (nonceId m) = none := by
  refine blocks_submit_of_ne (chainInv (.init init_small)) ?_ ?_
  · exact canonical_smallOpen.2 _ (nonceId_ne_genesisHash m)
  · rw [blockId_small]
    exact nonceId_ne hm

theorem chainInv_lostChain₁ : ChainInv smallCrates smallGenesis lostChain₁ :=
  (chainInv (.init init_small)).submit confirming

theorem chainInv_lostChain₂ : ChainInv smallCrates smallGenesis lostChain₂ :=
  chainInv_lostChain₁.submit forkB1

/-- The side branch. -/
theorem placement_forkB1 : Placement smallCrates smallGenesis lostChain₁.state
    [(nonceId 0, confirming), (smallGenesis.genesisHash smallCrates, smallGenesis.genesisBlock)]
    forkB1 [(smallGenesis.genesisHash smallCrates, smallGenesis.genesisBlock)]
    [(nonceId 0, confirming)] [(nonceId 2, forkB1)]
    [(smallGenesis.genesisHash smallCrates, smallGenesis.genesisBlock)] where
  new := by
    rw [blockId_forkB1]
    exact lostChain₁_blocks (by decide)
  parent := canonical_smallOpen.1.branch.submit (chainInv (.init init_small)) confirming
  ok := by
    rw [blockId_forkB1]
    exact emptyBlock_ok _ _ (by decide) (by decide)
  fork := by
    rw [blockId_forkB1]
    exact ⟨rfl, rfl, List.cons_ne_nil _ _, by
      simpa using nonceId_ne (m := 0) (n := 2) (by decide)⟩

theorem submit_forkB1 :
    (lostChain₁.submitBlock smallCrates forkB1).result = .ok (.sideBranch (nonceId 2) 1) ∧
    Canonical smallCrates smallGenesis lostChain₂.state 1 (nonceId 0)
      [(nonceId 0, confirming), (smallGenesis.genesisHash smallCrates, smallGenesis.genesisBlock)] ∧
    Branch smallCrates smallGenesis lostChain₂.state (nonceId 2) [(nonceId 2, forkB1),
      (smallGenesis.genesisHash smallCrates, smallGenesis.genesisBlock)] := by
  have hcan : Canonical smallCrates smallGenesis lostChain₁.state 1 (nonceId 0) _ :=
    submit_confirming.2
  -- both branches have the same work
  have hside := submit_side chainInv_lostChain₁ hcan placement_forkB1 (by
    simp only [branchWork_cons]
    decide)
  rw [blockId_forkB1] at hside
  exact hside

/-- The move to the child of the side block. -/
theorem placement_forkB2 : Placement smallCrates smallGenesis lostChain₂.state
    [(nonceId 0, confirming), (smallGenesis.genesisHash smallCrates, smallGenesis.genesisBlock)]
    forkB2 [(nonceId 2, forkB1), (smallGenesis.genesisHash smallCrates, smallGenesis.genesisBlock)]
    [(nonceId 0, confirming)] [(nonceId 3, forkB2), (nonceId 2, forkB1)]
    [(smallGenesis.genesisHash smallCrates, smallGenesis.genesisBlock)] where
  new := by
    rw [blockId_forkB2]
    refine blocks_submit_of_ne chainInv_lostChain₁ (lostChain₁_blocks (by decide)) ?_
    rw [blockId_forkB1]
    exact nonceId_ne (by decide)
  parent := submit_forkB1.2.2
  ok := by
    rw [blockId_forkB2]
    exact emptyBlock_ok _ _ (by decide) (by decide)
  fork := by
    rw [blockId_forkB2]
    refine ⟨rfl, rfl, List.cons_ne_nil _ _, ?_⟩
    simpa using ⟨nonceId_ne (m := 0) (n := 3) (by decide), nonceId_ne (m := 0) (n := 2) (by decide)⟩

/-- The displaced transaction comes back to the node. -/
theorem submit_forkB2 : (∃ reorged, (lostChain₂.submitBlock smallCrates forkB2).result
      = .ok (.accepted (nonceId 3) 2 reorged [firstTx])) ∧
    Canonical smallCrates smallGenesis lostChain₃.state 2 (nonceId 3) [(nonceId 3, forkB2),
      (nonceId 2, forkB1), (smallGenesis.genesisHash smallCrates, smallGenesis.genesisBlock)] := by
  obtain ⟨-, hcan, -⟩ := submit_forkB1
  have hempty : ∀ q ∈ [(nonceId 3, forkB2), (nonceId 2, forkB1)], q.2.transactions.val = [] := by
    intro q hq
    simp only [List.mem_cons, List.not_mem_nil, or_false] at hq
    rcases hq with rfl | rfl
    · rfl
    · rfl
  have hmove := submit_overtakes chainInv_lostChain₂ hcan placement_forkB2 (by
    simp only [branchWork_cons]
    decide) hempty
  rw [blockId_forkB2] at hmove
  exact ⟨⟨_, hmove.1⟩, hmove.2⟩

/-- The first task has submitted the confirming block, and stops before it takes the
transaction out of the mempool. -/
def lostStart : Tasks where
  node := smallNode.submitted smallCrates confirming
  tasks := [⟨[.setHeight 1, .send (.broadcast (.newBlock confirming)),
    .mempoolRemove (firstTx.hash smallCrates)], [], [nonceId 0]⟩]

theorem reachable_lostStart : (taskMachine smallCrates smallGenesis).Reachable lostStart := by
  obtain ⟨c, hc, hstart⟩ := init_smallNode
  have hinit : (taskMachine smallCrates smallGenesis).init ⟨smallNode, []⟩ := ⟨c, hc, by rw [hstart]⟩
  have hturn : (Task.start confirming).turn smallCrates smallNode
      = (⟨outcomeOps smallCrates confirming (.accepted (nonceId 0) 1 false []), [],
          [] ++ [nonceId 0]⟩, smallNode.submitted smallCrates confirming) := by
    have hres : (smallNode.chain.submitBlock smallCrates confirming).result = _ := submit_confirming.1
    rw [Task.start, Task.turn, hres]
    rfl
  have hrun : lostStart = (taskMachine smallCrates smallGenesis).run ⟨smallNode, []⟩
      [.accept confirming, .turn 0] := by
    have haccept : (taskMachine smallCrates smallGenesis).step ⟨smallNode, []⟩ (.accept confirming)
        = ⟨smallNode, [.start confirming]⟩ := rfl
    rw [Machine.run_cons, Machine.run_cons, Machine.run_nil, haccept, step_turn rfl, hturn]
    rfl
  rw [hrun]
  exact Machine.Reachable.run (.init hinit) _

theorem confirmed_lostStart :
    Confirmed smallCrates lostStart.node.chain.state (firstTx.hash smallCrates) := by
  rw [confirmed_iff (chainInv_tasks reachable_lostStart).stored submit_confirming.2]
  exact List.mem_map_of_mem List.mem_cons_self

/-- An only task takes an operation; what it removes is confirmed. -/
theorem reach_turn {s₀ : Tasks} {task : Task}
    (h : ((taskMachine K g).startingAt s₀).Reach (SafeTurn K) ⟨node, [task]⟩)
    (hsafe : ∀ hash ops, task.ops = .mempoolRemove hash :: ops → Confirmed K node.chain.state hash) :
    ((taskMachine K g).startingAt s₀).Reach (SafeTurn K)
      ⟨(task.turn K node).2, [(task.turn K node).1]⟩ := by
  have hturn : SafeTurn K ⟨node, [task]⟩ (.turn 0) := by
    intro task' hash ops hi hops
    obtain rfl := Option.some.inj hi
    exact .inl (hsafe hash ops hops)
  exact Machine.Reach.step (.turn 0) h hturn

/-- Without interruption the removal is safe. -/
theorem safe_lostStart : ∃ node : Node, ((taskMachine smallCrates smallGenesis).startingAt
    lostStart).Reach (SafeTurn smallCrates) ⟨node, [.done]⟩ := by
  have hstart : ((taskMachine smallCrates smallGenesis).startingAt lostStart).Reach
      (SafeTurn smallCrates) lostStart := .init rfl
  have hheight := reach_turn hstart fun hash ops hops => by cases hops
  have hsend := reach_turn hheight fun hash ops hops => by cases hops
  have hremove := reach_turn hsend fun hash ops hops => by
    obtain rfl := Op.mempoolRemove.inj (List.cons.inj hops).1
    exact confirmed_lostStart
  exact ⟨_, reach_turn hremove fun hash ops hops => by cases hops⟩

theorem no_transaction_lost_small : ∃ s' : Tasks,
    ((taskMachine smallCrates smallGenesis).startingAt lostStart).Reach (SafeTurn smallCrates) s' ∧
    s'.Finished ∧ Held smallCrates s'.node.chain.state (firstTx.hash smallCrates) := by
  obtain ⟨node, hrun⟩ := safe_lostStart
  have hdone : Tasks.Finished ⟨node, [.done]⟩ := fun task htask => List.mem_singleton.mp htask
  exact ⟨_, hrun, hdone, no_transaction_lost reachable_lostStart (.inr confirmed_lostStart) hrun hdone⟩

/-- The node once two more tasks have run: one submits the block beside it, the other the
child of that block, and puts the displaced transaction back. -/
def lostNode : Node :=
  (((lostStart.node.acceptAndBroadcast smallCrates forkB1).1).acceptAndBroadcast smallCrates forkB2).1

theorem lostNode_eq : lostNode.chain.state = lostChain₃.state.writes
      (Node.mempoolWrites smallCrates forkB2 [firstTx]) ∧ lostNode.orphans.waiting (nonceId 0) = [] := by
  have hside : (lostStart.node.chain.submitBlock smallCrates forkB1).result = _ := submit_forkB1.1
  have hquiet := Node.retry_quiet (.inr (.inl ⟨_, _, hside⟩))
  have hchain : (lostStart.node.retry smallCrates forkB1).1.chain = lostChain₂ := by
    rw [Node.retry, hside]
    rfl
  obtain ⟨reorged, hmove⟩ := submit_forkB2.1
  rw [← hchain] at hmove
  obtain ⟨horphans, hwake⟩ := Node.retry_accepted hmove
  have hempty : lostStart.node.orphans = ∅ := rfl
  rw [hquiet.1, hempty] at horphans
  rw [lostNode, accept_of_none hquiet.2, accept_of_idle hwake (by rw [horphans]; rfl)]
  refine ⟨?_, ?_⟩
  · show ((lostStart.node.retry smallCrates forkB1).1.retry smallCrates forkB2).1.chain.state = _
    rw [state_retry_accepted hmove, hchain]
    rfl
  · show Orphans.waiting (AList.erase _ _) _ = []
    rw [horphans]
    rfl

/-- The first task goes on: it takes the transaction out of the mempool, and returns. -/
theorem first_task_returns : ∃ node : Node,
    (alone smallCrates)^[4] (⟨[.setHeight 1, .send (.broadcast (.newBlock confirming)),
        .mempoolRemove (firstTx.hash smallCrates)], [], [nonceId 0]⟩, lostNode) = (.done, node) ∧
    node.chain.state = lostNode.chain.state.write (.mempoolRemove (firstTx.hash smallCrates)) := by
  have hitems := lostNode_eq.2
  refine ⟨{ lostNode.writes [.mempoolRemove (firstTx.hash smallCrates)] with
    height := 1, sent := lostNode.sent ++ [.broadcast (.newBlock confirming)]
    orphans := lostNode.orphans.erase (nonceId 0) }, ?_, rfl⟩
  show ((⟨[], lostNode.orphans.waiting (nonceId 0), []⟩ : Task), _) = (Task.done, _)
  rw [hitems]
  rfl

/-- A confirmed transaction is lost: all calls have returned, and it is neither in the
mempool nor on the canonical chain. -/
theorem transaction_lost : ∃ s s' : Tasks,
    (taskMachine smallCrates smallGenesis).Reachable s ∧
    Held smallCrates s.node.chain.state (firstTx.hash smallCrates) ∧
    ((taskMachine smallCrates smallGenesis).startingAt s).Reachable s' ∧ s'.Finished ∧
    ¬ Held smallCrates s'.node.chain.state (firstTx.hash smallCrates) := by
  obtain ⟨node, hlast, hst⟩ := first_task_returns
  obtain ⟨is₁, hrun₁⟩ := run_delivery (K := smallCrates) (g := smallGenesis) lostStart forkB1
  obtain ⟨is₂, hrun₂⟩ := run_delivery (K := smallCrates) (g := smallGenesis)
    ⟨(lostStart.node.acceptAndBroadcast smallCrates forkB1).1, lostStart.tasks ++ [.done]⟩ forkB2
  have hfirst := run_turns (K := smallCrates) (g := smallGenesis) (i := 0)
    (s := ⟨lostNode, lostStart.tasks ++ [.done] ++ [.done]⟩) rfl 4
  rw [hlast] at hfirst
  have hrun : ((taskMachine smallCrates smallGenesis).startingAt lostStart).run lostStart
      (is₁ ++ is₂ ++ List.replicate 4 (.turn 0)) = ⟨node, [.done, .done, .done]⟩ := by
    show (taskMachine smallCrates smallGenesis).run lostStart _ = _
    rw [Machine.run_append, Machine.run_append, hrun₁, hrun₂]
    exact hfirst
  refine ⟨lostStart, ⟨node, [.done, .done, .done]⟩, reachable_lostStart, ?_, ?_, ?_, ?_⟩
  · exact .inr confirmed_lostStart
  · rw [← hrun]
    exact Machine.Reachable.run (.init rfl) _
  · intro task htask
    simpa using htask
  · simp only [hst]
    rintro (hpending | hconf)
    · exact (Mempool.mem_keys_remove.mp hpending).2 rfl
    · have hcore : (lostNode.chain.state.write (.mempoolRemove (firstTx.hash smallCrates))).core
          = lostChain₃.state.core := by
        rw [lostNode_eq.1]
        exact core_mempoolWrites _ _ _
      have hinv : ChainInv smallCrates smallGenesis lostChain₃ := chainInv_lostChain₂.submit forkB2
      have hconf' := hconf.congr hcore.symm
      rw [confirmed_iff hinv.stored submit_forkB2.2] at hconf'
      exact absurd hconf' List.not_mem_nil

end Ondris
