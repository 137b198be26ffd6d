import Ondris.Replay

/-!
# What the writes of a submission do

`submit_block` first stores the block and its cumulative work, then, if the
block overtakes the tip, commits a reorganisation. This module says what each
group of writes does to the five trees.

Results:
1. `WellStored.store`: storing a storable block and its work keeps the store
   well formed; `WellStored.store_cases`: it adds one branch.
2. `commit_ledger`: the account writes, in any order, leave the accounts of the
   overlay.
3. `Canonical.commit`: the height and tip writes move the index from one branch
   to the other.
-/

namespace Ondris

/-! ## Definitions -/

/-- The writes that store a block with its cumulative work. -/
def storeWrites (hash : Hash256) (b : Block) (work : ℕ) : List Write :=
  [.storeBlock hash b, .setChainwork hash work]

/-- The height index lists the branch `l`, genesis first, and nothing else. -/
def Indexes (heights : Tree UInt64 Hash256) (l : BlockChain) : Prop :=
  ∀ i, heights i = (l.reverse.map Prod.fst)[i.toNat]?

/-- The canonical chain: the branch of the tip, listed by the height index. -/
structure Canonical (K : Crates) (g : GenesisConfig) (st : ChainState) (n : UInt64) (t : Hash256)
    (l : BlockChain) : Prop where
  tip : st.tip = some (n, t)
  branch : Branch K g st t l
  height : n.toNat + 1 = l.length
  index : Indexes st.heights l

variable {K : Crates} {g : GenesisConfig} {st : ChainState}

/-- What no single write of a list changes, the list does not change. -/
theorem ChainState.writes_frame {α : Type} (f : ChainState → α) {ws : List Write}
    (hf : ∀ st, ∀ w ∈ ws, f (st.write w) = f st) (st : ChainState) : f (st.writes ws) = f st := by
  induction ws generalizing st with
  | nil => rfl
  | cons w ws ih =>
    rw [writes_cons, ih (fun st v hv => hf st v (List.mem_cons_of_mem _ hv)),
      hf st w List.mem_cons_self]

/-! ## Storing a block -/

theorem blocks_store (k : Hash256) (b : Block) (work : ℕ) :
    (st.writes (storeWrites k b work)).blocks = Function.update st.blocks k (some b) := rfl

theorem chainwork_store (k : Hash256) (b : Block) (work : ℕ) :
    (st.writes (storeWrites k b work)).chainwork = Function.update st.chainwork k (some work) := rfl

theorem blocks_store_of_ne {h k : Hash256} (hne : h ≠ k) (b : Block) (work : ℕ) :
    (st.writes (storeWrites k b work)).blocks h = st.blocks h := by
  rw [blocks_store, Function.update_of_ne hne]

theorem chainwork_store_of_ne {h k : Hash256} (hne : h ≠ k) (b : Block) (work : ℕ) :
    (st.writes (storeWrites k b work)).chainwork h = st.chainwork h := by
  rw [chainwork_store, Function.update_of_ne hne]

/-- A stored key is not the key of an unknown block. -/
theorem ne_of_isSome {h k : Hash256} (hh : (st.blocks h).isSome) (hnew : st.blocks k = none) :
    h ≠ k := by
  rintro rfl
  simp [hnew] at hh

theorem WellStored.genesis_isSome (hs : WellStored K g st) :
    (st.blocks (g.genesisHash K)).isSome := by
  simp [hs.genesis]

theorem Canonical.unique {n n' : UInt64} {t t' : Hash256} {l l' : BlockChain}
    (h : Canonical K g st n t l) (h' : Canonical K g st n' t' l') : n = n' ∧ t = t' ∧ l = l' := by
  have htip := h.tip.symm.trans h'.tip
  simp only [Option.some.injEq, Prod.mk.injEq] at htip
  obtain ⟨rfl, rfl⟩ := htip
  exact ⟨rfl, rfl, h.branch.unique h'.branch⟩

theorem WellStored.parent_isSome (hs : WellStored K g st) {h : Hash256} {b : Block}
    (hb : st.blocks h = some b) (hne : h ≠ g.genesisHash K) :
    (st.blocks b.header.prevHash).isSome := by
  obtain ⟨l, hl, -⟩ := hs.stored h b hb hne
  exact hl.get_isSome

/-- After a block is stored, its branch is the only new one. -/
theorem WellStored.store_cases (hs : WellStored K g st) {b : Block} {k : Hash256} {work : ℕ}
    {lp : BlockChain} (hnew : st.blocks k = none) (hlp : Branch K g st b.header.prevHash lp)
    {h : Hash256} {l : BlockChain} (hl : Branch K g (st.writes (storeWrites k b work)) h l) :
    Branch K g st h l ∨ (h = k ∧ l = (k, b) :: lp) := by
  rcases Lineage.update_cases hnew hs.genesis_isSome (fun j n hj hne => hs.parent_isSome hj hne)
    hlp.get_isSome hl with hold | ⟨rfl, t, rfl, ht⟩
  · exact .inl hold
  · exact .inr ⟨rfl, by rw [ht.unique hlp]⟩

/-- Branches survive the storing of an unknown block. -/
theorem Branch.store {k : Hash256} (hnew : st.blocks k = none) (b : Block) (work : ℕ)
    {h : Hash256} {l : BlockChain} (hl : Branch K g st h l) :
    Branch K g (st.writes (storeWrites k b work)) h l := by
  refine hl.mono fun j n hj => ?_
  rwa [blocks_store_of_ne (ne_of_isSome (by simp [hj]) hnew)]

/-- The branch of the stored block. -/
theorem Branch.store_self (hs : WellStored K g st) {k : Hash256} (hnew : st.blocks k = none)
    {b : Block} {lp : BlockChain} (hlp : Branch K g st b.header.prevHash lp) (work : ℕ) :
    Branch K g (st.writes (storeWrites k b work)) k ((k, b) :: lp) := by
  refine .step (ne_of_isSome hs.genesis_isSome hnew).symm ?_ (hlp.store hnew b work)
  rw [blocks_store, Function.update_self]

/-- Storing a well-formed block with the work of its branch keeps the store
well formed. -/
theorem WellStored.store (hs : WellStored K g st) {k : Hash256} {b : Block} {lp : BlockChain}
    (hnew : st.blocks k = none) (hlp : Branch K g st b.header.prevHash lp)
    (hok : BlockOk K g (lp.map Prod.snd) k b) :
    WellStored K g (st.writes (storeWrites k b (branchWork ((k, b) :: lp)))) where
  genesis := by
    rw [blocks_store_of_ne (ne_of_isSome hs.genesis_isSome hnew), hs.genesis]
  stored := by
    intro h c hc hne
    by_cases hk : h = k
    · -- the new block
      subst hk
      rw [blocks_store, Function.update_self] at hc
      cases hc
      exact ⟨lp, hlp.store hnew b _, hok⟩
    · rw [blocks_store_of_ne hk] at hc
      obtain ⟨l, hl, hcok⟩ := hs.stored h c hc hne
      exact ⟨l, hl.store hnew b _, hcok⟩
  work := by
    intro h l hl
    rcases hs.store_cases hnew hlp hl with hold | ⟨rfl, rfl⟩
    · rw [chainwork_store_of_ne (ne_of_isSome hold.get_isSome hnew), hs.work h l hold]
    · rw [chainwork_store, Function.update_self]
  workOnly := by
    intro h hw
    by_cases hk : h = k
    · subst hk
      simp [blocks_store]
    · rw [chainwork_store_of_ne hk] at hw
      rw [blocks_store_of_ne hk]
      exact hs.workOnly h hw

theorem Canonical.store {n : UInt64} {t : Hash256} {l : BlockChain} (hcan : Canonical K g st n t l)
    {k : Hash256} (hnew : st.blocks k = none) (b : Block) (work : ℕ) :
    Canonical K g (st.writes (storeWrites k b work)) n t l :=
  ⟨hcan.tip, hcan.branch.store hnew b work, hcan.height, hcan.index⟩

/-! ## The canonical chain -/

/-- The block at a canonical height, read off the branch of the tip. -/
theorem Canonical.getBlockByHeight {n : UInt64} {t : Hash256} {l : BlockChain}
    (hcan : Canonical K g st n t l) (i : UInt64) :
    st.getBlockByHeight i = (l.reverse.map Prod.snd)[i.toNat]? := by
  rw [ChainState.getBlockByHeight, ChainState.getHashByHeight, hcan.index, List.getElem?_map,
    List.getElem?_map]
  cases hp : l.reverse[i.toNat]? with
  | none => rfl
  | some p =>
    have hmem : (p.1, p.2) ∈ l := List.mem_reverse.mp (List.mem_of_getElem? hp)
    exact hcan.branch.mem_get hmem

/-- The canonical blocks counted from the tip down. -/
theorem Canonical.getBlockByHeight_sub {n j : UInt64} {t : Hash256} {l : BlockChain}
    (hcan : Canonical K g st n t l) (hj : j.toNat ≤ n.toNat) :
    st.getBlockByHeight (n - j) = (l.map Prod.snd)[j.toNat]? := by
  have hlen := hcan.height
  have hsub : l.length - 1 - (n - j).toNat = j.toNat := by
    rw [toNat_sub_of_le hj]
    omega
  rw [hcan.getBlockByHeight, List.map_reverse, List.getElem?_reverse, List.length_map, hsub]
  rw [List.length_map, toNat_sub_of_le hj]
  omega

/-! ## Account writes -/

theorem accounts_writes_of_notMem {ws : List (Address × Account)} {addr : Address}
    (hm : addr ∉ ws.map Prod.fst) :
    (st.writes (ws.map fun p => .setAccount p.1 p.2)).accounts addr = st.accounts addr := by
  refine ChainState.writes_frame (fun st => st.accounts addr) (fun st w hw => ?_) st
  obtain ⟨p, hp, rfl⟩ := List.mem_map.mp hw
  have hne : addr ≠ p.1 := fun heq => hm (heq ▸ List.mem_map_of_mem hp)
  simp [ChainState.write, hne]

theorem accounts_writes_of_mem {ws : List (Address × Account)} (hnd : (ws.map Prod.fst).Nodup)
    {addr : Address} {a : Account} (hm : (addr, a) ∈ ws) :
    (st.writes (ws.map fun p => .setAccount p.1 p.2)).accounts addr = some a := by
  induction ws generalizing st with
  | nil => simp at hm
  | cons p ws ih =>
    rw [List.map_cons, List.nodup_cons] at hnd
    rw [List.map_cons, ChainState.writes_cons]
    rcases List.mem_cons.mp hm with rfl | hm
    · rw [accounts_writes_of_notMem hnd.1]
      simp [ChainState.write]
    · exact ih hnd.2 hm

/-- Writing the entries of an overlay, in any order, leaves its accounts. -/
theorem accounts_ledger {overlay : Overlay} {ws : List (Address × Account)}
    (hperm : ws.Perm (overlay.entries.map fun e => (e.1, e.2))) :
    (st.writes (ws.map fun p => .setAccount p.1 p.2)).ledger = overlayLedger st overlay := by
  have hkeys : ws.map Prod.fst |>.Perm overlay.keys := by
    have h := hperm.map Prod.fst
    rwa [List.map_map] at h
  funext addr
  rw [ChainState.ledger, ChainState.getAccount, overlayLedger, getAcc]
  cases hlook : overlay.lookup addr with
  | none =>
    have hnot : addr ∉ ws.map Prod.fst := fun hm =>
      AList.lookup_eq_none.mp hlook (AList.mem_keys.mp (hkeys.mem_iff.mp hm))
    rw [accounts_writes_of_notMem hnot]
    rfl
  | some a =>
    have hmem : (addr, a) ∈ ws := hperm.mem_iff.mpr
      (List.mem_map.mpr ⟨⟨addr, a⟩, AList.mem_lookup_iff.mp hlook, rfl⟩)
    rw [accounts_writes_of_mem (hkeys.nodup_iff.mpr overlay.keys_nodup) hmem]
    rfl

/-! ## Height writes -/

/-- A block put on top of the listed branch. -/
theorem Indexes.push {heights : Tree UInt64 Hash256} {l : BlockChain} (h : Indexes heights l)
    {q : Hash256 × Block} (hq : q.2.header.height.toNat = l.length) :
    Indexes (Function.update heights q.2.header.height (some q.1)) (q :: l) := by
  intro i
  have hlen : (l.reverse.map Prod.fst).length = l.length := by simp
  rw [List.reverse_cons, List.map_append, List.map_singleton]
  by_cases hi : i = q.2.header.height
  · subst hi
    rw [Function.update_self, hq, List.getElem?_append_right (by omega), hlen, Nat.sub_self]
    rfl
  · have hne : i.toNat ≠ l.length := fun heq => hi (UInt64.toNat_inj.mp (heq.trans hq.symm))
    rw [Function.update_of_ne hi, h i]
    rcases Nat.lt_or_ge i.toNat l.length with hlt | hge
    · rw [List.getElem?_append_left (by omega)]
    · rw [List.getElem?_eq_none (by omega), List.getElem?_eq_none]
      rw [List.length_append, List.length_singleton]
      omega

/-- The top block of the listed branch taken off. -/
theorem Indexes.pop {heights : Tree UInt64 Hash256} {l : BlockChain} {q : Hash256 × Block}
    (h : Indexes heights (q :: l)) (hq : q.2.header.height.toNat = l.length) :
    Indexes (Function.update heights q.2.header.height none) l := by
  intro i
  have hlen : (l.reverse.map Prod.fst).length = l.length := by simp
  by_cases hi : i = q.2.header.height
  · subst hi
    rw [Function.update_self, hq, List.getElem?_eq_none (by omega)]
  · have hne : i.toNat ≠ l.length := fun heq => hi (UInt64.toNat_inj.mp (heq.trans hq.symm))
    rw [Function.update_of_ne hi, h i, List.reverse_cons, List.map_append, List.map_singleton]
    rcases Nat.lt_or_ge i.toNat l.length with hlt | hge
    · rw [List.getElem?_append_left (by omega)]
    · rw [List.getElem?_eq_none, List.getElem?_eq_none (by omega)]
      rw [List.length_append, List.length_singleton]
      omega

/-- Removing the heights of the upper part of a listed branch, top first. -/
theorem heights_remove (hs : WellStored K g st) {h : Hash256} {a c : BlockChain}
    (hl : Branch K g st h (a ++ c)) (hc : c ≠ []) {st' : ChainState}
    (hidx : Indexes st'.heights (a ++ c)) :
    Indexes (st'.writes ((a.map (·.2.header.height)).map .removeCanonicalHeight)).heights c := by
  induction a generalizing h st' with
  | nil => exact hidx
  | cons q a ih =>
    rw [List.cons_append] at hl hidx
    obtain ⟨k, hk⟩ := Lineage.of_append_ne_nil [q] hl (by simp [hc])
    exact ih hk (hidx.pop (hs.height_of_branch hl))

/-- Setting the heights of the upper part of a branch, bottom first. -/
theorem heights_set (hs : WellStored K g st) {h : Hash256} {b c : BlockChain}
    (hl : Branch K g st h (b ++ c)) (hc : c ≠ []) {st' : ChainState}
    (hidx : Indexes st'.heights c) :
    Indexes (st'.writes ((b.reverse.map fun p => (p.2.header.height, p.1)).map
      fun p => .setCanonicalHeight p.1 p.2)).heights (b ++ c) := by
  induction b generalizing h with
  | nil => exact hidx
  | cons q b ih =>
    rw [List.cons_append] at hl
    obtain ⟨k, hk⟩ := Lineage.of_append_ne_nil [q] hl (by simp [hc])
    rw [List.reverse_cons, List.map_append, List.map_append, ChainState.writes_append]
    exact (ih hk).push (hs.height_of_branch hl)

/-! ## Commits -/

/-- A commit leaves blocks, work and mempool alone. -/
theorem commit_frame (m : Commit) : (st.writes m.writes).blocks = st.blocks ∧
    (st.writes m.writes).chainwork = st.chainwork ∧
    (st.writes m.writes).mempool = st.mempool := by
  have hstep : ∀ st : ChainState, ∀ w ∈ m.writes,
      ((st.write w).blocks, (st.write w).chainwork, (st.write w).mempool)
        = (st.blocks, st.chainwork, st.mempool) := by
    intro st w hw
    simp only [Commit.writes, List.mem_append, List.mem_map, List.mem_singleton] at hw
    rcases hw with ((⟨p, -, rfl⟩ | ⟨p, -, rfl⟩) | ⟨p, -, rfl⟩) | rfl <;> rfl
  simpa only [Prod.mk.injEq] using
    ChainState.writes_frame (fun st => (st.blocks, st.chainwork, st.mempool)) hstep st

theorem WellStored.congr (hs : WellStored K g st) {st' : ChainState}
    (hblocks : st'.blocks = st.blocks) (hwork : st'.chainwork = st.chainwork) :
    WellStored K g st' := by
  obtain ⟨hgen, hstored, hwk, hwo⟩ := hs
  constructor
  · rwa [hblocks]
  · simpa only [Branch, hblocks] using hstored
  · simpa only [Branch, hblocks, hwork] using hwk
  · simpa only [hblocks, hwork] using hwo

theorem Canonical.congr {n : UInt64} {t : Hash256} {l : BlockChain} {st' : ChainState}
    (hcan : Canonical K g st n t l) (hblocks : st'.blocks = st.blocks)
    (hheights : st'.heights = st.heights) (htip : st'.tip = st.tip) : Canonical K g st' n t l where
  tip := by rw [htip, hcan.tip]
  branch := by
    rw [Branch, hblocks]
    exact hcan.branch
  height := hcan.height
  index := by
    rw [hheights]
    exact hcan.index

theorem WellStored.commit (hs : WellStored K g st) (m : Commit) :
    WellStored K g (st.writes m.writes) :=
  hs.congr (commit_frame m).1 (commit_frame m).2.1

theorem Branch.commit {h : Hash256} {l : BlockChain} (hl : Branch K g st h l) (m : Commit) :
    Branch K g (st.writes m.writes) h l := by
  rwa [Branch, (commit_frame m).1]

/-- The height and tip writes do not touch the accounts. -/
theorem commit_ledger {m : Commit} {overlay : Overlay}
    (hperm : m.accounts.Perm (overlay.entries.map fun e => (e.1, e.2))) :
    (st.writes m.writes).ledger = overlayLedger st overlay := by
  rw [← accounts_ledger hperm, Commit.writes, List.append_assoc, List.append_assoc,
    ChainState.writes_append]
  refine ChainState.writes_frame (·.ledger) (fun st w hw => ?_) _
  simp only [List.mem_append, List.mem_map, List.mem_singleton] at hw
  rcases hw with ⟨p, -, rfl⟩ | ⟨p, -, rfl⟩ | rfl <;> rfl

/-- A commit moves the canonical chain to the new branch. -/
theorem Canonical.commit (hs : WellStored K g st) {n : UInt64} {t new : Hash256}
    {lo ln a b c : BlockChain} (hcan : Canonical K g st n t lo) (hnew : Branch K g st new ln)
    (hf : Fork lo ln a b c) {m : Commit} (hrem : m.removed = a.map (·.2.header.height))
    (hset : m.canonical = b.reverse.map fun p => (p.2.header.height, p.1))
    (htip : m.tipHash = new) (hheight : m.tipHeight.toNat + 1 = ln.length) :
    Canonical K g (st.writes m.writes) m.tipHeight new ln where
  tip := by rw [Commit.writes, ChainState.writes_append, ← htip]; rfl
  branch := hnew.commit m
  height := hheight
  index := by
    obtain ⟨rfl, rfl, hc, -⟩ := hf
    have hacc : (st.writes (m.accounts.map fun p => .setAccount p.1 p.2)).heights = st.heights := by
      refine ChainState.writes_frame (·.heights) (fun st w hw => ?_) st
      obtain ⟨p, -, rfl⟩ := List.mem_map.mp hw
      rfl
    have hidx := hcan.index
    rw [← hacc] at hidx
    have hremoved := heights_remove hs hcan.branch hc hidx
    have hsetted := heights_set hs hnew hc hremoved
    rw [Commit.writes, ChainState.writes_append, ChainState.writes_append,
      ChainState.writes_append, hrem, hset]
    exact hsetted

end Ondris
