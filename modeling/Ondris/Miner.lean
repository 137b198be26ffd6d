import Ondris.Lib.Race
import Ondris.Template

/-!
# The CPU miner

`mine_block` searches the nonces with several threads: thread `i` of `n` tries `i`,
`i + n`, `i + 2n` and so on. The flag that ends the search is read without ordering, so
a thread may go on for a while after it is raised. The count of hashes is left aside.

Results:
1. `Tracks.step`: each step of the threads is one of a race.
2. `mine_block_solves`: when all threads are joined there is a nonce to take, and it
   meets the target.
3. `mine_block_ends`: a solution is found before its thread has tried all nonces below it.
4. `mined_block_accepted`: a block that the miner finishes for a template is accepted.
-/

namespace Ondris

/-! ## `mine_block` -/

/-- A thread: the nonce it is at, and what it does next. -/
structure Searcher where
  nonce : UInt64
  pc : Race.Pc
deriving DecidableEq

/-- The threads and what they share. -/
structure Mining (threads : ℕ) where
  searchers : Fin (max threads 1) → Searcher
  found : Bool
  result : Option UInt64
  /-- The main thread is in its loop. -/
  waiting : Bool

/-- Whose turn it is; `sees` is what a load of `found` returns. -/
inductive MiningInput (threads : ℕ)
  | thread (t : Fin (max threads 1)) (sees : Bool)
  | main (sees : Bool)
deriving DecidableEq

section MineBlock

variable (K : Crates) (headerBytes target : Bytes) (dataset : Dataset) {threads : ℕ}

/-- The test of a nonce. -/
def hits (nonce : UInt64) : Bool := meetsTarget (ondrisHash K headerBytes nonce dataset) target

def Mining.moved (s : Mining threads) (t : Fin (max threads 1)) (w : Searcher) : Mining threads :=
  { s with searchers := Function.update s.searchers t w }

def Mining.start (threads : ℕ) : Mining threads where
  searchers t := ⟨UInt64.ofNat t, .check⟩
  found := false
  result := none
  waiting := true

/-- A turn of a thread of `mine_block`. -/
def Mining.next (s : Mining threads) : MiningInput threads → Mining threads
  | .thread t sees =>
    let w := s.searchers t
    match w.pc with
    | .check => s.moved t ⟨w.nonce, if sees then .stopped else .attempt⟩
    | .attempt =>
      if hits K headerBytes target dataset w.nonce then s.moved t ⟨w.nonce, .publish⟩
      else s.moved t ⟨w.nonce + UInt64.ofNat (max threads 1), .check⟩
    | .publish => { s.moved t ⟨w.nonce, .raise⟩ with result := some w.nonce }
    | .raise => { s.moved t ⟨w.nonce, .stopped⟩ with found := true }
    | .stopped => s
  | .main sees => if sees then { s with waiting := false } else s

def mining (threads : ℕ) : Machine (Mining threads) (MiningInput threads) Unit where
  init s := s = Mining.start threads
  step := Mining.next K headerBytes target dataset
  out _ _ := ()

end MineBlock

section Threads

variable {threads : ℕ}

/-- A load may be late, but does not return what has not been stored. -/
def Mining.Relaxed (s : Mining threads) : MiningInput threads → Prop
  | .thread _ sees => sees = true → s.found = true
  | .main sees => sees = true → s.found = true

/-- The scope has ended. -/
structure Mining.Joined (s : Mining threads) : Prop where
  main : s.waiting = false
  searchers : ∀ t, (s.searchers t).pc = .stopped

/-- What `mine_block` returns once the scope has ended, unless it panics. -/
def Mining.mined (s : Mining threads) (block : Block) : Option Block := s.result.map block.withNonce

/-- The nonces that a thread tries. -/
def candidate (threads : ℕ) (t : Fin (max threads 1)) (k : ℕ) : UInt64 :=
  UInt64.ofNat (t + k * max threads 1)

/-- The turns that are turns of threads. -/
def MiningInput.turn : MiningInput threads → Option (Race.Turn (Fin (max threads 1)))
  | .thread t sees => some ⟨t, sees⟩
  | .main _ => none

/-- The state of a race, with positions for nonces. -/
structure Tracks (s : Mining threads) (r : Race.State (Fin (max threads 1)) UInt64) : Prop where
  pc : ∀ t, (s.searchers t).pc = (r.workers t).pc
  nonce : ∀ t, (s.searchers t).nonce = candidate threads t (r.workers t).position
  found : s.found = r.found
  result : s.result = r.result
  left : s.waiting = false → s.found = true

end Threads

/-! ## The loop of the miner -/

/-- The dataset that the miner keeps, with its epoch. -/
structure Miner where
  cached : Option (UInt64 × Dataset)

/-- The dataset for a template: that of the same epoch, or a new one. -/
def Miner.fetch (K : Crates) (m : Miner) (work : WorkTemplate) : Miner × Dataset :=
  match m.cached with
  | some (epoch, dataset) =>
    if epoch = work.epoch then (m, dataset)
    else (⟨some (work.epoch, work.dataset K)⟩, work.dataset K)
  | none => (⟨some (work.epoch, work.dataset K)⟩, work.dataset K)

/-- The miner after it has worked on some templates. -/
def Miner.after (K : Crates) (works : List WorkTemplate) : Miner :=
  works.foldl (fun m work => (m.fetch K work).1) ⟨none⟩

/-- A node of the network handed out the template. -/
def HandedOut (K : Crates) (g : GenesisConfig) (work : WorkTemplate) : Prop :=
  ∃ node text now, (nodeMachine K g).Reachable node ∧ (node.getWork K text now).2 = .ok work

variable {K : Crates} {g : GenesisConfig} {headerBytes target : Bytes} {dataset : Dataset}
  {threads : ℕ} {s : Mining threads} {r : Race.State (Fin (max threads 1)) UInt64}

/-! ## A race -/

theorem candidate_succ (t : Fin (max threads 1)) (k : ℕ) :
    candidate threads t k + UInt64.ofNat (max threads 1) = candidate threads t (k + 1) := by
  rw [candidate, candidate, ← UInt64.ofNat_add]
  congr 1
  rw [Nat.add_mul, Nat.one_mul, Nat.add_assoc]

theorem Tracks.start : Tracks (Mining.start threads) ⟨fun _ => ⟨0, .check⟩, false, none⟩ where
  pc _ := rfl
  nonce t := by
    rw [candidate, Nat.zero_mul, Nat.add_zero]
    rfl
  found := rfl
  result := rfl
  left := nofun

/-- A thread has moved, and the others are where they were. -/
theorem Tracks.moved (h : Tracks s r) {t : Fin (max threads 1)} {w : Searcher} {v : Race.Worker}
    (hpc : w.pc = v.pc) (hnonce : w.nonce = candidate threads t v.position) {found : Bool}
    (hfound : s.found = true → found = true) (result : Option UInt64) :
    Tracks ⟨Function.update s.searchers t w, found, result, s.waiting⟩
      ⟨Function.update r.workers t v, found, result⟩ := by
  have hall : ∀ u, (Function.update s.searchers t w u).pc = (Function.update r.workers t v u).pc ∧
      (Function.update s.searchers t w u).nonce
        = candidate threads u (Function.update r.workers t v u).position := by
    intro u
    by_cases hu : u = t
    · subst hu
      rw [Function.update_self, Function.update_self]
      exact ⟨hpc, hnonce⟩
    · rw [Function.update_of_ne hu, Function.update_of_ne hu]
      exact ⟨h.pc u, h.nonce u⟩
  exact ⟨fun u => (hall u).1, fun u => (hall u).2, rfl, rfl, fun hleft => hfound (h.left hleft)⟩

/-- **A turn of a thread is a turn of a worker.** -/
theorem Tracks.thread (h : Tracks s r) (t : Fin (max threads 1)) (sees : Bool) :
    Tracks (s.next K headerBytes target dataset (.thread t sees))
      (r.next (candidate threads) (hits K headerBytes target dataset) ⟨t, sees⟩) := by
  have hpc := h.pc t
  have hnonce := h.nonce t
  cases hw : (r.workers t).pc with
  | check =>
    have hnext := h.moved (w := ⟨(s.searchers t).nonce, if sees then .stopped else .attempt⟩)
      (v := ⟨(r.workers t).position, if sees then .stopped else .attempt⟩) rfl hnonce id s.result
    simpa [Mining.next, Mining.moved, Race.State.next, Race.Worker.next, hpc, hw, h.found, h.result]
      using hnext
  | attempt =>
    cases hhit : hits K headerBytes target dataset (s.searchers t).nonce with
    | true =>
      have hnext := h.moved (w := ⟨(s.searchers t).nonce, .publish⟩)
        (v := ⟨(r.workers t).position, .publish⟩) rfl hnonce id s.result
      simpa [Mining.next, Mining.moved, Race.State.next, Race.Worker.next, hpc, hw, hhit,
        hnonce ▸ hhit, h.found, h.result] using hnext
    | false =>
      have hnext := h.moved (w := ⟨(s.searchers t).nonce + UInt64.ofNat (max threads 1), .check⟩)
        (v := ⟨(r.workers t).position + 1, .check⟩) rfl (by rw [hnonce, candidate_succ]) id s.result
      simpa [Mining.next, Mining.moved, Race.State.next, Race.Worker.next, hpc, hw, hhit,
        hnonce ▸ hhit, h.found, h.result] using hnext
  | publish =>
    have hnext := h.moved (w := ⟨(s.searchers t).nonce, .raise⟩)
      (v := ⟨(r.workers t).position, .raise⟩) rfl hnonce id (some (s.searchers t).nonce)
    simpa [Mining.next, Mining.moved, Race.State.next, Race.Worker.next, hpc, hw, h.found, hnonce]
      using hnext
  | raise =>
    have hnext := h.moved (w := ⟨(s.searchers t).nonce, .stopped⟩)
      (v := ⟨(r.workers t).position, .stopped⟩) rfl hnonce (fun _ => rfl) s.result
    simpa [Mining.next, Mining.moved, Race.State.next, Race.Worker.next, hpc, hw, h.result]
      using hnext
  | stopped =>
    have hsame : Function.update r.workers t (r.workers t) = r.workers := Function.update_eq_self t _
    simpa [Mining.next, Race.State.next, Race.Worker.next, hpc, hw, hsame] using h

/-- The main thread leaves its loop at the flag, and does nothing else. -/
theorem Tracks.main (K : Crates) (headerBytes target : Bytes) (dataset : Dataset)
    (h : Tracks s r) {sees : Bool} (hsees : sees = true → s.found = true) :
    Tracks (s.next K headerBytes target dataset (.main sees)) r := by
  cases sees with
  | true => exact ⟨h.pc, h.nonce, h.found, h.result, fun _ => hsees rfl⟩
  | false => exact h

/-- A run of the threads is a run of a race. -/
theorem Tracks.run (h : Tracks s r) {is : List (MiningInput threads)}
    (his : (mining K headerBytes target dataset threads).Follows Mining.Relaxed s is) :
    (Race.machine (candidate threads) (hits K headerBytes target dataset)).Follows Race.Seen r
        (is.filterMap MiningInput.turn) ∧
      Tracks ((mining K headerBytes target dataset threads).run s is)
        ((Race.machine (candidate threads) (hits K headerBytes target dataset)).run r
          (is.filterMap MiningInput.turn)) := by
  induction is generalizing s r with
  | nil => exact ⟨trivial, h⟩
  | cons i is ih =>
    cases i with
    | thread t sees =>
      obtain ⟨hfollows, htracks⟩ := ih (h.thread t sees) his.2
      refine ⟨⟨fun hsees => ?_, hfollows⟩, htracks⟩
      rw [← h.found]
      exact his.1 hsees
    | main sees => exact ih (Tracks.main K headerBytes target dataset h his.1) his.2

theorem exists_tracks
    (hs : (mining K headerBytes target dataset threads).Reach Mining.Relaxed s) :
    ∃ r, (Race.machine (candidate threads) (hits K headerBytes target dataset)).Reach Race.Seen r ∧
      Tracks s r := by
  induction hs with
  | init hinit =>
    cases hinit
    exact ⟨_, .init rfl, .start⟩
  | step i _ hi ih =>
    obtain ⟨r, hr, htracks⟩ := ih
    cases i with
    | thread t sees =>
      have hseen : Race.Seen r ⟨t, sees⟩ := fun hsees => by
        rw [← htracks.found]
        exact hi hsees
      exact ⟨_, .step _ hr hseen, htracks.thread t sees⟩
    | main sees => exact ⟨r, hr, .main K headerBytes target dataset htracks hi⟩

/-! ## What `mine_block` returns -/

/-- The nonce to take is the first one of its thread that meets the target. -/
theorem joined_result
    (hs : (mining K headerBytes target dataset threads).Reach Mining.Relaxed s) (hend : s.Joined) :
    ∃ (t : Fin (max threads 1)) (k : ℕ), s.result = some (candidate threads t k) ∧
      hits K headerBytes target dataset (candidate threads t k) = true ∧
      ∀ j < k, hits K headerBytes target dataset (candidate threads t j) = false := by
  obtain ⟨r, hr, htracks⟩ := exists_tracks hs
  have : Nonempty (Fin (max threads 1)) := ⟨⟨0, Nat.lt_of_lt_of_le Nat.one_pos (le_max_right _ _)⟩⟩
  obtain ⟨t, k, hresult, hgood, hfirst⟩ := (Race.reach_inv hr).winner fun t => by
    rw [← htracks.pc, hend.searchers t]
  exact ⟨t, k, htracks.result.trans hresult, hgood, hfirst⟩

/-- **`mine_block` returns a solution.** In every interleaving, with loads as late as they
like, there is a nonce to take once all threads are joined. It meets the target and is the
first one of its thread that does. -/
theorem mine_block_solves
    (hs : (mining K headerBytes target dataset threads).Reach Mining.Relaxed s) (hend : s.Joined)
    (block : Block) : ∃ (t : Fin (max threads 1)) (k : ℕ),
      s.mined block = some (block.withNonce (candidate threads t k)) ∧
      hits K headerBytes target dataset (candidate threads t k) = true ∧
      ∀ j < k, hits K headerBytes target dataset (candidate threads t j) = false := by
  obtain ⟨t, k, hresult, hgood, hfirst⟩ := joined_result hs hend
  refine ⟨t, k, ?_, hgood, hfirst⟩
  rw [Mining.mined, hresult, Option.map_some]

/-- The thread that tries a nonce. -/
def threadOf (threads : ℕ) (nonce : UInt64) : Fin (max threads 1) :=
  ⟨nonce.toNat % max threads 1, Nat.mod_lt _ (Nat.lt_of_lt_of_le Nat.one_pos (le_max_right _ _))⟩

/-- Each nonce is tried by one of the threads. -/
theorem candidate_threadOf (nonce : UInt64) :
    candidate threads (threadOf threads nonce) (nonce.toNat / max threads 1) = nonce := by
  rw [candidate, threadOf, Nat.mod_add_div', UInt64.ofNat_toNat]

/-- The number of turns of a thread. -/
def turnsOf (t : Fin (max threads 1)) (is : List (MiningInput threads)) : ℕ :=
  (is.filterMap MiningInput.turn).countP (·.worker = t)

/-- What is raised stays raised, and the main thread does not enter its loop again. -/
theorem found_next (s : Mining threads) (i : MiningInput threads) :
    (s.found = true → (s.next K headerBytes target dataset i).found = true) ∧
      (s.waiting = false → (s.next K headerBytes target dataset i).waiting = false) := by
  cases i with
  | thread t sees =>
    cases hpc : (s.searchers t).pc with
    | check =>
      simp only [Mining.next, hpc]
      exact ⟨id, id⟩
    | attempt =>
      simp only [Mining.next, hpc]
      split <;> exact ⟨id, id⟩
    | publish =>
      simp only [Mining.next, hpc]
      exact ⟨id, id⟩
    | raise =>
      simp only [Mining.next, hpc]
      exact ⟨fun _ => trivial, id⟩
    | stopped =>
      simp only [Mining.next, hpc]
      exact ⟨id, id⟩
  | main sees =>
    cases sees with
    | true => exact ⟨id, fun _ => rfl⟩
    | false => exact ⟨id, id⟩

/-- After the flag is raised, it can always be seen. -/
theorem follows_found (h : s.found = true) (is : List (MiningInput threads)) :
    (mining K headerBytes target dataset threads).Follows Mining.Relaxed s is := by
  induction is generalizing s with
  | nil => trivial
  | cons i is ih => exact ⟨by cases i <;> exact fun _ => h, ih ((found_next s i).1 h)⟩

theorem waiting_run {is : List (MiningInput threads)} (h : s.waiting = false ∨ .main true ∈ is) :
    ((mining K headerBytes target dataset threads).run s is).waiting = false := by
  induction is generalizing s with
  | nil => exact h.resolve_right List.not_mem_nil
  | cons i is ih =>
    refine ih ?_
    rcases h with h | h
    · exact .inl ((found_next s i).2 h)
    · rcases List.mem_cons.mp h with rfl | h
      · exact .inl rfl
      · exact .inr h

/-- The thread of a solution stops, and with it the flag is raised. -/
theorem found_in_time {nonce : UInt64} (hhit : hits K headerBytes target dataset nonce = true)
    {is : List (MiningInput threads)}
    (his : (mining K headerBytes target dataset threads).Follows Mining.Relaxed (Mining.start threads) is)
    (hturns : 2 * (nonce.toNat / max threads 1) + 4 ≤ turnsOf (threadOf threads nonce) is) :
    (((mining K headerBytes target dataset threads).run (Mining.start threads) is).searchers
        (threadOf threads nonce)).pc = .stopped ∧
      ((mining K headerBytes target dataset threads).run (Mining.start threads) is).found = true := by
  obtain ⟨hrace, htracks⟩ := Tracks.start.run his
  have hgood : hits K headerBytes target dataset
      (candidate threads (threadOf threads nonce) (nonce.toNat / max threads 1)) = true := by
    rwa [candidate_threadOf]
  have hstopped := Race.stops_in_time (.init rfl) hgood hrace hturns
  have hreach := Machine.Reach.run (.init rfl) hrace
  rw [htracks.pc, htracks.found]
  exact ⟨hstopped, ((Race.reach_inv hreach).workers _).stopped hstopped⟩

/-- Once the flag is raised, three turns of each thread and one of the main thread, in which
they see it, end the search. -/
theorem joined_of_found {is js : List (MiningInput threads)}
    (his : (mining K headerBytes target dataset threads).Follows Mining.Relaxed (Mining.start threads) is)
    (hfound : ((mining K headerBytes target dataset threads).run (Mining.start threads) is).found = true)
    (hjs : ∀ t, .thread t false ∉ js) (hmain : .main true ∈ js) (hall : ∀ t, 3 ≤ turnsOf t js) :
    (mining K headerBytes target dataset threads).Follows Mining.Relaxed (Mining.start threads) (is ++ js) ∧
      ((mining K headerBytes target dataset threads).run (Mining.start threads) (is ++ js)).Joined := by
  obtain ⟨-, htracks⟩ := Tracks.start.run his
  have hfollows : (mining K headerBytes target dataset threads).Follows Mining.Relaxed _ js :=
    follows_found hfound js
  obtain ⟨-, hend⟩ := htracks.run hfollows
  rw [Machine.follows_append, Machine.run_append]
  refine ⟨⟨his, hfollows⟩, waiting_run (.inr hmain), fun t => ?_⟩
  rw [hend.pc]
  refine Race.all_stop _ (fun i hi => ?_) (hall t)
  obtain ⟨j, hj, hturn⟩ := List.mem_filterMap.mp hi
  cases j with
  | thread u sees =>
    obtain rfl := Option.some.inj hturn
    cases sees with
    | true => rfl
    | false => exact absurd hj (hjs u)
  | main sees => cases hturn

/-- **`mine_block` ends.** If there is a solution, its thread needs only to get enough turns
to try the nonces of its own below it; after that three more turns of each thread and one of
the main thread, in which they see the flag, end the search. -/
theorem mine_block_ends {nonce : UInt64} (hhit : hits K headerBytes target dataset nonce = true)
    {is js : List (MiningInput threads)}
    (his : (mining K headerBytes target dataset threads).Follows Mining.Relaxed (Mining.start threads) is)
    (hturns : 2 * (nonce.toNat / max threads 1) + 4 ≤ turnsOf (threadOf threads nonce) is)
    (hjs : ∀ t, .thread t false ∉ js) (hmain : .main true ∈ js) (hall : ∀ t, 3 ≤ turnsOf t js) :
    (mining K headerBytes target dataset threads).Follows Mining.Relaxed (Mining.start threads) (is ++ js) ∧
      ((mining K headerBytes target dataset threads).run (Mining.start threads) (is ++ js)).Joined :=
  joined_of_found his (found_in_time hhit his hturns).2 hjs hmain hall

/-! ## The block that is submitted -/

variable {m : Miner} {work : WorkTemplate} {works : List WorkTemplate}

/-- The dataset is kept; it is the right one, or was kept for the epoch before. -/
theorem fetch_cases (m : Miner) (work : WorkTemplate) :
    (m.fetch K work).1.cached = some (work.epoch, (m.fetch K work).2) ∧
      ((m.fetch K work).2 = work.dataset K ∨ m.cached = some (work.epoch, (m.fetch K work).2)) := by
  unfold Miner.fetch
  split
  · next epoch dataset hcached =>
    by_cases hepoch : epoch = work.epoch
    · rw [if_pos hepoch, ← hepoch]
      exact ⟨hcached, .inr hcached⟩
    · rw [if_neg hepoch]
      exact ⟨rfl, .inl rfl⟩
  · exact ⟨rfl, .inl rfl⟩

/-- The miner uses the dataset of some template of the same epoch that it got. -/
theorem exists_fetch (K : Crates) (works : List WorkTemplate) (work : WorkTemplate) :
    ∃ w ∈ works ++ [work],
      w.epoch = work.epoch ∧ ((Miner.after K works).fetch K work).2 = w.dataset K := by
  induction works using List.reverseRecOn generalizing work with
  | nil => exact ⟨work, List.mem_singleton_self work, rfl, rfl⟩
  | append_singleton works last ih =>
    have hafter : Miner.after K (works ++ [last]) = ((Miner.after K works).fetch K last).1 := by
      rw [Miner.after, List.foldl_append]
      rfl
    obtain ⟨hkept, -⟩ := fetch_cases (K := K) (Miner.after K works) last
    rcases (fetch_cases (K := K) (Miner.after K (works ++ [last])) work).2 with hnew | hcached
    · exact ⟨work, List.mem_append_right _ (List.mem_singleton_self work), rfl, hnew⟩
    · rw [hafter, hkept] at hcached
      obtain ⟨hepoch, hdataset⟩ := Prod.mk.inj (Option.some.inj hcached)
      obtain ⟨w, hw, hsame, hw'⟩ := ih last
      exact ⟨w, List.mem_append_left _ hw, hsame.trans hepoch, by
        rw [hafter, ← hdataset, hw']⟩

/-- Templates of one network have one dataset, since they are of epoch 0. -/
theorem HandedOut.dataset_eq (h : HandedOut K g work) : work.dataset K = epochZeroDataset K := by
  obtain ⟨node, text, now, hnode, hwork⟩ := h
  obtain ⟨n, t, l, hcan⟩ := (nodeInv hnode).chain.canonical
  exact (getWork_onTip (nodeInv hnode) hcan hwork).dataset

/-- The miner hashes as the node does. -/
theorem fetch_eq (hworks : ∀ w ∈ works, HandedOut K g w) (hwork : HandedOut K g work) :
    ((Miner.after K works).fetch K work).2 = work.dataset K := by
  obtain ⟨w, hw, -, hdataset⟩ := exists_fetch K works work
  rw [hdataset, hwork.dataset_eq]
  rcases List.mem_append.mp hw with hw | hw
  · exact (hworks w hw).dataset_eq
  · rw [List.mem_singleton.mp hw, hwork.dataset_eq]

/-- A solution of a template on the tip is accepted and becomes the tip. -/
theorem OnTip.submit_eq {n : UInt64} {t : Hash256} {l : BlockChain} {txs : List Transaction}
    (h : OnTip K g n t l txs work) {node : Node} (hc : ChainInv K g node.chain)
    (hcan : Canonical K g node.chain.state n t l)
    (hsigned : ∀ tx ∈ txs, tx.isSignatureValid K = true) {nonce : UInt64}
    (hsolved : work.Solved K nonce) (hnew : node.chain.state.blocks (work.hash K nonce) = none)
    (hdiff : n.toNat + 1 ≤ g.window.toNat → 1 ≤ g.initialDifficulty)
    (hexec : Executable K node.chain.state.getAccount txs) :
    (node.chain.submitBlock K (work.block.withNonce nonce)).result
        = .ok (.accepted (work.hash K nonce) (n + 1) false []) ∧
      Canonical K g (node.chain.submit K (work.block.withNonce nonce)).state (n + 1)
        (work.hash K nonce) ((work.hash K nonce, work.block.withNonce nonce) :: l) := by
  have hone : 1 ≤ (work.block.withNonce nonce).header.difficulty := by
    have hretarget : 1 ≤ retarget g (l.map Prod.snd) ↔ _ := one_le_retarget_iff
    rw [List.length_map, ← hcan.height] at hretarget
    exact h.difficulty ▸ hretarget.mpr hdiff
  have hok := h.blockOk hc.stored hcan hsigned hsolved
  have hnew' : node.chain.state.blocks (blockId K (work.block.withNonce nonce)) = none := by
    rw [← h.hash_eq]
    exact hnew
  obtain ⟨overlay, happ⟩ : ∃ overlay, applyBlock K g node.chain.state ∅
      (blockId K (work.block.withNonce nonce)) (work.block.withNonce nonce) = .ok overlay := by
    rw [applyBlock_ok_iff, applyTxs_ok_iff]
    rw [← h.transactions] at hexec
    exact hexec
  have hres := submitBlock_extension (b := work.block.withNonce nonce) hc hcan h.prevHash hnew' hok
    hone
  have hext := hcan.extend (b := work.block.withNonce nonce) hc h.prevHash hnew' hok hone happ
  have hheight : (work.block.withNonce nonce).header.height = n + 1 := h.height
  rw [happ] at hres
  rw [hres, h.hash_eq]
  rw [hheight] at hext ⊢
  exact ⟨rfl, hext⟩

/-- What the node answers to a solution of a template on its tip. -/
theorem OnTip.submitBlock_snd {n : UInt64} {t : Hash256} {l : BlockChain} {txs : List Transaction}
    (h : OnTip K g n t l txs work) {node : Node} (hc : ChainInv K g node.chain)
    (hcan : Canonical K g node.chain.state n t l)
    (hsigned : ∀ tx ∈ txs, tx.isSignatureValid K = true) {nonce : UInt64}
    (hsolved : work.Solved K nonce) (hnew : node.chain.state.blocks (work.hash K nonce) = none)
    (hdiff : n.toNat + 1 ≤ g.window.toNat → 1 ≤ g.initialDifficulty)
    (hexec : Executable K node.chain.state.getAccount txs) :
    (node.submitBlock K (work.block.withNonce nonce)).2 = .ok ⟨work.hash K nonce, n + 1⟩ := by
  obtain ⟨hres, -⟩ := h.submit_eq hc hcan hsigned hsolved hnew hdiff hexec
  have haccepted : (node.acceptAndBroadcast K (work.block.withNonce nonce)).2
      = .ok (.accepted (work.hash K nonce) (n + 1) false []) := by
    rw [acceptAndBroadcast_snd, hres]
  unfold Node.submitBlock
  generalize node.acceptAndBroadcast K (work.block.withNonce nonce) = answer at haccepted
  obtain ⟨node', res⟩ := answer
  cases haccepted
  rfl

/-- A template that is solved is accepted by the node it is from, as long as the tip is the
same: the node has the same branch and the same accounts then. -/
theorem solved_accepted {node : Node} (hnode : (nodeMachine K g).Reachable node)
    {text : Bytes} {now : UInt64} (hwork : (node.getWork K text now).2 = .ok work)
    (is : List NodeInput) {m : Node} (hm : m = (nodeMachine K g).run node (.getWork text now :: is))
    {n : UInt64} {t : Hash256} (htip : node.chain.state.tip = some (n, t))
    (htip' : m.chain.state.tip = some (n, t))
    (hexec : Executable K node.chain.state.getAccount (node.chain.state.mempool.map Prod.snd))
    {nonce : UInt64} (hsolved : work.Solved K nonce)
    (hnew : m.chain.state.blocks (work.hash K nonce) = none)
    (hdiff : n.toNat + 1 ≤ g.window.toNat → 1 ≤ g.initialDifficulty) :
    (m.submitBlock K (work.block.withNonce nonce)).2 = .ok ⟨work.hash K nonce, n + 1⟩ := by
  have hinv := nodeInv hnode
  obtain ⟨n', t', l, hcan⟩ := hinv.chain.canonical
  obtain ⟨rfl, rfl⟩ := Prod.mk.inj (Option.some.inj (hcan.tip.symm.trans htip))
  have hon := getWork_onTip hinv hcan hwork
  have hadv := advances_run hinv (.getWork text now :: is)
  rw [← hm] at hadv
  obtain ⟨hcan', haccount⟩ := hadv.same_tip hcan htip'
  exact hon.submitBlock_snd hadv.inv.chain hcan' hinv.pending_signed hsolved hnew hdiff
    (haccount ▸ hexec)

/-- **A mined block is accepted.** The miner has worked on other templates before, with the
dataset that it has kept; the node has gone on in the meantime, but its tip is the same. -/
theorem mined_block_accepted {node : Node} (hnode : (nodeMachine K g).Reachable node)
    {text : Bytes} {now : UInt64} (hwork : (node.getWork K text now).2 = .ok work)
    (hworks : ∀ w ∈ works, HandedOut K g w)
    (hs : (mining K work.block.header.bytesForPow work.target
      ((Miner.after K works).fetch K work).2 threads).Reach Mining.Relaxed s) (hend : s.Joined)
    (is : List NodeInput) {m : Node} (hm : m = (nodeMachine K g).run node (.getWork text now :: is))
    {n : UInt64} {t : Hash256} (htip : node.chain.state.tip = some (n, t))
    (htip' : m.chain.state.tip = some (n, t))
    (hexec : Executable K node.chain.state.getAccount (node.chain.state.mempool.map Prod.snd))
    (hnew : ∀ nonce, work.Solved K nonce → m.chain.state.blocks (work.hash K nonce) = none)
    (hdiff : n.toNat + 1 ≤ g.window.toNat → 1 ≤ g.initialDifficulty) :
    ∃ nonce, s.mined work.block = some (work.block.withNonce nonce) ∧
      (m.submitBlock K (work.block.withNonce nonce)).2 = .ok ⟨work.hash K nonce, n + 1⟩ := by
  obtain ⟨u, k, hresult, hhit, -⟩ := joined_result hs hend
  refine ⟨candidate threads u k, by rw [Mining.mined, hresult, Option.map_some], ?_⟩
  generalize candidate threads u k = nonce at hhit
  rw [fetch_eq hworks ⟨node, text, now, hnode, hwork⟩] at hhit
  have hsolved : work.Solved K nonce := hhit
  exact solved_accepted hnode hwork is hm htip htip' hexec hsolved (hnew nonce hsolved) hdiff

/-! ## A small search -/

/-- Every nonce is a solution under the small crates. -/
theorem hits_small (work : WorkTemplate) (htarget : work.target = targetForDifficulty 1)
    (dataset : Dataset) (nonce : UInt64) :
    hits smallCrates work.block.header.bytesForPow work.target dataset nonce = true := by
  have hhash : ondrisHash smallCrates work.block.header.bytesForPow nonce dataset = nonceId nonce :=
    id_small { work.block.header with nonce } dataset
  rw [hits, hhash, htarget]
  exact meetsTarget_nonceId nonce

/-- The first of several threads finds its first nonce before the others start. -/
def firstFinds (threads : ℕ) : List (MiningInput threads) :=
  List.replicate 4 (.thread (threadOf threads 0) false)

/-- The threads see it, and so does the main thread. -/
def othersSee (threads : ℕ) : List (MiningInput threads) :=
  (List.finRange (max threads 1)).flatMap (fun t => List.replicate 3 (.thread t true)) ++ [.main true]

theorem mine_block_ends_small : ((mining smallCrates (smallTemplate noTxs).block.header.bytesForPow
    (smallTemplate noTxs).target (epochZeroDataset smallCrates) 2).run (Mining.start 2)
      (firstFinds 2 ++ othersSee 2)).Joined := by
  refine (mine_block_ends (hits_small _ rfl _ 0) ?_ ?_ ?_ ?_ ?_).2
  · exact ⟨nofun, nofun, nofun, nofun, trivial⟩
  · decide
  · decide
  · decide
  · decide

/-- Two threads, of which the first one finds its first nonce. -/
theorem joined_pair (work : WorkTemplate) (htarget : work.target = targetForDifficulty 1)
    (dataset : Dataset) :
    (mining smallCrates work.block.header.bytesForPow work.target dataset 2).Follows Mining.Relaxed
        (Mining.start 2) (firstFinds 2 ++ othersSee 2) ∧
      ((mining smallCrates work.block.header.bytesForPow work.target dataset 2).run (Mining.start 2)
        (firstFinds 2 ++ othersSee 2)).Joined := by
  have hfollows : (mining smallCrates work.block.header.bytesForPow work.target dataset 2).Follows
      Mining.Relaxed (Mining.start 2) (firstFinds 2) := ⟨nofun, nofun, nofun, nofun, trivial⟩
  have hfound := (found_in_time (hits_small work htarget dataset 0) hfollows (by decide)).2
  exact joined_of_found hfollows hfound (by decide) (by decide) (by decide)

theorem mine_block_solves_small : ∃ nonce, ((mining smallCrates
    (smallTemplate orderedTxs).block.header.bytesForPow (smallTemplate orderedTxs).target
    (epochZeroDataset smallCrates) 2).run (Mining.start 2) (firstFinds 2 ++ othersSee 2)).mined
      (smallTemplate orderedTxs).block = some ((smallTemplate orderedTxs).block.withNonce nonce) := by
  obtain ⟨hfollows, hend⟩ := joined_pair (smallTemplate orderedTxs) rfl (epochZeroDataset smallCrates)
  obtain ⟨t, k, hmined, -⟩ := mine_block_solves (Machine.Reach.run (.init rfl) hfollows) hend
    (smallTemplate orderedTxs).block
  exact ⟨_, hmined⟩

/-- An empty template was handed out before. -/
theorem handedOut_empty : HandedOut smallCrates smallGenesis (smallTemplate noTxs) :=
  ⟨smallNode, minerText, 0, .init init_smallNode,
    getWork_small (nodeInv (.init init_smallNode)) rfl rfl⟩

/-- The miner, which has worked on the empty template, asks for work again, searches, and hands
the block in; another transaction has come in between. -/
theorem mined_block_accepted_ordered : ∃ nonce,
    (laterNode.submitBlock smallCrates ((smallTemplate orderedTxs).block.withNonce nonce)).2
      = .ok ⟨(smallTemplate orderedTxs).hash smallCrates nonce, 0 + 1⟩ := by
  have hworks : ∀ w ∈ [smallTemplate noTxs], HandedOut smallCrates smallGenesis w := by
    intro w hw
    rw [List.mem_singleton.mp hw]
    exact handedOut_empty
  obtain ⟨hfollows, hend⟩ := joined_pair (smallTemplate orderedTxs) rfl
    ((Miner.after smallCrates [smallTemplate noTxs]).fetch smallCrates (smallTemplate orderedTxs)).2
  obtain ⟨nonce, -, haccepted⟩ := mined_block_accepted (m := laterNode) (reachable_pairNode _ _)
    getWork_orderedNode hworks (Machine.Reach.run (.init rfl) hfollows) hend
    [.submitTx (freeTx 2)] rfl (tip_of_core_small core_orderedNode)
    (tip_of_core_small core_laterNode) executable_orderedNode
    (fun nonce _ => blocks_laterNode _ nonce) (fun _ => UInt64.le_refl 1)
  exact ⟨nonce, haccepted⟩

end Ondris
