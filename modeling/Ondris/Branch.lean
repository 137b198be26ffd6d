import Ondris.Lib.Lineage
import Ondris.Chain

/-!
# Branches of the block store

A branch is the lineage of a stored block, tip first, down to genesis. This
module says what a well-formed store holds and what the walks of `chain.rs`
return on it.

Results:
1. `WellStored.exists_branch`, `WellStored.height_eq`: every stored block has a
   branch, and its height is the number of blocks below it.
2. `expectedDifficultyAfter_eq`: the difficulty check of a block evaluates the
   retarget rule on its own branch.
3. `forkPaths_eq`: the fork paths are the two parts of the branches above their
   meeting point.
4. `checkBlock_eq_store_iff`: the checks before the first write accept exactly
   the blocks that are `Storable`.
-/

namespace Ondris

/-- The dataset of epoch 0. -/
def epochZeroDataset (K : Crates) : Dataset := Dataset.generate K 0 (epochSeed K none)

/-- The identifier of a block under the dataset of epoch 0. -/
def blockId (K : Crates) (b : Block) : Hash256 := b.header.id K (epochZeroDataset K)

/-- `Branch K g st h l`: `l` lists the blocks from `h` down to genesis. -/
abbrev Branch (K : Crates) (g : GenesisConfig) (st : ChainState) : Hash256 → BlockChain → Prop :=
  Lineage st.blocks (fun b => b.header.prevHash) (g.genesisHash K)

/-- The cumulative work of a branch. -/
def branchWork (l : BlockChain) : ℕ := (l.map fun p => blockWork p.2.header.difficulty).sum

/-- The retarget rule on the branch of a parent, parent first: the initial
difficulty while the next height is within the window, then the parent's
difficulty corrected by the time the last window of this branch took. -/
def retarget (g : GenesisConfig) (branch : List Block) : UInt64 :=
  match branch.head?, branch[g.window.toNat]? with
  | some parent, some windowStart =>
    nextDifficulty parent.header.difficulty
      (satSub parent.header.timestamp windowStart.header.timestamp) g.targetBlockTimeSecs g.window
  | _, _ => g.initialDifficulty

/-- The block `b` under the hash `h` is well formed on top of `branch`, the
blocks from its parent down to genesis. -/
structure BlockOk (K : Crates) (g : GenesisConfig) (branch : List Block) (h : Hash256)
    (b : Block) : Prop where
  id : blockId K b = h
  root : b.header.txRoot = b.computeTxRoot K
  target : meetsTarget h (targetForDifficulty b.header.difficulty) = true
  signed : ∀ tx ∈ b.transactions.val, tx.isSignatureValid K = true
  height : b.header.height.toNat = branch.length
  height_lt : branch.length < epochLength.toNat
  difficulty : b.header.difficulty = retarget g branch

/-- What a well-formed store holds: genesis, other blocks that are well formed
on their own branch, and the cumulative work of every branch. -/
structure WellStored (K : Crates) (g : GenesisConfig) (st : ChainState) : Prop where
  genesis : st.blocks (g.genesisHash K) = some g.genesisBlock
  stored : ∀ h b, st.blocks h = some b → h ≠ g.genesisHash K →
    ∃ l, Branch K g st b.header.prevHash l ∧ BlockOk K g (l.map Prod.snd) h b
  work : ∀ h l, Branch K g st h l → st.chainwork h = some (branchWork l)
  workOnly : ∀ h, (st.chainwork h).isSome → (st.blocks h).isSome

/-- A block that `submit_block` stores: unknown, its parent stored, and well
formed on its parent's branch. -/
def Storable (K : Crates) (g : GenesisConfig) (st : ChainState) (b : Block) : Prop :=
  st.blocks (blockId K b) = none ∧
    ∃ l, Branch K g st b.header.prevHash l ∧ BlockOk K g (l.map Prod.snd) (blockId K b) b

variable {K : Crates} {g : GenesisConfig} {st : ChainState}

theorem BlockOk.low {l : List Block} {k : Hash256} {b : Block} (h : BlockOk K g l k b) :
    b.header.height.toNat < epochLength.toNat := by
  rw [h.height]
  exact h.height_lt

theorem BlockOk.height_ne_zero {l : BlockChain} {k : Hash256} {b : Block}
    (h : BlockOk K g (l.map Prod.snd) k b) (hne : l ≠ []) : b.header.height ≠ 0 := by
  intro heq
  have hlen := h.height
  rw [heq, List.length_map] at hlen
  exact hne (List.length_eq_zero_iff.mp hlen.symm)

@[simp] theorem branchWork_cons (p : Hash256 × Block) (l : BlockChain) :
    branchWork (p :: l) = blockWork p.2.header.difficulty + branchWork l := by
  simp [branchWork]

theorem branchWork_lt_cons {h : Hash256} {b : Block} (hdiff : 1 ≤ b.header.difficulty)
    (l : BlockChain) : branchWork l < branchWork ((h, b) :: l) := by
  have hpos : 1 ≤ b.header.difficulty.toNat := UInt64.le_iff_toNat_le.mp hdiff
  rw [branchWork_cons]
  exact Nat.lt_add_of_pos_left hpos

/-! ## Heights -/

namespace WellStored

theorem genesis_branch (hs : WellStored K g st) :
    Branch K g st (g.genesisHash K) [(g.genesisHash K, g.genesisBlock)] :=
  .root hs.genesis

theorem exists_branch (hs : WellStored K g st) {h : Hash256} {b : Block}
    (hb : st.blocks h = some b) : ∃ l, Branch K g st h ((h, b) :: l) := by
  by_cases hne : h = g.genesisHash K
  · subst hne
    have hg := hs.genesis
    rw [hb] at hg
    cases hg
    exact ⟨[], .root hb⟩
  · obtain ⟨l, hl, -⟩ := hs.stored h b hb hne
    exact ⟨l, .step hne hb hl⟩

/-- A branch other than that of genesis continues with the parent's branch, on
which its first block is well formed. -/
theorem branch_cons (hs : WellStored K g st) {h : Hash256} {b : Block} {l : BlockChain}
    (hl : Branch K g st h ((h, b) :: l)) :
    (h = g.genesisHash K ∧ b = g.genesisBlock ∧ l = []) ∨
    (h ≠ g.genesisHash K ∧ Branch K g st b.header.prevHash l ∧
      BlockOk K g (l.map Prod.snd) h b) := by
  by_cases hne : h = g.genesisHash K
  · subst hne
    obtain ⟨n, hn, heq⟩ := hl.root_eq
    simp only [List.cons.injEq, Prod.mk.injEq, true_and] at heq
    obtain ⟨rfl, rfl⟩ := heq
    have hg := hs.genesis
    rw [hn] at hg
    cases hg
    exact .inl ⟨rfl, rfl, rfl⟩
  · obtain ⟨hb, ht⟩ := hl.tail hne
    obtain ⟨l', hl', hok⟩ := hs.stored h b hb hne
    rw [hl'.unique ht] at hok
    exact .inr ⟨hne, ht, hok⟩

/-- The height of a stored block is the number of blocks below it. -/
theorem height_eq (hs : WellStored K g st) {h : Hash256} {b : Block} {l : BlockChain}
    (hl : Branch K g st h ((h, b) :: l)) : b.header.height.toNat = l.length := by
  rcases hs.branch_cons hl with ⟨-, rfl, rfl⟩ | ⟨-, -, hok⟩
  · rfl
  · simpa using hok.height

/-- `height_eq` with the key left open. -/
theorem height_of_branch (hs : WellStored K g st) {h : Hash256} {q : Hash256 × Block}
    {l : BlockChain} (hl : Branch K g st h (q :: l)) : q.2.header.height.toNat = l.length := by
  obtain ⟨b, t, -, heq⟩ := hl.head
  simp only [List.cons.injEq] at heq
  obtain ⟨rfl, -⟩ := heq
  exact hs.height_eq hl

theorem length_le (hs : WellStored K g st) {h : Hash256} {l : BlockChain}
    (hl : Branch K g st h l) : l.length ≤ epochLength.toNat := by
  obtain ⟨b, t, -, rfl⟩ := hl.head
  rcases hs.branch_cons hl with ⟨-, -, rfl⟩ | ⟨-, -, hok⟩
  · simp [epochLength]
  · have hlt := hok.height_lt
    simp only [List.length_map] at hlt
    simpa using hlt

theorem genesis_prefix (hs : WellStored K g st) {h : Hash256} {l : BlockChain}
    (hl : Branch K g st h l) : ∃ t, l = t ++ [(g.genesisHash K, g.genesisBlock)] := by
  obtain ⟨n, hn⟩ := hl.root_mem
  obtain ⟨pre, t, rfl, ht⟩ := hl.of_mem hn
  obtain ⟨m, hm, heq⟩ := ht.root_eq
  have hg := hs.genesis
  rw [hm] at hg
  cases hg
  exact ⟨pre, by rw [heq]⟩

end WellStored

/-- Two neighbours of a branch: the second is the parent of the first. -/
theorem Branch.next {h : Hash256} {p q : Hash256 × Block} {l : BlockChain}
    (hl : Branch K g st h (p :: q :: l)) :
    h = p.1 ∧ st.blocks p.1 = some p.2 ∧ p.2.header.prevHash = q.1 ∧
      st.blocks q.1 = some q.2 ∧ Branch K g st q.1 (q :: l) := by
  obtain ⟨b, t, hb, heq⟩ := hl.head
  simp only [List.cons.injEq] at heq
  obtain ⟨rfl, rfl⟩ := heq
  have hne : h ≠ g.genesisHash K := by
    rintro rfl
    obtain ⟨_, _, heq⟩ := hl.root_eq
    simp at heq
  have ht := (hl.tail hne).2
  obtain ⟨c, t', hc, heq⟩ := ht.head
  simp only [List.cons.injEq] at heq
  obtain ⟨rfl, -⟩ := heq
  exact ⟨rfl, hb, rfl, hc, ht⟩

/-- Transactions on a stored branch are signed. -/
theorem Branch.signed (hs : WellStored K g st) {h : Hash256} {l : BlockChain}
    (hl : Branch K g st h l) {p : Hash256 × Block} (hp : p ∈ l) {tx : Transaction}
    (htx : tx ∈ p.2.transactions.val) : tx.isSignatureValid K = true := by
  have hget := hl.mem_get hp
  by_cases hgen : p.1 = g.genesisHash K
  · rw [hgen, hs.genesis] at hget
    rw [← Option.some.inj hget] at htx
    exact absurd htx (List.not_mem_nil)
  · obtain ⟨m, -, hok⟩ := hs.stored _ _ hget hgen
    exact hok.signed tx htx

/-! ## Walks -/

/-- Walking back along `prev_hash` reads the branch. -/
theorem blockAncestor_eq {h : Hash256} {b : Block} {l : BlockChain}
    (hl : Branch K g st h ((h, b) :: l)) (depth : ℕ) (hd : depth ≤ l.length) :
    blockAncestor st b depth = (((h, b) :: l).map Prod.snd)[depth]? := by
  induction depth generalizing h b l with
  | zero => rfl
  | succ depth ih =>
    cases l with
    | nil => simp at hd
    | cons q l =>
      obtain ⟨-, -, hprev, hq, hbr⟩ := hl.next
      have hget : st.getBlock b.header.prevHash = some q.2 := by
        simp only at hprev
        rw [ChainState.getBlock, hprev, hq]
      simp only [List.length_cons] at hd
      simp only [blockAncestor, hget]
      rw [ih hbr (by omega)]
      simp

theorem retarget_of_le {g : GenesisConfig} {branch : List Block}
    (h : branch.length ≤ g.window.toNat) : retarget g branch = g.initialDifficulty := by
  have hnone : branch[g.window.toNat]? = none := List.getElem?_eq_none h
  rw [retarget, hnone]
  cases branch.head? <;> rfl

/-- The difficulty check reads the retarget rule off the parent's branch; the
missing-ancestor error does not occur. -/
theorem expectedDifficultyAfter_eq (hs : WellStored K g st) {h : Hash256} {b : Block}
    {l : BlockChain} (hl : Branch K g st h ((h, b) :: l)) :
    expectedDifficultyAfter g st b = .ok (retarget g (((h, b) :: l).map Prod.snd)) := by
  have hheight := hs.height_eq hl
  have hlen := hs.length_le hl
  have hepoch : epochLength.toNat = 2048 := rfl
  simp only [List.length_cons] at hlen
  have hnext : (b.header.height + 1).toNat = l.length + 1 := by
    rw [toNat_add_one_of_lt (by omega), hheight]
  unfold expectedDifficultyAfter
  simp only [UInt64.le_iff_toNat_le, hnext]
  split
  · next hle =>
    rw [retarget_of_le]
    simpa using hle
  · next hle =>
    have hanc := blockAncestor_eq hl g.window.toNat (by omega)
    have hlt : g.window.toNat < (((h, b) :: l).map Prod.snd).length := by
      simp only [List.length_map, List.length_cons]
      omega
    rw [List.getElem?_eq_getElem hlt] at hanc
    simp only [hanc, retarget, List.getElem?_eq_getElem hlt]
    rfl

/-! ## Fork paths -/

/-- The walk down to a height records what lies above it. -/
theorem descend_eq (hs : WellStored K g st) {pre rest t : BlockChain} {h : Hash256}
    {cur p : Hash256 × Block} (hl : Branch K g st h (cur :: t))
    (heq : cur :: t = pre ++ p :: rest) (floor : UInt64) (hstop : rest.length ≤ floor.toNat)
    (hgo : pre = [] ∨ floor.toNat ≤ rest.length) (fuel : ℕ) (hfuel : pre.length ≤ fuel)
    (path : BlockChain) : descend st floor fuel cur path = .ok (p, path ++ pre) := by
  have hcur : cur.2.header.height.toNat = t.length := by
    obtain ⟨b, t', -, hb⟩ := hl.head
    cases hb
    exact hs.height_eq hl
  induction pre generalizing h cur t fuel path with
  | nil =>
    simp only [List.nil_append, List.cons.injEq] at heq
    obtain ⟨rfl, rfl⟩ := heq
    have hnot : ¬ floor < cur.2.header.height := by
      rw [UInt64.lt_iff_toNat_lt, hcur]
      omega
    unfold descend
    rw [if_neg hnot, List.append_nil]
  | cons q pre ih =>
    simp only [List.cons_append, List.cons.injEq] at heq
    obtain ⟨rfl, rfl⟩ := heq
    -- one more block above the floor: its parent is the next of the branch
    have hfloor : floor.toNat ≤ rest.length := hgo.resolve_left (by simp)
    have habove : floor < cur.2.header.height := by
      rw [UInt64.lt_iff_toNat_lt, hcur, List.length_append, List.length_cons]
      omega
    obtain ⟨r, t, hr⟩ : ∃ r t, pre ++ p :: rest = r :: t := by
      cases pre <;> simp
    rw [hr] at hl hcur
    obtain ⟨-, -, hprev, hget, hbr⟩ := hl.next
    cases fuel with
    | zero => simp at hfuel
    | succ fuel =>
      have hfuel' : pre.length ≤ fuel := by simpa using hfuel
      have hrheight : r.2.header.height.toNat = t.length := hs.height_eq hbr
      have hread : st.getBlock r.1 = some r.2 := hget
      unfold descend
      simp only [if_pos habove, hprev, hread]
      rw [ih hbr hr.symm (.inr hfloor) _ hfuel' _ hrheight, List.append_assoc]
      rfl

/-- The joint walk of two branches of one height ends where they meet. -/
theorem descendBoth_eq {a b c t t' : BlockChain} {h h' : Hash256} {cur cur' : Hash256 × Block}
    (hl : Branch K g st h (cur :: t)) (hl' : Branch K g st h' (cur' :: t'))
    (ha : cur :: t = a ++ c) (hb : cur' :: t' = b ++ c) (hc : c ≠ [])
    (hlen : a.length = b.length) (hdis : ∀ k ∈ a.map Prod.fst, k ∉ b.map Prod.fst)
    (fuel : ℕ) (hfuel : a.length ≤ fuel) (undo apply : BlockChain) :
    descendBoth st fuel cur cur' undo apply = .ok (undo ++ a, apply ++ b) := by
  induction a generalizing b h h' cur cur' t t' fuel undo apply with
  | nil =>
    obtain rfl : b = [] := List.length_eq_zero_iff.mp hlen.symm
    simp only [List.nil_append] at ha hb
    obtain ⟨rfl, -⟩ := List.cons.inj (ha.trans hb.symm)
    unfold descendBoth
    rw [if_pos rfl, List.append_nil, List.append_nil]
  | cons q a ih =>
    cases b with
    | nil => simp at hlen
    | cons q' b =>
      simp only [List.cons_append, List.cons.injEq] at ha hb
      obtain ⟨rfl, rfl⟩ := ha
      obtain ⟨rfl, rfl⟩ := hb
      -- above the common part the two heads differ, so both step down
      have hne : cur.1 ≠ cur'.1 := fun heq => hdis cur.1 (by simp) (by simp [heq])
      obtain ⟨r, s, hr⟩ : ∃ r s, a ++ c = r :: s := by
        cases a with
        | nil => exact List.exists_cons_of_ne_nil hc
        | cons x a => exact ⟨x, a ++ c, rfl⟩
      obtain ⟨r', s', hr'⟩ : ∃ r s, b ++ c = r :: s := by
        cases b with
        | nil => exact List.exists_cons_of_ne_nil hc
        | cons x b => exact ⟨x, b ++ c, rfl⟩
      rw [hr] at hl
      rw [hr'] at hl'
      obtain ⟨-, -, hprev, hget, hbr⟩ := hl.next
      obtain ⟨-, -, hprev', hget', hbr'⟩ := hl'.next
      cases fuel with
      | zero => simp at hfuel
      | succ fuel =>
        have hread : st.getBlock r.1 = some r.2 := hget
        have hread' : st.getBlock r'.1 = some r'.2 := hget'
        unfold descendBoth
        simp only [if_neg hne, hprev, hprev', hread, hread']
        rw [ih hbr hbr' hr.symm hr'.symm (by simpa using hlen)
          (fun k hk hb => hdis k (by simp [hk]) (by simp [hb])) _ (by simpa using hfuel)]
        simp

/-- Two branches part: `a` and `b` are their own parts, `c` is the common one. -/
structure Fork (lo ln a b c : BlockChain) : Prop where
  old : lo = a ++ c
  new : ln = b ++ c
  common : c ≠ []
  disjoint : ∀ k ∈ a.map Prod.fst, k ∉ b.map Prod.fst

/-- Two branches part in one way only. -/
theorem Fork.unique {lo ln a b c a' b' c' : BlockChain} (hf : Fork lo ln a b c)
    (hf' : Fork lo ln a' b' c') : a = a' ∧ b = b' ∧ c = c' := by
  -- if one pair of parts were longer, its lower end would be common to both
  have hlong : ∀ {a b c a' b' c' : BlockChain}, Fork lo ln a b c → Fork lo ln a' b' c' →
      a.length ≤ a'.length → a' = a ∧ b' = b ∧ c' = c := by
    intro a b c a' b' c' hf hf' hle
    have hold : a' ++ c' = a ++ c := hf'.old.symm.trans hf.old
    obtain ⟨d, rfl, hcd⟩ : ∃ d, a' = a ++ d ∧ c = d ++ c' := by
      rcases List.append_eq_append_iff.mp hold.symm with ⟨d, ha, hc⟩ | ⟨d, ha, hc⟩
      · exact ⟨d, ha, hc⟩
      · have hd : d = [] := by
          have hlen := congrArg List.length ha
          rw [List.length_append] at hlen
          exact List.length_eq_zero_iff.mp (by omega)
        subst hd
        exact ⟨[], by simpa using ha.symm, by simpa using hc.symm⟩
    have hnew : b' ++ c' = b ++ d ++ c' := by
      rw [List.append_assoc, ← hcd, ← hf.new, hf'.new]
    have hb : b' = b ++ d := List.append_cancel_right hnew
    have hd : d = [] := by
      by_contra hd
      obtain ⟨q, d, rfl⟩ := List.exists_cons_of_ne_nil hd
      exact hf'.disjoint q.1 (by simp) (by simp [hb])
    subst hd
    exact ⟨List.append_nil _, by rw [hb, List.append_nil], hcd.symm⟩
  rcases Nat.le_total a.length a'.length with hle | hle
  · obtain ⟨ha, hb, hc⟩ := hlong hf hf' hle
    exact ⟨ha.symm, hb.symm, hc.symm⟩
  · exact hlong hf' hf hle

/-- The walk down from the top of `a ++ c` to a height that `c` reaches stays in `a`. -/
theorem descend_part (hs : WellStored K g st) {h : Hash256} {x : Block} {a c : BlockChain}
    (hl : Branch K g st h (a ++ c)) (hx : st.blocks h = some x) (hc : c ≠ []) (floor : UInt64)
    (hfloor : c.length ≤ floor.toNat + 1) (fuel : ℕ) (hfuel : a.length ≤ fuel) :
    ∃ a₁ a₂ p rest, a = a₁ ++ a₂ ∧ a₂ ++ c = p :: rest ∧
      a₁.length = a.length + c.length - (floor.toNat + 1) ∧ Branch K g st p.1 (p :: rest) ∧
      p.2.header.height.toNat = rest.length ∧ descend st floor fuel (h, x) [] = .ok (p, a₁) := by
  obtain ⟨a₁, a₂, rfl, hlen₁⟩ : ∃ a₁ a₂, a = a₁ ++ a₂ ∧
      a₁.length = a.length + c.length - (floor.toNat + 1) :=
    ⟨a.take (a.length + c.length - (floor.toNat + 1)),
      a.drop (a.length + c.length - (floor.toNat + 1)), (List.take_append_drop _ _).symm,
      List.length_take_of_le (by omega)⟩
  obtain ⟨p, rest, hp⟩ : ∃ p rest, a₂ ++ c = p :: rest :=
    List.exists_cons_of_ne_nil (by simp [hc])
  obtain ⟨x', s, hx', hhead⟩ := hl.head
  obtain rfl : x = x' := Option.some.inj (hx.symm.trans hx')
  have hall : (h, x) :: s = a₁ ++ p :: rest := by
    rw [← hhead, List.append_assoc, hp]
  rw [hhead] at hl
  have hbranch : Branch K g st p.1 (p :: rest) := by
    rw [hall] at hl
    exact hl.of_append
  have hplen := congrArg List.length hp
  simp only [List.length_append, List.length_cons] at hlen₁ hplen hfuel
  refine ⟨a₁, a₂, p, rest, rfl, hp, ?_, hbranch, hs.height_eq hbranch, ?_⟩
  · rw [List.length_append]
    exact hlen₁
  · have hgo : a₁ = [] ∨ floor.toNat ≤ rest.length := by
      rcases Nat.eq_zero_or_pos a₁.length with hzero | hpos
      · exact .inl (List.length_eq_zero_iff.mp hzero)
      · exact .inr (by omega)
    exact descend_eq hs hl hall floor (by omega) hgo fuel (by omega) []

/-- The fork paths of two stored blocks are their own parts of the branches, the
second one reversed. -/
theorem forkPaths_eq (hs : WellStored K g st) {old new : Hash256} {lo ln : BlockChain}
    (ho : Branch K g st old lo) (hn : Branch K g st new ln) :
    ∃ a b c, Fork lo ln a b c ∧ forkPaths st old new = .ok (a, b.reverse) := by
  obtain ⟨a, b, c, rfl, rfl, hc, hdis⟩ := ho.meet hn
  refine ⟨a, b, c, ⟨rfl, rfl, hc, hdis⟩, ?_⟩
  obtain ⟨ob, s, hob, hold⟩ := ho.head
  obtain ⟨nb, t, hnb, hnew⟩ := hn.head
  have hoh : ob.header.height.toNat + 1 = a.length + c.length := by
    rw [← List.length_append, hold, List.length_cons, hs.height_eq (hold ▸ ho)]
  have hnh : nb.header.height.toNat + 1 = b.length + c.length := by
    rw [← List.length_append, hnew, List.length_cons, hs.height_eq (hnew ▸ hn)]
  have hpos := List.length_pos_iff.mpr hc
  -- the longer branch is cut at the height of the shorter one
  obtain ⟨a₁, a₂, p, rest, rfl, hp, ha₁, hpbr, hph, hcutOld⟩ := descend_part hs ho hob hc
    nb.header.height (by omega) (ob.header.height.toNat + nb.header.height.toNat) (by omega)
  have hplen := congrArg List.length hp
  simp only [List.length_append, List.length_cons] at ha₁ hoh hplen
  obtain ⟨b₁, b₂, q, rest', rfl, hq, hb₁, hqbr, -, hcutNew⟩ := descend_part hs hn hnb hc
    p.2.header.height (by omega) (ob.header.height.toNat + nb.header.height.toNat) (by omega)
  simp only [List.length_append] at hb₁ hnh
  -- and both are walked down together
  have hjoint := descendBoth_eq hpbr hqbr hp.symm hq.symm hc (by omega)
    (fun k hk hb => hdis k (by simp [List.mem_map.mp hk]) (by simp [List.mem_map.mp hb]))
    (ob.header.height.toNat + nb.header.height.toNat) (by omega) a₁ b₁
  simp only [forkPaths, ChainState.getBlock, hob, hnb, hcutOld, hcutNew, hjoint]

/-! ## The checks before the first write -/

theorem hasBlock_eq_false {st : ChainState} {h : Hash256} :
    st.hasBlock h = false ↔ st.blocks h = none := by
  rw [ChainState.hasBlock, Option.isSome_eq_false_iff, Option.isNone_iff_eq_none]

/-- The checks of `submit_block` that a block passes, with the parent found. -/
structure Passes (K : Crates) (g : GenesisConfig) (st : ChainState) (dataset : Dataset) (b : Block)
    (parent : Block) (parentWork : ℕ) : Prop where
  unknown : st.hasBlock (b.header.id K dataset) = false
  root : b.header.txRoot = b.computeTxRoot K
  target : meetsTarget (b.header.id K dataset) (targetForDifficulty b.header.difficulty) = true
  signed : b.transactions.val.all (·.isSignatureValid K) = true
  found : st.getBlock b.header.prevHash = some parent
  height : parent.header.height + 1 = b.header.height
  difficulty : expectedDifficultyAfter g st parent = .ok b.header.difficulty
  work : st.getChainwork b.header.prevHash = some parentWork

theorem Passes.checkBlock {dataset : Dataset} {b parent : Block} {parentWork : ℕ}
    (h : Passes K g st dataset b parent parentWork) : Ondris.checkBlock K g st dataset b
      = .ok (.store (b.header.id K dataset) (parentWork + blockWork b.header.difficulty)) := by
  simp only [Ondris.checkBlock, h.unknown, h.root.symm, h.target, h.signed, h.found, h.height,
    h.difficulty, h.work]
  simp

theorem passes_of_store {dataset : Dataset} {b : Block} {hash : Hash256} {work : ℕ}
    (h : checkBlock K g st dataset b = .ok (.store hash work)) :
    ∃ parent parentWork, Passes K g st dataset b parent parentWork ∧ hash = b.header.id K dataset ∧
      work = parentWork + blockWork b.header.difficulty := by
  unfold checkBlock at h
  simp only at h
  -- one split for each check, in the order of the source
  split at h
  · cases h
  next hknown =>
  split at h
  · cases h
  next hroot =>
  split at h
  · cases h
  next htarget =>
  split at h
  · cases h
  next hsigned =>
  split at h
  · cases h
  next parent hparent =>
  split at h
  · cases h
  next hheight =>
  split at h
  · cases h
  next expected hexpected =>
  split at h
  · cases h
  next hdiff =>
  split at h
  · cases h
  next parentWork hwork =>
  obtain ⟨rfl, rfl⟩ := Checked.store.inj (Except.ok.inj h)
  obtain rfl : b.header.difficulty = expected := by simpa using hdiff
  exact ⟨parent, parentWork, ⟨by simpa using hknown, by simpa using hroot, by simpa using htarget,
    by simpa using hsigned, hparent, by simpa using hheight, hexpected, hwork⟩, rfl, rfl⟩

/-- A block that passes is well formed on the branch of its parent. -/
theorem Passes.blockOk (hs : WellStored K g st) {b parent : Block} {parentWork : ℕ}
    (h : Passes K g st (epochZeroDataset K) b parent parentWork) {l : BlockChain}
    (hl : Branch K g st b.header.prevHash ((b.header.prevHash, parent) :: l))
    (hlt : b.header.height.toNat < epochLength.toNat) :
    BlockOk K g (((b.header.prevHash, parent) :: l).map Prod.snd) (blockId K b) b := by
  have hlen := hs.length_le hl
  have hparent := hs.height_eq hl
  have hepoch : epochLength.toNat = 2048 := rfl
  rw [List.length_cons] at hlen
  have hheight : b.header.height.toNat = l.length + 1 := by
    rw [← h.height, toNat_add_one_of_lt (by omega), hparent]
  have hdiff := h.difficulty
  rw [expectedDifficultyAfter_eq hs hl] at hdiff
  exact
    { id := rfl
      root := h.root
      target := h.target
      signed := List.all_eq_true.mp h.signed
      height := by rw [hheight, List.length_map, List.length_cons]
      height_lt := by rwa [List.length_map, List.length_cons, ← hheight]
      difficulty := (Except.ok.inj hdiff).symm }

/-- A well-formed unknown block on the branch of its parent passes. -/
theorem BlockOk.passes (hs : WellStored K g st) {b parent : Block} {l : BlockChain}
    (hl : Branch K g st b.header.prevHash ((b.header.prevHash, parent) :: l))
    (hok : BlockOk K g (((b.header.prevHash, parent) :: l).map Prod.snd) (blockId K b) b)
    (hnew : st.blocks (blockId K b) = none) : Passes K g st (epochZeroDataset K) b parent
      (branchWork ((b.header.prevHash, parent) :: l)) := by
  have hparent := hs.height_eq hl
  have hlen := hok.height_lt
  have hheight := hok.height
  have hepoch : epochLength.toNat = 2048 := rfl
  rw [List.length_map, List.length_cons] at hlen hheight
  have hfound : st.getBlock b.header.prevHash = some parent := hl.mem_get List.mem_cons_self
  refine ⟨hasBlock_eq_false.mpr hnew, hok.root, hok.target, List.all_eq_true.mpr hok.signed, hfound,
    ?_, ?_, hs.work _ _ hl⟩
  · rw [← UInt64.toNat_inj, toNat_add_one_of_lt (by omega), hparent, hheight]
  · rw [expectedDifficultyAfter_eq hs hl, hok.difficulty]

/-- The checks accept exactly the storable blocks, and the work recorded is that
of the block's branch. -/
theorem checkBlock_eq_store_iff (hs : WellStored K g st) {b : Block} {h : Hash256} {w : ℕ}
    (hlt : b.header.height.toNat < epochLength.toNat) :
    checkBlock K g st (epochZeroDataset K) b = .ok (.store h w) ↔
      h = blockId K b ∧ st.blocks h = none ∧
        ∃ l, Branch K g st b.header.prevHash l ∧ BlockOk K g (l.map Prod.snd) h b ∧
          w = branchWork l + blockWork b.header.difficulty := by
  constructor
  · intro hcheck
    obtain ⟨parent, parentWork, hpass, rfl, rfl⟩ := passes_of_store hcheck
    obtain ⟨l, hl⟩ := hs.exists_branch hpass.found
    have hwork : some (branchWork _) = some parentWork := (hs.work _ _ hl).symm.trans hpass.work
    refine ⟨rfl, hasBlock_eq_false.mp hpass.unknown, _, hl, hpass.blockOk hs hl hlt, ?_⟩
    rw [Option.some.inj hwork]
  · rintro ⟨rfl, hnew, l, hl, hok, rfl⟩
    obtain ⟨parent, t, -, rfl⟩ := hl.head
    exact (hok.passes hs hl hnew).checkBlock

end Ondris
