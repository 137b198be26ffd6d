import Ondris.Consensus

/-!
# Convergence of two chains

Which blocks a chain stores depends only on the set of blocks submitted, as long
as parents come first; and the canonical chain, its index and its accounts only
depend on the store when one valid branch is heaviest.

Results:
1. `branch_iff_admitted`: after all blocks are submitted, the stored branches are
   the well-formed branches of the set.
2. `convergence`: two chains that see the same blocks in different orders agree.
-/

namespace Ondris

open Ledger

/-! ## Definitions -/

/-- Parents come first: no block is followed by its parent. Identifiers exist for
the heights of epoch 0 only. -/
def ParentFirst (K : Crates) (S : List Block) : Prop :=
  S.Pairwise fun a b => b.header.height.toNat < epochLength.toNat → a.header.prevHash ≠ blockId K b

/-- No two blocks share an identifier. -/
def DistinctIds (K : Crates) (S : List Block) : Prop :=
  S.Pairwise fun a b => a.header.height.toNat < epochLength.toNat →
    b.header.height.toNat < epochLength.toNat → blockId K a ≠ blockId K b

/-- `l` is a well-formed branch of blocks of `S` down to genesis. -/
inductive Admitted (K : Crates) (g : GenesisConfig) (S : List Block) : Hash256 → BlockChain → Prop
  | genesis : Admitted K g S (g.genesisHash K) [(g.genesisHash K, g.genesisBlock)]
  | block {b : Block} {l : BlockChain} : b ∈ S → blockId K b ≠ g.genesisHash K →
      Admitted K g S b.header.prevHash l → BlockOk K g (l.map Prod.snd) (blockId K b) b →
      Admitted K g S (blockId K b) ((blockId K b, b) :: l)

/-- A stored branch that replays. -/
def ValidBranch (K : Crates) (g : GenesisConfig) (st : ChainState) (l : BlockChain) : Prop :=
  (∃ h, Branch K g st h l) ∧ (branchLedger K g l).isSome

/-- Exactly one valid branch has maximal cumulative work. -/
def UniqueHeaviest (K : Crates) (g : GenesisConfig) (st : ChainState) : Prop :=
  ∃! l, ValidBranch K g st l ∧ ∀ l', ValidBranch K g st l' → branchWork l' ≤ branchWork l

variable {K : Crates} {g : GenesisConfig} {c : Chain} {S T : List Block}

/-! ## The store as a function of the blocks -/

theorem Admitted.mono (hsub : ∀ b ∈ S, b ∈ T) {h : Hash256} {l : BlockChain}
    (hl : Admitted K g S h l) : Admitted K g T h l := by
  induction hl with
  | genesis => exact .genesis
  | block hb hne _ hok ih => exact .block (hsub _ hb) hne ih hok

/-- The first block of an admitted branch. -/
theorem Admitted.head {h : Hash256} {l : BlockChain} (hl : Admitted K g S h l) :
    (h = g.genesisHash K ∧ l = [(g.genesisHash K, g.genesisBlock)]) ∨
      ∃ b t, b ∈ S ∧ h = blockId K b ∧ h ≠ g.genesisHash K ∧ l = (h, b) :: t ∧
        Admitted K g S b.header.prevHash t ∧ BlockOk K g (t.map Prod.snd) h b := by
  cases hl with
  | genesis => exact .inl ⟨rfl, rfl⟩
  | @block b l hb hne hl hok => exact .inr ⟨b, l, hb, rfl, hne, rfl, hl, hok⟩

/-- A stored branch is admitted when every stored block was submitted. -/
theorem Branch.admitted {st : ChainState} (hs : WellStored K g st)
    (hsub : ∀ h b, st.blocks h = some b → h ≠ g.genesisHash K → b ∈ S) {h : Hash256}
    {l : BlockChain} (hl : Branch K g st h l) : Admitted K g S h l := by
  induction hl with
  | root hb =>
    rw [hs.genesis] at hb
    cases hb
    exact .genesis
  | @step h b l hne hb hl ih =>
    obtain ⟨l', hl', hok⟩ := hs.stored h b hb hne
    obtain rfl := hl.unique hl'
    have hmem := hsub h b hb hne
    obtain rfl := hok.id
    exact .block hmem hne ih hok

/-- What a run over the first part `P` of the blocks has stored. -/
structure StoredUpTo (K : Crates) (g : GenesisConfig) (S P : List Block) (c : Chain) : Prop where
  inv : ChainInv K g c
  sound : ∀ h b, c.state.blocks h = some b → h ≠ g.genesisHash K → b ∈ P
  complete : ∀ b ∈ P, ∀ l, Admitted K g S (blockId K b) ((blockId K b, b) :: l) →
    Branch K g c.state (blockId K b) ((blockId K b, b) :: l)

/-- The parent of a block comes before it: it is neither later nor the block
itself, which would be its own height below itself. -/
theorem Admitted.parent_mem {P R : List Block} {b : Block} (hfirst : ParentFirst K (P ++ b :: R))
    {l : BlockChain} (hl : Admitted K g (P ++ b :: R) b.header.prevHash l)
    (hok : BlockOk K g (l.map Prod.snd) (blockId K b) b) :
    (b.header.prevHash = g.genesisHash K ∧ l = [(g.genesisHash K, g.genesisBlock)]) ∨
      ∃ q t, q ∈ P ∧ b.header.prevHash = blockId K q ∧ l = (blockId K q, q) :: t := by
  rcases hl.head with ⟨hgen, rfl⟩ | ⟨q, t, hq, hid, -, rfl, -, hqok⟩
  · exact .inl ⟨hgen, rfl⟩
  · refine .inr ⟨q, t, ?_, hid, by rw [hid]⟩
    rcases List.mem_append.mp hq with hq | hq
    · exact hq
    · rcases List.mem_cons.mp hq with rfl | hq
      · have hheight := hok.height
        rw [hqok.height] at hheight
        simp at hheight
      · rw [ParentFirst, List.pairwise_append] at hfirst
        exact absurd hid (List.rel_of_pairwise_cons hfirst.2.1 hq hqok.low)

/-- One more block is submitted, after its parent and different from all before. -/
theorem StoredUpTo.submit {P R : List Block} {b : Block} (h : StoredUpTo K g (P ++ b :: R) P c)
    (hids : DistinctIds K (P ++ b :: R)) (hfirst : ParentFirst K (P ++ b :: R)) :
    StoredUpTo K g (P ++ b :: R) (P ++ [b]) (c.submit K b) where
  inv := h.inv.submit b
  sound k x hx hne := by
    rcases submit_blocks_cases h.inv hx with hold | ⟨-, rfl⟩
    · exact List.mem_append_left _ (h.sound k x hold hne)
    · simp
  complete x hx l hl := by
    rcases List.mem_append.mp hx with hx | hx
    · exact (h.complete x hx l hl).submit h.inv b
    obtain rfl := List.mem_singleton.mp hx
    rcases hl.head with ⟨hgen, heq⟩ | ⟨y, t, -, hid, hne, heq, hpar, hok⟩
    · rw [heq, hgen]
      exact h.inv.stored.genesis_branch.submit h.inv x
    · obtain ⟨-, rfl⟩ := Prod.mk.inj (List.cons.inj heq).1
      obtain rfl := (List.cons.inj heq).2
      have hbr : Branch K g c.state x.header.prevHash l := by
        rcases hpar.parent_mem hfirst hok with ⟨hgen, rfl⟩ | ⟨q, t, hq, hqid, rfl⟩
        · rw [hgen]
          exact h.inv.stored.genesis_branch
        · rw [hqid] at hpar ⊢
          exact h.complete q hq t hpar
      -- a stored block of this hash would be one of `P`, and ids are distinct
      have hnew : c.state.blocks (blockId K x) = none := by
        by_contra hsome
        obtain ⟨y, hy⟩ := Option.ne_none_iff_exists'.mp hsome
        obtain ⟨l', -, hyok⟩ := h.inv.stored.stored _ y hy hne
        rw [DistinctIds, List.pairwise_append] at hids
        exact hids.2.2 y (h.sound _ y hy hne) x List.mem_cons_self hyok.low hok.low hyok.id
      exact Storable.branch_submit h.inv ⟨hnew, l, hbr, hok⟩ hbr

/-- After all blocks are submitted, the stored branches are the admitted ones. -/
theorem branch_iff_admitted (hids : DistinctIds K S) (hfirst : ParentFirst K S)
    (hinit : (chainMachine K g).init c) (h : Hash256) (l : BlockChain) :
    Branch K g ((chainMachine K g).run c S).state h l ↔ Admitted K g S h l := by
  -- by induction on what is left of the sequence
  have hrun : ∀ (R P : List Block) (c : Chain), S = P ++ R → StoredUpTo K g S P c →
      StoredUpTo K g S S ((chainMachine K g).run c R) := by
    intro R
    induction R with
    | nil =>
      intro P c hS hP
      rw [List.append_nil] at hS
      subst hS
      exact hP
    | cons b R ih =>
      intro P c hS hP
      subst hS
      have hstep := hP.submit hids hfirst
      exact ih (P ++ [b]) _ (by simp) hstep
  have hstart : StoredUpTo K g S [] c := by
    refine ⟨chainInv (.init hinit), fun h b hb hne => ?_, by simp⟩
    rw [(openDb_canonical hinit).2.2 h hne] at hb
    cases hb
  have hend := hrun S [] c rfl hstart
  constructor
  · exact fun hl => hl.admitted hend.inv.stored hend.sound
  · intro hl
    rcases hl.head with ⟨rfl, rfl⟩ | ⟨b, t, hb, rfl, -, rfl, -, -⟩
    · exact hend.inv.stored.genesis_branch
    · exact hend.complete b hb t hl

/-! ## The canonical chain as a function of the store -/

/-- A store is determined by its branches. -/
theorem blocks_eq_of_branch_iff {st st' : ChainState} (hs : WellStored K g st)
    (hs' : WellStored K g st') (h : ∀ h l, Branch K g st h l ↔ Branch K g st' h l) :
    st.blocks = st'.blocks := by
  funext k
  cases hb : st.blocks k with
  | none =>
    cases hb' : st'.blocks k with
    | none => rfl
    | some b =>
      obtain ⟨l, hl⟩ := hs'.exists_branch hb'
      have hget := ((h k _).mpr hl).get_isSome
      rw [hb] at hget
      cases hget
  | some b =>
    obtain ⟨l, hl⟩ := hs.exists_branch hb
    exact (((h k _).mp hl).mem_get List.mem_cons_self).symm

/-- The tip's branch is valid and no valid branch has more work. -/
theorem canonical_maximal (hbound : SupplyBound g) (hc : (chainMachine K g).Reachable c)
    {n : UInt64} {t : Hash256} {l : BlockChain} (hcan : Canonical K g c.state n t l) :
    ValidBranch K g c.state l ∧ ∀ l', ValidBranch K g c.state l' → branchWork l' ≤ branchWork l := by
  refine ⟨⟨⟨t, hcan.branch⟩, ?_⟩, fun l' hl' => ?_⟩
  · rw [(ledgerInv hbound hc n t l hcan).2]
    rfl
  · obtain ⟨⟨h, hl'⟩, hvalid⟩ := hl'
    exact heaviest hbound hc n t l hcan h l' hl' hvalid

/-- Two canonical chains of one branch agree on tip, index and accounts. -/
theorem Canonical.agree {st st' : ChainState} {n n' : UInt64} {t t' : Hash256} {l : BlockChain}
    (hcan : Canonical K g st n t l) (hcan' : Canonical K g st' n' t' l) :
    st.tip = st'.tip ∧ st.heights = st'.heights := by
  obtain ⟨b, s, -, hl⟩ := hcan.branch.head
  obtain ⟨b', s', -, hl'⟩ := hcan'.branch.head
  have hheads := hl.symm.trans hl'
  simp only [List.cons.injEq, Prod.mk.injEq] at hheads
  obtain ⟨⟨rfl, -⟩, -⟩ := hheads
  have hn : n = n' := by
    have h := hcan.height
    have h' := hcan'.height
    exact UInt64.toNat_inj.mp (by omega)
  subst hn
  exact ⟨hcan.tip.trans hcan'.tip.symm, funext fun i => (hcan.index i).trans (hcan'.index i).symm⟩

/-- **Consensus convergence.** -/
theorem convergence (hbound : SupplyBound g) (hperm : S.Perm T) (hids : DistinctIds K S)
    (hS : ParentFirst K S) (hT : ParentFirst K T) {c d : Chain} (hc : (chainMachine K g).init c)
    (hd : (chainMachine K g).init d) :
    ((chainMachine K g).run c S).state.blocks = ((chainMachine K g).run d T).state.blocks ∧
    (UniqueHeaviest K g ((chainMachine K g).run c S).state →
      ((chainMachine K g).run c S).state.tip = ((chainMachine K g).run d T).state.tip ∧
      ((chainMachine K g).run c S).state.heights = ((chainMachine K g).run d T).state.heights ∧
      ∀ addr, ((chainMachine K g).run c S).state.getAccount addr
        = ((chainMachine K g).run d T).state.getAccount addr) := by
  have hidsT : DistinctIds K T := by
    refine (hperm.pairwise_iff fun h hb ha => ?_).mp hids
    exact (h ha hb).symm
  have hiff : ∀ h l, Branch K g ((chainMachine K g).run c S).state h l ↔
      Branch K g ((chainMachine K g).run d T).state h l := by
    intro h l
    rw [branch_iff_admitted hids hS hc, branch_iff_admitted hidsT hT hd]
    exact ⟨.mono fun b => hperm.mem_iff.mp, .mono fun b => hperm.mem_iff.mpr⟩
  have hrc : (chainMachine K g).Reachable ((chainMachine K g).run c S) :=
    Machine.Reachable.run (.init hc) S
  have hrd : (chainMachine K g).Reachable ((chainMachine K g).run d T) :=
    Machine.Reachable.run (.init hd) T
  have hblocks := blocks_eq_of_branch_iff (chainInv hrc).stored (chainInv hrd).stored hiff
  refine ⟨hblocks, fun hunique => ?_⟩
  obtain ⟨n, t, l, hcan⟩ := (chainInv hrc).canonical
  obtain ⟨n', t', l', hcan'⟩ := (chainInv hrd).canonical
  have hvalid : ∀ m, ValidBranch K g ((chainMachine K g).run c S).state m ↔
      ValidBranch K g ((chainMachine K g).run d T).state m := by
    intro m
    simp only [ValidBranch, hiff]
  -- both canonical chains are the heaviest of the same valid branches
  obtain ⟨hl', hmax'⟩ := canonical_maximal hbound hrd hcan'
  obtain rfl : l = l' := hunique.unique (canonical_maximal hbound hrc hcan)
    ⟨(hvalid l').mpr hl', fun m hm => hmax' m ((hvalid m).mp hm)⟩
  obtain ⟨htip, hheights⟩ := hcan.agree hcan'
  refine ⟨htip, hheights, ChainState.getAccount_eq_of_ledger ?_⟩
  have hledger := (ledgerInv hbound hrc n t l hcan).2
  rw [(ledgerInv hbound hrd n' t' l hcan').2] at hledger
  exact (Option.some.inj hledger).symm

/-- A block at height 1 with the wrong transaction root. -/
def badRoot : Block where
  header :=
    { (emptyBlock 1 (smallGenesis.genesisHash smallCrates) 1).header with
      txRoot := smallGenesis.genesisHash smallCrates }
  transactions := ⟨[], TxVec.nil_lt⟩

/-- An empty block and one with a wrong root, in both orders. -/
theorem convergence_small :
    ((chainMachine smallCrates smallGenesis).run smallOpen
      [emptyBlock 1 (smallGenesis.genesisHash smallCrates) 0, badRoot]).state.tip
    = ((chainMachine smallCrates smallGenesis).run smallOpen
      [badRoot, emptyBlock 1 (smallGenesis.genesisHash smallCrates) 0]).state.tip := by
  have hids : DistinctIds smallCrates [emptyBlock 1 (smallGenesis.genesisHash smallCrates) 0, badRoot] := by
    refine List.pairwise_pair.mpr fun _ _ => ?_
    rw [blockId_small, blockId_small]
    exact fun h => absurd (nonceId_injective h) (by decide)
  have hfirst : ∀ a b : Block, a.header.prevHash = smallGenesis.genesisHash smallCrates →
      ParentFirst smallCrates [a, b] := by
    intro a b ha
    refine List.pairwise_pair.mpr fun _ => ?_
    rw [ha, blockId_small]
    exact (nonceId_ne_genesisHash _).symm
  refine ((convergence supplyBound_small (List.Perm.swap _ _ []) hids (hfirst _ _ rfl)
    (hfirst _ _ rfl) init_small init_small).2 ?_).1
  have hiff := branch_iff_admitted hids (hfirst _ _ rfl) init_small
  -- the branches of the set are genesis and genesis with the good block
  have honly : ∀ h l, Admitted smallCrates smallGenesis
      [emptyBlock 1 (smallGenesis.genesisHash smallCrates) 0, badRoot] h l →
      l = [(smallGenesis.genesisHash smallCrates, smallGenesis.genesisBlock)] ∨
        l = [(nonceId 0, emptyBlock 1 (smallGenesis.genesisHash smallCrates) 0),
          (smallGenesis.genesisHash smallCrates, smallGenesis.genesisBlock)] := by
    intro h l hl
    rcases hl.head with ⟨-, rfl⟩ | ⟨b, t, hb, rfl, -, rfl, ht, hok⟩
    · exact .inl rfl
    · rcases List.mem_pair.mp hb with rfl | rfl
      · rcases ht.head with ⟨-, rfl⟩ | ⟨b, t, -, -, hne, -⟩
        · rw [blockId_small]
          exact .inr rfl
        · exact absurd rfl hne
      · exact absurd (hok.root.trans (merkleRoot_nil smallCrates)) genesisHash_small_ne_zero
  have hgood : Admitted smallCrates smallGenesis
      [emptyBlock 1 (smallGenesis.genesisHash smallCrates) 0, badRoot] (nonceId 0)
      [(nonceId 0, emptyBlock 1 (smallGenesis.genesisHash smallCrates) 0),
        (smallGenesis.genesisHash smallCrates, smallGenesis.genesisBlock)] := by
    have hid : blockId smallCrates (emptyBlock 1 (smallGenesis.genesisHash smallCrates) 0)
        = nonceId 0 := blockId_small _
    rw [← hid]
    refine .block (by simp) ?_ .genesis ?_
    · rw [hid]
      exact nonceId_ne_genesisHash 0
    · rw [hid]
      exact emptyBlock_ok _ _ rfl (by decide)
  refine ⟨_, ⟨⟨⟨_, (hiff _ _).mpr hgood⟩, rfl⟩, fun l' hl' => ?_⟩, fun l' hl' => ?_⟩
  · obtain ⟨⟨h, hl'⟩, -⟩ := hl'
    rcases honly h l' ((hiff h l').mp hl') with rfl | rfl
    · decide
    · exact Nat.le_refl _
  · obtain ⟨⟨⟨h, hl'⟩, -⟩, hmax⟩ := hl'
    rcases honly h l' ((hiff h l').mp hl') with rfl | rfl
    · have hle := hmax _ ⟨⟨_, (hiff _ _).mpr hgood⟩, rfl⟩
      exact absurd hle (by decide)
    · rfl

end Ondris
