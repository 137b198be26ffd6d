import Ondris.Lib.Machine
import Ondris.Submit

/-!
# Runs of a chain

A chain as a machine: it starts as `Chain::open` on an empty data directory
leaves it, and every call of `submit_block` is a step.

Results:
1. `chainInv`: the invariant of `Submit` holds in every reachable state.
2. `ledgerInv`: below the supply bound the accounts are the replay of the
   canonical chain.
3. `heaviest`: below the supply bound no stored branch that replays has more
   work than the tip's.
-/

namespace Ondris

open Ledger

/-! ## Definitions -/

/-- A chain opened on an empty data directory and fed with blocks. -/
def chainMachine (K : Crates) (g : GenesisConfig) :
    Machine Chain Block (Except ChainError SubmitOutcome) where
  init c := Chain.openDb K g ChainState.empty = .ok c
  step c b := c.submit K b
  out c b := (c.submitBlock K b).result

/-- A data directory without a tip, holding nothing but genesis besides accounts. -/
structure Fresh (K : Crates) (g : GenesisConfig) (disk : ChainState) : Prop where
  tip : disk.tip = none
  blocks : ∀ h, h ≠ g.genesisHash K → disk.blocks h = none
  chainwork : ∀ h, h ≠ g.genesisHash K → disk.chainwork h = none
  heights : ∀ i, i ≠ 0 → disk.heights i = none

/-- The accounts are the replay of the canonical chain, on which nothing
saturated. -/
def LedgerInv (K : Crates) (g : GenesisConfig) (st : ChainState) : Prop :=
  ∀ n t l, Canonical K g st n t l → HasRoom K g l ∧ branchLedger K g l = some st.ledger

/-- If the block is going to be stored with more work than the tip has, the replay of its
branch has room. -/
def RoomFor (K : Crates) (g : GenesisConfig) (st : ChainState) (b : Block) : Prop :=
  Storable K g st b → ∀ n t lo lp, Canonical K g st n t lo → Branch K g st b.header.prevHash lp →
    branchWork lo < branchWork ((blockId K b, b) :: lp) → HasRoom K g ((blockId K b, b) :: lp)

/-- No stored branch that replays has more work than the canonical one. -/
def Heaviest (K : Crates) (g : GenesisConfig) (st : ChainState) : Prop :=
  ∀ n t l, Canonical K g st n t l → ∀ h l', Branch K g st h l' →
    (branchLedger K g l').isSome → branchWork l' ≤ branchWork l

variable {K : Crates} {g : GenesisConfig} {c : Chain}

/-! ## Opening -/

theorem ledger_setAccount (st : ChainState) (addr : Address) (a : Account) :
    (st.write (.setAccount addr a)).ledger = Function.update st.ledger addr a.holding := by
  funext b
  by_cases hb : b = addr
  · subst hb
    simp [ChainState.ledger, ChainState.getAccount, ChainState.write]
  · simp [ChainState.ledger, ChainState.getAccount, ChainState.write, hb]

theorem credit_ledger (st : ChainState) (addr : Address) (amount : UInt64) :
    (st.write (st.credit addr amount)).ledger = Function.update st.ledger addr
      ⟨min ((st.ledger addr).balance + amount.toNat) (2 ^ 64 - 1), (st.ledger addr).seq⟩ := by
  rw [ChainState.credit, ledger_setAccount, Account.holding]
  simp only
  rw [toNat_satAdd]
  rfl

/-- What the credits give an account. -/
def creditedTo (ps : List (Address × UInt64)) (addr : Address) : ℕ :=
  (ps.map fun p => if p.1 = addr then p.2.toNat else 0).sum

theorem creditedTo_cons (p : Address × UInt64) (ps : List (Address × UInt64)) (addr : Address) :
    creditedTo (p :: ps) addr = (if p.1 = addr then p.2.toNat else 0) + creditedTo ps addr := by
  rw [creditedTo, List.map_cons, List.sum_cons]
  rfl

/-- The premine credits, each account up to `u64::MAX`. -/
theorem creditAll_ledger (ps : List (Address × UInt64)) (st : ChainState) (addr : Address) :
    (st.writes (creditAll st ps)).ledger addr
      = ⟨min ((st.ledger addr).balance + creditedTo ps addr) (2 ^ 64 - 1), (st.ledger addr).seq⟩ := by
  induction ps generalizing st with
  | nil =>
    have hlt := (st.getAccount addr).balance.toNat_lt
    have hbal : (st.ledger addr).balance = (st.getAccount addr).balance.toNat := rfl
    ext
    · show (st.ledger addr).balance = min ((st.ledger addr).balance + 0) (2 ^ 64 - 1)
      omega
    · rfl
  | cons p ps ih =>
    rw [creditAll, ChainState.writes_cons, ih, credit_ledger, creditedTo_cons]
    by_cases haddr : p.1 = addr
    · subst haddr
      rw [Function.update_self, if_pos rfl]
      ext
      · simp only
        omega
      · rfl
    · rw [Function.update_of_ne (Ne.symm haddr), if_neg haddr, Nat.zero_add]

theorem balance_openingLedger {ps : List (Address × UInt64)} (hpre : g.premineParsed = .ok ps)
    (addr : Address) : (g.openingLedger addr).balance = creditedTo ps addr := by
  have hfold : ∀ (ps : List (Address × UInt64)) (L : Ledger Address),
      (ps.foldl (fun L p => credit L p.1 p.2.toNat) L addr).balance
        = (L addr).balance + creditedTo ps addr := by
    intro ps
    induction ps with
    | nil => exact fun L => rfl
    | cons p ps ih =>
      intro L
      rw [List.foldl_cons, ih, creditedTo_cons, credit]
      by_cases haddr : p.1 = addr
      · subst haddr
        rw [Function.update_self, if_pos rfl]
        exact Nat.add_assoc _ _ _
      · rw [Function.update_of_ne (Ne.symm haddr), if_neg haddr, Nat.zero_add]
  rw [GenesisConfig.openingLedger, hpre, Except.toOption, Option.getD_some, hfold]
  exact Nat.zero_add _

theorem mem_creditAll {ps : List (Address × UInt64)} {st : ChainState} {w : Write}
    (hw : w ∈ creditAll st ps) : ∃ addr a, w = .setAccount addr a := by
  induction ps generalizing st with
  | nil => simp [creditAll] at hw
  | cons p ps ih =>
    rcases List.mem_cons.mp hw with rfl | hw
    · exact ⟨_, _, rfl⟩
    · exact ih hw

/-- The credits touch nothing but accounts. -/
theorem creditAll_frame (ps : List (Address × UInt64)) (st : ChainState) :
    (st.writes (creditAll st ps)).blocks = st.blocks ∧
    (st.writes (creditAll st ps)).chainwork = st.chainwork ∧
    (st.writes (creditAll st ps)).heights = st.heights := by
  have hstep : ∀ st' : ChainState, ∀ w ∈ creditAll st ps,
      ((st'.write w).blocks, (st'.write w).chainwork, (st'.write w).heights)
        = (st'.blocks, st'.chainwork, st'.heights) := by
    intro st' w hw
    obtain ⟨addr, a, rfl⟩ := mem_creditAll hw
    rfl
  simpa only [Prod.mk.injEq] using
    ChainState.writes_frame (fun st => (st.blocks, st.chainwork, st.heights)) hstep st

/-- What `init_genesis` writes after the premine. -/
def genesisWrites (K : Crates) (g : GenesisConfig) : List Write :=
  [.setChainwork (g.genesisHash K) (blockWork g.initialDifficulty),
    .storeBlock (g.genesisHash K) g.genesisBlock, .setCanonicalHeight 0 (g.genesisHash K),
    .setTip 0 (g.genesisHash K)]

theorem initGenesis_cases {disk : ChainState} {ws : List Write}
    (hws : initGenesis K g disk = .ok ws) :
    ∃ ps, g.premineParsed = .ok ps ∧ ws = creditAll disk ps ++ genesisWrites K g := by
  unfold initGenesis at hws
  cases hpre : g.premineParsed with
  | error e =>
    rw [hpre] at hws
    cases hws
  | ok ps =>
    rw [hpre] at hws
    exact ⟨ps, rfl, (Except.ok.inj hws).symm⟩

/-- The trees after genesis initialisation. -/
theorem initGenesis_trees {disk : ChainState} {ws : List Write}
    (hws : initGenesis K g disk = .ok ws) :
    (disk.writes ws).blocks
        = Function.update disk.blocks (g.genesisHash K) (some g.genesisBlock) ∧
      (disk.writes ws).chainwork = Function.update disk.chainwork (g.genesisHash K)
        (some (blockWork g.initialDifficulty)) ∧
      (disk.writes ws).heights = Function.update disk.heights 0 (some (g.genesisHash K)) ∧
      (disk.writes ws).tip = some (0, g.genesisHash K) := by
  obtain ⟨ps, -, rfl⟩ := initGenesis_cases hws
  obtain ⟨hblocks, hwork, hheights⟩ := creditAll_frame ps disk
  rw [ChainState.writes_append]
  refine ⟨?_, ?_, ?_, rfl⟩
  · rw [← hblocks]
    rfl
  · rw [← hwork]
    rfl
  · rw [← hheights]
    rfl

/-- A store that holds genesis and nothing else. -/
theorem WellStored.of_genesis {st : ChainState} (hgen : st.blocks (g.genesisHash K) = some g.genesisBlock)
    (hblocks : ∀ h, h ≠ g.genesisHash K → st.blocks h = none)
    (hwork : st.chainwork (g.genesisHash K) = some (blockWork g.initialDifficulty))
    (hworks : ∀ h, h ≠ g.genesisHash K → st.chainwork h = none) : WellStored K g st where
  genesis := hgen
  stored h b hb hne := by
    rw [hblocks h hne] at hb
    cases hb
  work h l hl := by
    by_cases hne : h = g.genesisHash K
    · subst hne
      obtain ⟨b, hb, rfl⟩ := hl.root_eq
      rw [hgen] at hb
      obtain rfl := Option.some.inj hb
      rw [hwork]
      rfl
    · obtain ⟨b, -, hb, -⟩ := hl.head
      rw [hblocks h hne] at hb
      cases hb
  workOnly h hw := by
    by_cases hne : h = g.genesisHash K
    · rw [hne, hgen]
      rfl
    · rw [hworks h hne] at hw
      cases hw

/-- An index with genesis and nothing else. -/
theorem Indexes.of_genesis {heights : Tree UInt64 Hash256} {p : Hash256 × Block}
    (hzero : heights 0 = some p.1) (hheights : ∀ i, i ≠ 0 → heights i = none) :
    Indexes heights [p] := by
  intro i
  by_cases hi : i = 0
  · rw [hi, hzero]
    rfl
  · have hpos : 1 ≤ i.toNat := by
      rw [Nat.one_le_iff_ne_zero]
      exact fun h => hi (UInt64.toNat_inj.mp h)
    rw [hheights i hi, List.getElem?_eq_none]
    exact hpos

/-- What genesis initialisation leaves on a fresh directory. -/
theorem initGenesis_canonical {disk : ChainState} (hd : Fresh K g disk) {ws : List Write}
    (hws : initGenesis K g disk = .ok ws) : WellStored K g (disk.writes ws) ∧
      Canonical K g (disk.writes ws) 0 (g.genesisHash K) [(g.genesisHash K, g.genesisBlock)] ∧
      ∀ h, h ≠ g.genesisHash K → (disk.writes ws).blocks h = none := by
  obtain ⟨hblocks, hwork, hheights, htip⟩ := initGenesis_trees hws
  have hgen : (disk.writes ws).blocks (g.genesisHash K) = some g.genesisBlock := by
    rw [hblocks, Function.update_self]
  have honly : ∀ h, h ≠ g.genesisHash K → (disk.writes ws).blocks h = none := by
    intro h hne
    rw [hblocks, Function.update_of_ne hne, hd.blocks h hne]
  -- every tree has the entry of genesis over what a fresh directory has, which is nothing
  refine ⟨.of_genesis hgen honly ?_ fun h hne => ?_, ⟨htip, .root hgen, rfl, .of_genesis ?_ ?_⟩,
    honly⟩
  · rw [hwork, Function.update_self]
  · rw [hwork, Function.update_of_ne hne, hd.chainwork h hne]
  · rw [hheights, Function.update_self]
  · intro i hi
    rw [hheights, Function.update_of_ne hi, hd.heights i hi]

/-- Genesis initialisation credits the premine, each account up to `u64::MAX`. -/
theorem ledger_initGenesis {disk : ChainState} {ws : List Write}
    (hws : initGenesis K g disk = .ok ws) (addr : Address) : (disk.writes ws).ledger addr
      = ⟨min ((disk.ledger addr).balance + (g.openingLedger addr).balance) (2 ^ 64 - 1),
        (disk.ledger addr).seq⟩ := by
  obtain ⟨ps, hpre, rfl⟩ := initGenesis_cases hws
  rw [balance_openingLedger hpre, ← creditAll_ledger, ChainState.writes_append]
  rfl

/-- Accounts that take the premine: those it goes to are empty, or get `u64::MAX` anyway. -/
def TakesPremine (g : GenesisConfig) (L : Ledger Address) : Prop :=
  ∀ addr, (L addr).seq = 0 ∧
    ((L addr).balance = 0 ∨ (g.openingLedger addr).balance = 2 ^ 64 - 1)

/-- On such accounts genesis initialisation leaves the premine. -/
theorem initGenesis_ledger (hpremine : Bounded (2 ^ 64 - 1) g.openingLedger) {disk : ChainState}
    (hd : TakesPremine g disk.ledger) {ws : List Write} (hws : initGenesis K g disk = .ok ws) :
    (disk.writes ws).ledger = g.openingLedger := by
  funext addr
  have hle := hpremine addr
  obtain ⟨hseq, hbal⟩ := hd addr
  rw [ledger_initGenesis hws]
  ext
  · simp only
    omega
  · exact hseq.trans (seq_openingLedger addr).symm

theorem takesPremine_empty : TakesPremine g ChainState.empty.ledger := fun _ => ⟨rfl, .inl rfl⟩

theorem fresh_empty : Fresh K g ChainState.empty :=
  ⟨rfl, fun _ _ => rfl, fun _ _ => rfl, fun _ _ => rfl⟩

theorem openDb_cases {disk : ChainState} (hc : Chain.openDb K g disk = .ok c) :
    ∃ ws, openWrites K g disk = .ok ws ∧ c = ⟨disk.writes ws, g, none⟩ := by
  unfold Chain.openDb at hc
  cases hws : openWrites K g disk with
  | error e =>
    rw [hws] at hc
    cases hc
  | ok ws =>
    rw [hws] at hc
    exact ⟨ws, rfl, (Except.ok.inj hc).symm⟩

/-- A directory with a tip is opened as it is. -/
theorem openDb_of_tip {disk : ChainState} {tip : UInt64 × Hash256} (htip : disk.tip = some tip) :
    Chain.openDb K g disk = .ok ⟨disk, g, none⟩ := by
  unfold Chain.openDb openWrites
  rw [htip]
  rfl

theorem openDb_empty (hc : Chain.openDb K g ChainState.empty = .ok c) :
    ∃ ws, initGenesis K g ChainState.empty = .ok ws ∧ c = ⟨ChainState.empty.writes ws, g, none⟩ :=
  openDb_cases hc

/-- A chain that has just been opened holds the genesis block and nothing else. -/
theorem openDb_canonical (hc : Chain.openDb K g ChainState.empty = .ok c) :
    WellStored K g c.state ∧
      Canonical K g c.state 0 (g.genesisHash K) [(g.genesisHash K, g.genesisBlock)] ∧
      ∀ h, h ≠ g.genesisHash K → c.state.blocks h = none := by
  obtain ⟨ws, hws, rfl⟩ := openDb_empty hc
  exact initGenesis_canonical fresh_empty hws

/-! ## Reachable states -/

/-- The invariant of `Submit` holds in every reachable state. -/
theorem chainInv (hc : (chainMachine K g).Reachable c) : ChainInv K g c := by
  refine Machine.Reach.invariant (fun c hinit => ?_) (fun c b _ _ ih => ih.submit b) hc
  obtain ⟨hstored, hcan, -⟩ := openDb_canonical hinit
  obtain ⟨ws, -, rfl⟩ := openDb_empty hinit
  exact ⟨rfl, .inl rfl, hstored, _, _, _, hcan⟩

/-- A simulation from the replay of the tip's branch succeeds exactly when the new
branch replays. -/
theorem Placement.simulate_ledger (hc : ChainInv K g c) (hledger : LedgerInv K g c.state)
    {n : UInt64} {t : Hash256} {lo lp a p s : BlockChain} (hcan : Canonical K g c.state n t lo)
    {b : Block} (hroom : HasRoom K g ((blockId K b, b) :: lp))
    (hpl : Placement K g c.state lo b lp a p s) :
    (simulate K g c.state a p).toOption.map (overlayLedger c.state)
      = branchLedger K g ((blockId K b, b) :: lp) := by
  have haccounts : (stateWith K c.state b lp).accounts = c.state.accounts := rfl
  have hreorg := reorg_ledger (hpl.wellStored hc.stored) (hledger n t lo hcan).1
    hroom (hpl.branch hc.stored) hpl.fork (hledger n t lo hcan).2
  have hover : overlayLedger (stateWith K c.state b lp) = overlayLedger c.state := by
    funext overlay addr
    rw [overlayLedger, overlayLedger, getAcc_congr haccounts]
  rwa [← simulate, simulate_congr haccounts, hover] at hreorg

/-- A block of a heavier branch that replays is accepted, and its branch is the canonical
chain. -/
theorem Placement.overtakes (hc : ChainInv K g c) (hledger : LedgerInv K g c.state)
    {n : UInt64} {t : Hash256} {lo lp a p s : BlockChain} (hcan : Canonical K g c.state n t lo)
    {b : Block} (hroom : HasRoom K g ((blockId K b, b) :: lp))
    (hpl : Placement K g c.state lo b lp a p s)
    (hwork : branchWork lo < branchWork ((blockId K b, b) :: lp))
    (hvalid : (branchLedger K g ((blockId K b, b) :: lp)).isSome) :
    (c.submitBlock K b).result = .ok (.accepted (blockId K b) b.header.height
        (t ≠ b.header.prevHash) (requeueOf K a p.reverse)) ∧
      Canonical K g (c.submit K b).state b.header.height (blockId K b) ((blockId K b, b) :: lp) := by
  rw [← hpl.simulate_ledger hc hledger hcan hroom] at hvalid
  cases hsim : simulate K g c.state a p with
  | error e =>
    rw [hsim] at hvalid
    cases hvalid
  | ok overlay => exact submitBlock_overtakes hc hcan hpl hwork hsim

theorem LedgerInv.submit (hc : ChainInv K g c) (hledger : LedgerInv K g c.state) {b : Block}
    (hroom : RoomFor K g c.state b) : LedgerInv K g (c.submit K b).state := by
  obtain ⟨n, t, lo, hcan⟩ := hc.canonical
  intro n' t' l' hcan'
  rcases submit_cases hc hcan b with ⟨-, hst⟩ | ⟨lp, a, p, s, hpl, ⟨-, hst⟩ | ⟨o, hwork, hsim, hst⟩⟩
  · rw [hst] at hcan' ⊢
    exact hledger n' t' l' hcan'
  · rw [hst] at hcan' ⊢
    obtain ⟨-, -, rfl⟩ := hcan'.unique (hpl.canonical_stored hcan)
    exact hledger n t l' hcan
  · rw [hst] at hcan' ⊢
    obtain ⟨-, -, rfl⟩ := hcan'.unique (hpl.canonical hc.stored hcan o)
    have hnew := hroom hpl.storable n t lo lp hcan hpl.parent hwork
    have hreplay := hpl.simulate_ledger hc hledger hcan hnew
    rw [hsim] at hreplay
    refine ⟨hnew, ?_⟩
    rw [← hreplay, commit_ledger (List.Perm.refl _)]
    rfl

/-- Below the supply bound every block that is stored has room. -/
theorem Placement.hasRoom (hbound : SupplyBound g) (hs : WellStored K g c.state)
    {lo lp a p s : BlockChain} {b : Block} (hpl : Placement K g c.state lo b lp a p s) :
    HasRoom K g ((blockId K b, b) :: lp) :=
  hasRoom_of_bound hbound (hpl.wellStored hs) (hpl.branch hs)

theorem roomFor_of_bound (hbound : SupplyBound g) (hc : ChainInv K g c) (b : Block) :
    RoomFor K g c.state b := by
  intro hb n t lo lp hcan hlp _
  obtain ⟨lp', a, p, s, hpl⟩ := Placement.exists hc.stored hcan hb
  obtain rfl := hlp.unique hpl.parent
  exact hpl.hasRoom hbound hc.stored

/-- Below the supply bound the accounts are the replay of the canonical chain. -/
theorem ledgerInv (hbound : SupplyBound g) (hc : (chainMachine K g).Reachable c) :
    LedgerInv K g c.state := by
  refine Machine.Reach.invariant (P := fun c => LedgerInv K g c.state) (fun c hinit => ?_)
    (fun c b hr _ ih => ih.submit (chainInv hr) (roomFor_of_bound hbound (chainInv hr) b)) hc
  obtain ⟨hstored, hcan₀, -⟩ := openDb_canonical hinit
  obtain ⟨ws, hws, rfl⟩ := openDb_empty hinit
  intro n t l hcan
  obtain ⟨-, -, rfl⟩ := hcan.unique hcan₀
  have hroom := hasRoom_of_bound hbound hstored hcan₀.branch
  refine ⟨hroom, ?_⟩
  rw [initGenesis_ledger hroom.premine takesPremine_empty hws]
  rfl

theorem Heaviest.submit (hc : ChainInv K g c) (hledger : LedgerInv K g c.state)
    (hheavy : Heaviest K g c.state) {b : Block} (hroom : RoomFor K g c.state b) :
    Heaviest K g (c.submit K b).state := by
  obtain ⟨n, t, lo, hcan⟩ := hc.canonical
  intro n' t' l hcan' h l' hl' hvalid
  rcases submit_cases hc hcan b with ⟨-, hst⟩ | ⟨lp, a, p, s, hpl, ⟨hlow, hst⟩ | ⟨o, hwork, -, hst⟩⟩
  · rw [hst] at hcan' hl'
    exact hheavy n' t' l hcan' h l' hl' hvalid
  · rw [hst] at hcan' hl'
    obtain ⟨-, -, rfl⟩ := hcan'.unique (hpl.canonical_stored hcan)
    rcases hc.stored.store_cases hpl.new hpl.parent hl' with hold | ⟨rfl, rfl⟩
    · exact hheavy n t l hcan h l' hold hvalid
    · rcases hlow with hle | ⟨e, hsim⟩
      · exact hle
      · by_contra hlt
        have hnew := hroom hpl.storable n t l lp hcan hpl.parent (Nat.lt_of_not_le hlt)
        have hreplay := hpl.simulate_ledger hc hledger hcan hnew
        rw [hsim] at hreplay
        rw [← hreplay] at hvalid
        cases hvalid
  · rw [hst] at hcan' hl'
    obtain ⟨-, -, rfl⟩ := hcan'.unique (hpl.canonical hc.stored hcan o)
    have hl'' : Branch K g (stateWith K c.state b lp) h l' := by
      rwa [Branch, (commit_frame _).1] at hl'
    rcases hc.stored.store_cases hpl.new hpl.parent hl'' with hold | ⟨rfl, rfl⟩
    · exact Nat.le_of_lt (lt_of_le_of_lt (hheavy n t lo hcan h l' hold hvalid) hwork)
    · exact Nat.le_refl _

/-- With nothing but genesis stored its branch is the heaviest. -/
theorem Heaviest.of_genesis {st : ChainState} {n : UInt64} {t : Hash256} {l₀ : BlockChain}
    (hcan₀ : Canonical K g st n t l₀) (ht : t = g.genesisHash K)
    (honly : ∀ h, h ≠ g.genesisHash K → st.blocks h = none) : Heaviest K g st := by
  subst ht
  intro n t l hcan h l' hl' _
  obtain rfl : h = g.genesisHash K := by
    by_contra hne
    have hget := hl'.get_isSome
    rw [honly h hne] at hget
    cases hget
  obtain ⟨-, -, rfl⟩ := hcan.unique hcan₀
  rw [hl'.unique hcan₀.branch]

/-- Below the supply bound no stored branch that replays outweighs the tip. -/
theorem heaviest (hbound : SupplyBound g) (hc : (chainMachine K g).Reachable c) :
    Heaviest K g c.state := by
  refine Machine.Reach.invariant (P := fun c => Heaviest K g c.state) (fun c hinit => ?_)
    (fun c b hr _ ih => ih.submit (chainInv hr) (ledgerInv hbound hr)
      (roomFor_of_bound hbound (chainInv hr) b)) hc
  obtain ⟨-, hcan₀, honly⟩ := openDb_canonical hinit
  exact .of_genesis hcan₀ rfl honly

end Ondris
