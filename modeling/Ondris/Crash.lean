import Ondris.Atomicity

/-!
# Crashes

A data directory on which processes start, submit blocks and die. A call issues
its writes one by one; when the process dies in a call, a prefix of them is on
disk. A reorganisation writes the accounts in the order of a hash map, which may
be any.

Results:
1. `Issued.writes`: the order of the account writes does not matter to a call that
   completes.
2. `recovers_start_iff`, `recovers_submit_iff`: the crashes of one call after which the
   directory recovers.
3. `crash_recovery`: in every run whose crashes all come at such a point, the
   directory reopens to the replay of its canonical chain, and blocks that are handed
   in again are not blocked.
4. `not_recovers_small`: a crash between a premine credit and the tip does harm:
   the premine is credited again when the directory is reopened.
-/

namespace Ondris

open Ledger

/-! ## Definitions -/

/-- A write to something else than an account. -/
def Write.other : Write → Option Write
  | .setAccount _ _ => none
  | w => some w

/-- The same writes, the accounts in some other order. -/
def Shuffles (ws ws' : List Write) : Prop :=
  ws'.Perm ws ∧ ws'.map Write.other = ws.map Write.other

/-- A data directory, and the chain of the process that has it open. -/
inductive Host
  | down (disk : ChainState)
  | up (c : Chain)

def Host.disk : Host → ChainState
  | .down disk => disk
  | .up c => c.state

/-- `Chain::open`, `submit_block` with the writes it issues, each up to its end or
to a crash, and the end of the process between calls. -/
inductive HostEvent
  | start (cut : Option ℕ)
  | submit (b : Block) (ws : List Write) (cut : Option ℕ)
  | stop

/-- `Chain::open` on the directory; a start that fails writes nothing. -/
def Host.opened (K : Crates) (g : GenesisConfig) (disk : ChainState) (cut : Option ℕ) : Host :=
  match openWrites K g disk, cut with
  | .error _, _ => .down disk
  | .ok ws, none => .up ⟨disk.writes ws, g, none⟩
  | .ok ws, some k => .down (disk.writes (ws.take k))

def Host.step (K : Crates) (g : GenesisConfig) : Host → HostEvent → Host
  | .down disk, .start cut => .opened K g disk cut
  | .up c, .submit b ws none => .up ⟨c.state.writes ws, c.genesis, (c.submitBlock K b).cache⟩
  | .up c, .submit _ ws (some k) => .down (c.state.writes (ws.take k))
  | .up c, .stop => .down c.state
  | host, _ => host

def hostMachine (K : Crates) (g : GenesisConfig) : Machine Host HostEvent Unit where
  init host := host = .down ChainState.empty
  step := Host.step K g
  out _ _ := ()

/-- The writes of a submission are those of `submit_block`. -/
def Issued (K : Crates) : Host → HostEvent → Prop
  | .up c, .submit b ws _ => Shuffles (c.submitBlock K b).writes ws
  | _, _ => True

/-- The points of a submission at which a crash does no harm: before the first write
and after the last. -/
def SafeCut (ws : List Write) (cut : ℕ) : Prop := cut = 0 ∨ ws.length ≤ cut

/-- The points of genesis initialisation at which a crash does no harm: after the last
write, and before the first credit of an amount to an account that the premine does not
fill up. -/
def SafeStart (g : GenesisConfig) (cut : ℕ) : Prop :=
  g.premine.length + 4 ≤ cut ∨ ∀ ps, g.premineParsed = .ok ps → ∀ p ∈ ps.take cut,
    p.2.toNat = 0 ∨ (g.openingLedger p.1).balance = 2 ^ 64 - 1

/-- The steps that do no harm: a crash comes at a safe point, and no balance on the
branch of a block that overtakes the tip goes above `u64::MAX`. -/
def Harmless (K : Crates) (g : GenesisConfig) : Host → HostEvent → Prop
  | .down disk, .start (some cut) => disk.tip.isSome ∨ SafeStart g cut
  | .up c, .submit b ws cut => RoomFor K g c.state b ∧ ∀ k, cut = some k → SafeCut ws k
  | _, _ => True

/-- Blocks are handed in one after another, whatever becomes of them. -/
def Chain.resubmit (K : Crates) (c : Chain) (bs : List Block) : Chain := bs.foldl (·.submit K ·) c

/-- None of the blocks takes an account above `u64::MAX`. -/
def RoomForAll (K : Crates) (g : GenesisConfig) : Chain → List Block → Prop
  | _, [] => True
  | c, b :: bs => RoomFor K g c.state b ∧ RoomForAll K g (c.submit K b) bs

/-- A well-formed block on a stored branch is in the store once it is handed in, and the
tip is that of the heaviest stored branch that replays. -/
structure Unblocked (K : Crates) (g : GenesisConfig) (c : Chain) : Prop where
  stores : ∀ b l, Branch K g c.state b.header.prevHash l →
    BlockOk K g (l.map Prod.snd) (blockId K b) b → ((c.submit K b).state.blocks (blockId K b)).isSome
  heaviest : Heaviest K g c.state

/-- The accounts are the replay of the canonical chain, the height index lists it,
and every stored block has its work. -/
def Consistent (K : Crates) (g : GenesisConfig) (st : ChainState) : Prop :=
  ∃ n t l, Canonical K g st n t l ∧ branchLedger K g l = some st.ledger ∧
    ∀ h, (st.blocks h).isSome → (st.chainwork h).isSome

/-- The directory reopens to a consistent chain, which takes the heaviest valid branch
again, whatever is handed in. -/
structure Recovers (K : Crates) (g : GenesisConfig) (disk : ChainState) : Prop where
  opens : ∀ ps, g.premineParsed = .ok ps → ∃ c, Chain.openDb K g disk = .ok c
  consistent : ∀ c, Chain.openDb K g disk = .ok c → Consistent K g c.state
  unblocked : ∀ c, Chain.openDb K g disk = .ok c → ∀ bs, RoomForAll K g c bs →
    Unblocked K g (c.resubmit K bs)

/-- What `Chain` keeps of its store, the accounts included. -/
structure Sound (K : Crates) (g : GenesisConfig) (st : ChainState) : Prop where
  stored : WellStored K g st
  canonical : ∃ n t l, Canonical K g st n t l
  ledger : LedgerInv K g st
  heaviest : Heaviest K g st

/-- A directory on which `Chain::open` has not completed yet. -/
structure Untouched (K : Crates) (g : GenesisConfig) (disk : ChainState) : Prop where
  fresh : Fresh K g disk
  ledger : TakesPremine g disk.ledger

/-- The invariant of a directory. -/
def HostInv (K : Crates) (g : GenesisConfig) : Host → Prop
  | .down disk => Untouched K g disk ∨ Sound K g disk
  | .up c => c.genesis = g ∧ (c.datasetCache = none ∨ c.datasetCache = some (0, epochZeroDataset K)) ∧
      Sound K g c.state

variable {K : Crates} {g : GenesisConfig} {st disk : ChainState} {c : Chain}

/-! ## The order of the account writes -/

theorem eq_of_map_other {ws ws' : List Write} (h : ws'.map Write.other = ws.map Write.other)
    (hother : ∀ w ∈ ws, w.other = some w) : ws' = ws := by
  induction ws generalizing ws' with
  | nil => exact List.map_eq_nil_iff.mp h
  | cons w ws ih =>
    obtain ⟨v, vs, rfl, hv, hvs⟩ := List.map_eq_cons_iff.mp h
    rw [hother w List.mem_cons_self] at hv
    have heq : v = w := by
      cases v <;> simp only [Write.other, Option.some.injEq, reduceCtorEq] at hv <;> exact hv
    rw [heq, ih hvs fun u hu => hother u (List.mem_cons_of_mem _ hu)]

theorem exists_accounts_of_other {ws : List Write} (h : ∀ w ∈ ws, w.other = none) :
    ∃ accs : List (Address × Account), ws = accs.map fun p => .setAccount p.1 p.2 := by
  induction ws with
  | nil => exact ⟨[], rfl⟩
  | cons w ws ih =>
    obtain ⟨accs, rfl⟩ := ih fun u hu => h u (List.mem_cons_of_mem _ hu)
    have hw := h w List.mem_cons_self
    cases w with
    | setAccount addr a => exact ⟨(addr, a) :: accs, rfl⟩
    | _ => cases hw

theorem setAccount_injective :
    Function.Injective fun p : Address × Account => Write.setAccount p.1 p.2 := by
  rintro ⟨a, x⟩ ⟨b, y⟩ h
  simp only [Write.setAccount.injEq] at h
  rw [h.1, h.2]

/-- The shuffles of writes whose accounts stand together. -/
theorem Shuffles.split {pre post ws : List Write} {accs : List (Address × Account)}
    (hpre : ∀ w ∈ pre, w.other = some w) (hpost : ∀ w ∈ post, w.other = some w)
    (h : Shuffles (pre ++ accs.map (fun p => .setAccount p.1 p.2) ++ post) ws) :
    ∃ accs' : List (Address × Account), accs'.Perm accs ∧
      ws = pre ++ accs'.map (fun p => .setAccount p.1 p.2) ++ post := by
  obtain ⟨hperm, hmap⟩ := h
  rw [List.map_append, List.map_append] at hmap
  obtain ⟨front, post', rfl, hfront, hpost'⟩ := List.map_eq_append_iff.mp hmap
  obtain ⟨pre', mid, rfl, hpre', hmid⟩ := List.map_eq_append_iff.mp hfront
  obtain rfl := eq_of_map_other hpre' hpre
  obtain rfl := eq_of_map_other hpost' hpost
  have hnone : ∀ w ∈ mid, w.other = none := by
    intro w hw
    have hmem := List.mem_map_of_mem (f := Write.other) hw
    rw [hmid, List.map_map] at hmem
    obtain ⟨p, -, hp⟩ := List.mem_map.mp hmem
    exact hp.symm
  obtain ⟨accs', rfl⟩ := exists_accounts_of_other hnone
  refine ⟨accs', ?_, rfl⟩
  rw [List.perm_append_right_iff, List.perm_append_left_iff] at hperm
  exact (List.map_perm_map_iff setAccount_injective).mp hperm

/-- Writes of distinct accounts commute. -/
theorem writes_perm {accs accs' : List (Address × Account)} (hperm : accs'.Perm accs)
    (hnd : (accs.map Prod.fst).Nodup) (st : ChainState) :
    st.writes (accs'.map fun p => .setAccount p.1 p.2)
      = st.writes (accs.map fun p => .setAccount p.1 p.2) := by
  refine List.Perm.foldl_eq' (hperm.map _) ?_ st
  intro w hw v hv st
  obtain ⟨p, hp, rfl⟩ := List.mem_map.mp hw
  obtain ⟨q, hq, rfl⟩ := List.mem_map.mp hv
  by_cases heq : p.1 = q.1
  · have hpq : p = q := List.inj_on_of_nodup_map hnd (hperm.mem_iff.mp hp) (hperm.mem_iff.mp hq) heq
    rw [hpq]
  · simp only [ChainState.write, Function.update_comm heq]

/-- The writes of a commit after those of the accounts. -/
def Commit.pointers (m : Commit) : List Write :=
  m.removed.map .removeCanonicalHeight ++
    (m.canonical.map (fun p => .setCanonicalHeight p.1 p.2) ++ [.setTip m.tipHeight m.tipHash])

theorem Commit.other_pointers (m : Commit) : ∀ w ∈ m.pointers, w.other = some w := by
  intro w hw
  simp only [pointers, List.mem_append, List.mem_map, List.mem_singleton] at hw
  rcases hw with ⟨i, -, rfl⟩ | ⟨p, -, rfl⟩ | rfl <;> rfl

theorem other_storeWrites (hash : Hash256) (b : Block) (work : ℕ) :
    ∀ w ∈ storeWrites hash b work, w.other = some w := by
  intro w hw
  simp only [storeWrites, List.mem_cons, List.not_mem_nil, or_false] at hw
  rcases hw with rfl | rfl <;> rfl

/-- A shuffle of the writes of an accepted block has the same effect, and the tip is still
the last one. -/
theorem Shuffles.commit {hash : Hash256} {b : Block} {work : ℕ} {m : Commit} {ws : List Write}
    (hnd : (m.accounts.map Prod.fst).Nodup)
    (h : Shuffles (storeWrites hash b work ++ m.writes) ws) (st : ChainState) :
    st.writes ws = (st.writes (storeWrites hash b work)).writes m.writes ∧
      ∃ mid, ws = storeWrites hash b work ++ (mid ++ [.setTip m.tipHeight m.tipHash]) ∧
        ∀ w ∈ mid, ∀ st : ChainState,
          ((st.write w).blocks, (st.write w).tip) = (st.blocks, st.tip) := by
  have hsplit : storeWrites hash b work ++ m.writes = storeWrites hash b work ++
      m.accounts.map (fun p => .setAccount p.1 p.2) ++ m.pointers := by
    simp only [Commit.writes, Commit.pointers, List.append_assoc]
  rw [hsplit] at h
  obtain ⟨accs', hperm, rfl⟩ := h.split (other_storeWrites hash b work) m.other_pointers
  refine ⟨?_, accs'.map (fun p => .setAccount p.1 p.2) ++ (m.removed.map .removeCanonicalHeight ++
    m.canonical.map fun p => .setCanonicalHeight p.1 p.2), ?_, fun w hw st => ?_⟩
  · rw [← ChainState.writes_append, hsplit, ChainState.writes_append, ChainState.writes_append,
      ChainState.writes_append, ChainState.writes_append, writes_perm hperm hnd]
  · simp only [Commit.pointers, List.append_assoc]
  · simp only [List.mem_append, List.mem_map] at hw
    rcases hw with ⟨p, -, rfl⟩ | ⟨i, -, rfl⟩ | ⟨p, -, rfl⟩ <;> rfl

/-- An overlay has one entry per address. -/
theorem nodup_commitOf (overlay : Overlay) (a bs : BlockChain) (hash : Hash256) (height : UInt64) :
    ((commitOf overlay a bs hash height).accounts.map Prod.fst).Nodup := by
  rw [commitOf, List.map_map]
  exact overlay.keys_nodup

/-- A submission has one effect whatever the order of its account writes. -/
theorem Issued.writes (hc : ChainInv K g c) {b : Block} {ws : List Write}
    (h : Shuffles (c.submitBlock K b).writes ws) : c.state.writes ws = (c.submit K b).state := by
  have hstate : (c.submit K b).state = c.state.writes (c.submitBlock K b).writes := rfl
  obtain ⟨n, t, lo, hcan⟩ := hc.canonical
  rw [hstate]
  rcases submitBlock_writes hc hcan b with
    ⟨-, hws⟩ | ⟨lp, a, p, s, hpl, ⟨-, hws⟩ | ⟨overlay, -, -, hws⟩⟩
  · rw [hws] at h ⊢
    rw [List.perm_nil.mp h.1]
  · rw [hws] at h ⊢
    rw [eq_of_map_other h.2 (other_storeWrites _ _ _)]
  · rw [hws] at h ⊢
    rw [(Shuffles.commit (nodup_commitOf _ _ _ _ _) h c.state).1]
    exact (ChainState.writes_append _ _ _).symm

/-! ## Sound stores -/

theorem Sound.chainInv (hs : Sound K g c.state) (hgen : c.genesis = g)
    (hcache : c.datasetCache = none ∨ c.datasetCache = some (0, epochZeroDataset K)) :
    ChainInv K g c :=
  ⟨hgen, hcache, hs.stored, hs.canonical⟩

theorem Sound.consistent (hs : Sound K g st) : Consistent K g st := by
  obtain ⟨n, t, l, hcan⟩ := hs.canonical
  refine ⟨n, t, l, hcan, (hs.ledger n t l hcan).2, fun h hb => ?_⟩
  obtain ⟨b, hb⟩ := Option.isSome_iff_exists.mp hb
  obtain ⟨lb, hlb⟩ := hs.stored.exists_branch hb
  rw [hs.stored.work h _ hlb]
  rfl

/-- A well-formed block on a stored branch is in the store once it is submitted. -/
theorem isSome_submit (hc : ChainInv K g c) {b : Block} {l : BlockChain}
    (hl : Branch K g c.state b.header.prevHash l)
    (hok : BlockOk K g (l.map Prod.snd) (blockId K b) b) :
    ((c.submit K b).state.blocks (blockId K b)).isSome := by
  cases hknown : c.state.blocks (blockId K b) with
  | none => exact (Storable.branch_submit hc ⟨hknown, l, hl, hok⟩ hl).get_isSome
  | some x =>
    obtain ⟨lx, hlx⟩ := hc.stored.exists_branch hknown
    exact (hlx.submit hc b).get_isSome

theorem Sound.submit (hs : Sound K g c.state) (hgen : c.genesis = g)
    (hcache : c.datasetCache = none ∨ c.datasetCache = some (0, epochZeroDataset K)) {b : Block}
    (hroom : RoomFor K g c.state b) : Sound K g (c.submit K b).state where
  stored := ((hs.chainInv hgen hcache).submit b).stored
  canonical := ((hs.chainInv hgen hcache).submit b).canonical
  ledger := LedgerInv.submit (hs.chainInv hgen hcache) hs.ledger hroom
  heaviest := Heaviest.submit (hs.chainInv hgen hcache) hs.ledger hs.heaviest hroom

theorem Sound.unblocked (hs : Sound K g c.state) (hgen : c.genesis = g)
    (hcache : c.datasetCache = none ∨ c.datasetCache = some (0, epochZeroDataset K))
    {bs : List Block} (hroom : RoomForAll K g c bs) : Unblocked K g (c.resubmit K bs) := by
  induction bs generalizing c with
  | nil => exact ⟨fun b l hl hok => isSome_submit (hs.chainInv hgen hcache) hl hok, hs.heaviest⟩
  | cons b bs ih =>
    have hc := (hs.chainInv hgen hcache).submit b
    exact ih (hs.submit hgen hcache hroom.1) hc.genesis hc.cache hroom.2

/-- A directory recovers if opening leaves it sound. -/
theorem recovers_of_sound
    (hopen : ∀ ws, openWrites K g disk = .ok ws → Sound K g (disk.writes ws)) :
    Recovers K g disk where
  opens ps hps := by
    unfold Chain.openDb openWrites
    cases disk.tip with
    | some tip => exact ⟨_, rfl⟩
    | none =>
      simp only [initGenesis, hps]
      exact ⟨_, rfl⟩
  consistent c hc := by
    obtain ⟨ws, hws, rfl⟩ := openDb_cases hc
    exact (hopen ws hws).consistent
  unblocked c hc bs hroom := by
    obtain ⟨ws, hws, rfl⟩ := openDb_cases hc
    exact Sound.unblocked (c := ⟨disk.writes ws, g, none⟩) (hopen ws hws) rfl (.inl rfl) hroom

/-! ## Opening -/

theorem Sound.openWrites (hs : Sound K g disk) : openWrites K g disk = .ok [] := by
  obtain ⟨n, t, l, hcan⟩ := hs.canonical
  rw [Ondris.openWrites, hcan.tip]

theorem Untouched.openWrites (hu : Untouched K g disk) :
    openWrites K g disk = initGenesis K g disk := by
  rw [Ondris.openWrites, hu.fresh.tip]

theorem length_creditAll (st : ChainState) (ps : List (Address × UInt64)) :
    (creditAll st ps).length = ps.length := by
  induction ps generalizing st with
  | nil => rfl
  | cons p ps ih => rw [creditAll, List.length_cons, List.length_cons, ih]

theorem take_creditAll (st : ChainState) (ps : List (Address × UInt64)) (k : ℕ) :
    (creditAll st ps).take k = creditAll st (ps.take k) := by
  induction ps generalizing st k with
  | nil => simp [creditAll]
  | cons p ps ih =>
    cases k with
    | zero => rfl
    | succ k => rw [creditAll, List.take_succ_cons, ih, List.take_succ_cons, creditAll]

/-- `Chain::open` up to its end. -/
theorem Untouched.complete (hpremine : Bounded (2 ^ 64 - 1) g.openingLedger)
    (hu : Untouched K g disk) {ws : List Write} (hws : initGenesis K g disk = .ok ws) :
    Sound K g (disk.writes ws) := by
  obtain ⟨hstored, hcan, honly⟩ := initGenesis_canonical hu.fresh hws
  refine ⟨hstored, ⟨_, _, _, hcan⟩, fun n t l hcan' => ?_, .of_genesis hcan rfl honly⟩
  obtain ⟨-, -, rfl⟩ := hcan'.unique hcan
  refine ⟨⟨hpremine, trivial⟩, ?_⟩
  rw [initGenesis_ledger hpremine hu.ledger hws]
  rfl

/-- The keys of genesis, and accounts, may be written before the tip. -/
theorem Fresh.write (hd : Fresh K g disk) {w : Write}
    (hw : (∃ addr a, w = .setAccount addr a) ∨ (∃ work, w = .setChainwork (g.genesisHash K) work) ∨
      (∃ b, w = .storeBlock (g.genesisHash K) b) ∨ ∃ h, w = .setCanonicalHeight 0 h) :
    Fresh K g (disk.write w) := by
  obtain ⟨htip, hblocks, hwork, hheights⟩ := hd
  rcases hw with ⟨addr, a, rfl⟩ | ⟨work, rfl⟩ | ⟨b, rfl⟩ | ⟨h, rfl⟩
  · exact ⟨htip, hblocks, hwork, hheights⟩
  · refine ⟨htip, hblocks, fun h hne => ?_, hheights⟩
    exact (Function.update_of_ne hne _ _).trans (hwork h hne)
  · refine ⟨htip, fun h hne => ?_, hwork, hheights⟩
    exact (Function.update_of_ne hne _ _).trans (hblocks h hne)
  · refine ⟨htip, hblocks, hwork, fun i hne => ?_⟩
    exact (Function.update_of_ne hne _ _).trans (hheights i hne)

theorem Fresh.writes (hd : Fresh K g disk) {ws : List Write}
    (hw : ∀ w ∈ ws, (∃ addr a, w = .setAccount addr a) ∨
      (∃ work, w = .setChainwork (g.genesisHash K) work) ∨
      (∃ b, w = .storeBlock (g.genesisHash K) b) ∨ ∃ h, w = .setCanonicalHeight 0 h) :
    Fresh K g (disk.writes ws) := by
  induction ws generalizing disk with
  | nil => exact hd
  | cons w ws ih =>
    exact ih (hd.write (hw w List.mem_cons_self)) fun v hv => hw v (List.mem_cons_of_mem _ hv)

theorem length_premineParsed {ps : List (Address × UInt64)} (hpre : g.premineParsed = .ok ps) :
    ps.length = g.premine.length := by
  have hamounts := congrArg List.length (premineParsed_amounts hpre)
  rwa [List.length_map, List.length_map] at hamounts

/-- The first writes of genesis initialisation: credits, and keys of genesis but for the tip. -/
theorem initGenesis_take {ps : List (Address × UInt64)} (hpre : g.premineParsed = .ok ps) {k : ℕ}
    (hk : k < g.premine.length + 4) : ∃ ws, (creditAll disk ps ++ genesisWrites K g).take k
      = creditAll disk (ps.take k) ++ ws ∧ ∀ w ∈ ws,
        (∃ work, w = .setChainwork (g.genesisHash K) work) ∨
        (∃ b, w = .storeBlock (g.genesisHash K) b) ∨ ∃ h, w = .setCanonicalHeight 0 h := by
  have hlen := length_premineParsed hpre
  have hlast : genesisWrites K g = [Write.setChainwork (g.genesisHash K) (blockWork g.initialDifficulty),
      .storeBlock (g.genesisHash K) g.genesisBlock,
      .setCanonicalHeight 0 (g.genesisHash K)] ++ [.setTip 0 (g.genesisHash K)] := rfl
  have htake : (genesisWrites K g).take (k - ps.length)
      = [Write.setChainwork (g.genesisHash K) (blockWork g.initialDifficulty),
        .storeBlock (g.genesisHash K) g.genesisBlock,
        .setCanonicalHeight 0 (g.genesisHash K)].take (k - ps.length) := by
    rw [hlast, List.take_append_of_le_length]
    simp only [List.length_cons, List.length_nil]
    omega
  rw [List.take_append, length_creditAll, take_creditAll, htake]
  refine ⟨_, rfl, fun w hw => ?_⟩
  have hmem := List.mem_of_mem_take hw
  simp only [List.mem_cons, List.not_mem_nil, or_false] at hmem
  rcases hmem with rfl | rfl | rfl
  · exact .inl ⟨_, rfl⟩
  · exact .inr (.inl ⟨_, rfl⟩)
  · exact .inr (.inr ⟨_, rfl⟩)

/-- The disk after a crash in genesis initialisation: no tip, and the credits made so far. -/
theorem Untouched.cut (hu : Untouched K g disk) {ps : List (Address × UInt64)}
    (hpre : g.premineParsed = .ok ps) {ws : List Write} (hws : initGenesis K g disk = .ok ws)
    {k : ℕ} (hk : k < g.premine.length + 4) : Fresh K g (disk.writes (ws.take k)) ∧
      ∀ addr, (disk.writes (ws.take k)).ledger addr
        = ⟨min ((disk.ledger addr).balance + creditedTo (ps.take k) addr) (2 ^ 64 - 1), 0⟩ := by
  obtain ⟨ps', hpre', rfl⟩ := initGenesis_cases hws
  obtain rfl : ps = ps' := Except.ok.inj (hpre.symm.trans hpre')
  obtain ⟨rest, htake, hrest⟩ := initGenesis_take hpre hk
  rw [htake]
  refine ⟨hu.fresh.writes fun w hw => ?_, fun addr => ?_⟩
  · rcases List.mem_append.mp hw with hw | hw
    · exact .inl (mem_creditAll hw)
    · exact .inr (hrest w hw)
  · have hframe : (disk.writes (creditAll disk (ps.take k) ++ rest)).ledger
        = (disk.writes (creditAll disk (ps.take k))).ledger := by
      rw [ChainState.writes_append]
      refine ChainState.writes_frame (·.ledger) (fun st w hw => ?_) _
      rcases hrest w hw with ⟨_, rfl⟩ | ⟨_, rfl⟩ | ⟨_, rfl⟩ <;> rfl
    rw [hframe, creditAll_ledger, (hu.ledger addr).1]

/-- What is credited at a safe point does not matter. -/
theorem SafeStart.takesPremine {ps : List (Address × UInt64)} (hpre : g.premineParsed = .ok ps)
    {k : ℕ} (hk : k < g.premine.length + 4) (hsafe : SafeStart g k) (addr : Address) :
    creditedTo (ps.take k) addr = 0 ∨ (g.openingLedger addr).balance = 2 ^ 64 - 1 := by
  by_cases hfull : (g.openingLedger addr).balance = 2 ^ 64 - 1
  · exact .inr hfull
  · refine .inl (List.sum_eq_zero_iff.mpr fun x hx => ?_)
    obtain ⟨p, hp, rfl⟩ := List.mem_map.mp hx
    by_cases haddr : p.1 = addr
    · rw [if_pos haddr]
      rcases hsafe with hge | hall
      · exact absurd hk (Nat.not_lt.mpr hge)
      · exact (hall ps hpre p hp).resolve_right fun h => hfull (haddr ▸ h)
    · exact if_neg haddr

/-- `Chain::open` up to a crash at a safe point before its last write. -/
theorem Untouched.cut_safe (hu : Untouched K g disk) {ws : List Write}
    (hws : initGenesis K g disk = .ok ws) {k : ℕ} (hk : k < g.premine.length + 4)
    (hsafe : SafeStart g k) : Untouched K g (disk.writes (ws.take k)) := by
  obtain ⟨ps, hpre, -⟩ := initGenesis_cases hws
  obtain ⟨hfresh, hledger⟩ := hu.cut hpre hws hk
  refine ⟨hfresh, fun addr => ?_⟩
  rw [hledger addr]
  refine ⟨rfl, ?_⟩
  rcases (hu.ledger addr).2 with hzero | hfull
  · rcases hsafe.takesPremine hpre hk addr with hnone | hfull
    · left
      rw [hzero, hnone]
      exact Nat.zero_min _
    · exact .inr hfull
  · exact .inr hfull

/-- All of the writes of `Chain::open`. -/
theorem length_initGenesis {ws : List Write} (hws : initGenesis K g disk = .ok ws) :
    ws.length = g.premine.length + 4 := by
  obtain ⟨ps, hpre, rfl⟩ := initGenesis_cases hws
  rw [List.length_append, length_creditAll, length_premineParsed hpre]
  rfl

/-! ## Submissions -/

/-- `submit_block` up to a crash at a safe point. -/
theorem Sound.cut (hs : Sound K g c.state) (hgen : c.genesis = g)
    (hcache : c.datasetCache = none ∨ c.datasetCache = some (0, epochZeroDataset K)) {b : Block}
    (hroom : RoomFor K g c.state b) {ws : List Write}
    (hws : Shuffles (c.submitBlock K b).writes ws) {k : ℕ} (hcut : SafeCut ws k) :
    Sound K g (c.state.writes (ws.take k)) := by
  rcases hcut with rfl | hlast
  · exact hs
  · rw [List.take_of_length_le hlast, Issued.writes (hs.chainInv hgen hcache) hws]
    exact hs.submit hgen hcache hroom

/-! ## Runs -/

theorem HostInv.step (hpremine : Bounded (2 ^ 64 - 1) g.openingLedger) {host : Host}
    {event : HostEvent} (hissued : Issued K host event) (hharmless : Harmless K g host event)
    (hinv : HostInv K g host) : HostInv K g (host.step K g event) := by
  cases host with
  | up c =>
    obtain ⟨hgen, hcache, hs⟩ := hinv
    cases event with
    | start cut => exact ⟨hgen, hcache, hs⟩
    | stop => exact .inr hs
    | submit b ws cut =>
      obtain ⟨hroom, hcut⟩ := hharmless
      cases cut with
      | some k => exact .inr (hs.cut hgen hcache hroom hissued (hcut k rfl))
      | none =>
        refine ⟨hgen, submitBlock_cache (hs.chainInv hgen hcache) b, ?_⟩
        show Sound K g (c.state.writes ws)
        rw [Issued.writes (hs.chainInv hgen hcache) hissued]
        exact hs.submit hgen hcache hroom
  | down disk =>
    cases event with
    | submit b ws cut => exact hinv
    | stop => exact hinv
    | start cut =>
      show HostInv K g (Host.opened K g disk cut)
      rcases hinv with hu | hs
      · unfold Host.opened
        rw [hu.openWrites]
        cases hws : initGenesis K g disk with
        | error e => exact .inl hu
        | ok ws =>
          cases cut with
          | none => exact ⟨rfl, .inl rfl, hu.complete hpremine hws⟩
          | some k =>
            -- the tip is the last write of the genesis
            rcases Nat.lt_or_ge k (g.premine.length + 4) with hk | hk
            · rcases hharmless with htip | hsafe
              · rw [hu.fresh.tip] at htip
                cases htip
              · exact .inl (hu.cut_safe hws hk hsafe)
            · refine .inr ?_
              rw [List.take_of_length_le (by rw [length_initGenesis hws]; exact hk)]
              exact hu.complete hpremine hws
      · unfold Host.opened
        rw [hs.openWrites]
        cases cut with
        | none => exact ⟨rfl, .inl rfl, hs⟩
        | some k =>
          refine .inr (show Sound K g (disk.writes (List.take k [])) from ?_)
          rw [List.take_nil]
          exact hs

theorem Sound.recovers (hs : Sound K g disk) : Recovers K g disk := by
  refine recovers_of_sound fun ws hws => ?_
  rw [hs.openWrites] at hws
  cases hws
  exact hs

theorem Untouched.recovers (hpremine : Bounded (2 ^ 64 - 1) g.openingLedger)
    (hu : Untouched K g disk) : Recovers K g disk := by
  refine recovers_of_sound fun ws hws => hu.complete hpremine ?_
  rw [← hu.openWrites]
  exact hws

theorem HostInv.recovers (hpremine : Bounded (2 ^ 64 - 1) g.openingLedger)
    {host : Host} (hinv : HostInv K g host) : Recovers K g host.disk := by
  cases host with
  | up c => exact hinv.2.2.recovers
  | down disk =>
    rcases hinv with hu | hs
    · exact hu.recovers hpremine
    · exact hs.recovers

/-! ## Single crashes -/

theorem le_creditedTo {ps : List (Address × UInt64)} {p : Address × UInt64} (hp : p ∈ ps) :
    p.2.toNat ≤ creditedTo ps p.1 := by
  have hmem := List.mem_map_of_mem (f := fun q => if q.1 = p.1 then q.2.toNat else 0) hp
  simp only [if_pos] at hmem
  exact List.le_sum_of_mem hmem

/-- A crash in genesis initialisation does no harm exactly at the safe points: after a
credit of an amount the account is credited twice. -/
theorem recovers_start_iff (hpremine : Bounded (2 ^ 64 - 1) g.openingLedger)
    (hu : Untouched K g disk) {ws : List Write} (hws : initGenesis K g disk = .ok ws) (k : ℕ) :
    Recovers K g (disk.writes (ws.take k)) ↔ SafeStart g k := by
  constructor
  · intro hrec
    by_contra hnot
    obtain ⟨hk, hunsafe⟩ := not_or.mp hnot
    push Not at hk hunsafe
    obtain ⟨ps, hpre, p, hp, hamount, hpart⟩ := hunsafe
    obtain ⟨hfresh, hledger⟩ := hu.cut hpre hws hk
    obtain ⟨c, hc⟩ := hrec.opens ps hpre
    obtain ⟨n, t, l, hcan, hreplay, -⟩ := hrec.consistent c hc
    obtain ⟨ws', hws', rfl⟩ := openDb_cases hc
    have hinit : initGenesis K g (disk.writes (ws.take k)) = .ok ws' := by
      rw [← hws', openWrites, hfresh.tip]
    obtain ⟨-, -, rfl⟩ := hcan.unique (initGenesis_canonical hfresh hinit).2.1
    have hafter := congrFun (Option.some.inj hreplay) p.1
    rw [ledger_initGenesis hinit, hledger] at hafter
    have hbal := congrArg Holding.balance hafter
    have hcredit := le_creditedTo hp
    have hle := hpremine p.1
    simp only at hbal
    omega
  · intro hsafe
    rcases Nat.lt_or_ge k (g.premine.length + 4) with hk | hk
    · exact (hu.cut_safe hws hk hsafe).recovers hpremine
    · rw [List.take_of_length_le (by rw [length_initGenesis hws]; exact hk)]
      exact (hu.complete hpremine hws).recovers

/-- What a crash within a submission leaves: the block without its work, or the block of
a heavier branch that replays, under the old tip. -/
theorem Issued.cut (hc : ChainInv K g c) {b : Block} {ws : List Write}
    (h : Shuffles (c.submitBlock K b).writes ws) {k : ℕ} (hpos : 0 < k) (hk : k < ws.length) :
    ∃ n t lo lp a p s, Canonical K g c.state n t lo ∧ Placement K g c.state lo b lp a p s ∧
      (c.state.writes (ws.take k) = c.state.write (.storeBlock (blockId K b) b) ∨
        branchWork lo < branchWork ((blockId K b, b) :: lp) ∧
        (∃ overlay, simulate K g c.state a p = .ok overlay) ∧
        (c.state.writes (ws.take k)).blocks = (stateWith K c.state b lp).blocks ∧
        (c.state.writes (ws.take k)).tip = c.state.tip) := by
  obtain ⟨n, t, lo, hcan⟩ := hc.canonical
  have hone : ∀ (work : ℕ) (rest : List Write), c.state.writes
      ((storeWrites (blockId K b) b work ++ rest).take 1)
        = c.state.write (.storeBlock (blockId K b) b) := fun _ _ => rfl
  rcases submitBlock_writes hc hcan b with
    ⟨-, hws⟩ | ⟨lp, a, p, s, hpl, ⟨-, hws⟩ | ⟨overlay, hwork, hsim, hws⟩⟩
  · rw [hws] at h
    rw [List.perm_nil.mp h.1] at hk
    exact absurd hk (Nat.not_lt_zero k)
  · rw [hws] at h
    obtain rfl := eq_of_map_other h.2 (other_storeWrites _ _ _)
    have hlen : k < 2 := hk
    obtain rfl : k = 1 := by omega
    refine ⟨n, t, lo, lp, a, p, s, hcan, hpl, .inl ?_⟩
    rw [← List.append_nil (storeWrites _ _ _)]
    exact hone _ []
  · rw [hws] at h
    obtain ⟨-, mid, rfl, hmid⟩ := Shuffles.commit (nodup_commitOf _ _ _ _ _) h c.state
    refine ⟨n, t, lo, lp, a, p, s, hcan, hpl, ?_⟩
    rcases Nat.lt_or_ge k 2 with hone' | htwo
    · obtain rfl : k = 1 := by omega
      exact .inl (hone _ _)
    · -- the block and its work are there, and the tip is still to come
      obtain ⟨j, rfl⟩ := Nat.exists_eq_add_of_le htwo
      have hj : j ≤ mid.length := by
        simp only [storeWrites, List.length_append, List.length_cons, List.length_nil] at hk
        omega
      have htake : (storeWrites (blockId K b) b (branchWork ((blockId K b, b) :: lp)) ++
          (mid ++ [Write.setTip b.header.height (blockId K b)])).take (2 + j)
          = storeWrites (blockId K b) b (branchWork ((blockId K b, b) :: lp)) ++ mid.take j := by
        have hmore : (mid ++ [Write.setTip b.header.height (blockId K b)]).take j = mid.take j :=
          List.take_append_of_le_length hj
        rw [List.take_append, List.take_of_length_le (by simp [storeWrites]), ← hmore]
        simp [storeWrites]
      have hframe : ((c.state.writes (storeWrites (blockId K b) b
          (branchWork ((blockId K b, b) :: lp)) ++ mid.take j)).blocks,
          (c.state.writes (storeWrites (blockId K b) b
          (branchWork ((blockId K b, b) :: lp)) ++ mid.take j)).tip)
          = ((stateWith K c.state b lp).blocks, c.state.tip) := by
        rw [ChainState.writes_append]
        exact ChainState.writes_frame (fun st => (st.blocks, st.tip))
          (fun st w hw => hmid w (List.mem_of_mem_take hw) st) (stateWith K c.state b lp)
      obtain ⟨hblocks, htip⟩ := Prod.mk.inj hframe
      rw [← htake] at hblocks htip
      exact .inr ⟨hwork, ⟨overlay, hsim⟩, hblocks, htip⟩

/-- A crash within a submission does no harm exactly before the first write and after the
last: in between the block lacks its work, or is known and not taken up. -/
theorem recovers_submit_iff (hs : Sound K g c.state) (hgen : c.genesis = g)
    (hcache : c.datasetCache = none ∨ c.datasetCache = some (0, epochZeroDataset K)) {b : Block}
    (hroom : RoomFor K g c.state b) {ws : List Write}
    (hws : Shuffles (c.submitBlock K b).writes ws) (k : ℕ) :
    Recovers K g (c.state.writes (ws.take k)) ↔ SafeCut ws k := by
  have hc := hs.chainInv hgen hcache
  constructor
  · intro hrec
    by_contra hnot
    obtain ⟨hpos, hk⟩ := not_or.mp hnot
    obtain ⟨n, t, lo, lp, a, p, s, hcan, hpl, hcut⟩ :=
      Issued.cut hc hws (Nat.pos_of_ne_zero hpos) (Nat.lt_of_not_le hk)
    generalize hdisk : c.state.writes (ws.take k) = disk at hrec hcut
    have htip : disk.tip = some (n, t) := by
      rcases hcut with hone | ⟨-, -, -, htip⟩
      · rw [hone]
        exact hcan.tip
      · rw [htip]
        exact hcan.tip
    have hopen := openDb_of_tip (K := K) (g := g) htip
    obtain ⟨n', t', l', hcan', -, hwork'⟩ := hrec.consistent _ hopen
    rcases hcut with hone | ⟨hwork, ⟨overlay, hsim⟩, hblocks, -⟩
    · -- the block is stored, its work is not
      have hstored : (disk.blocks (blockId K b)).isSome := by
        rw [hone]
        show (Function.update c.state.blocks (blockId K b) (some b) (blockId K b)).isSome
        rw [Function.update_self]
        rfl
      have hsome := hwork' _ hstored
      rw [hone] at hsome
      have hold := hs.stored.workOnly _ hsome
      rw [hpl.new] at hold
      cases hold
    · obtain ⟨-, rfl⟩ := Prod.mk.inj (Option.some.inj (htip.symm.trans hcan'.tip))
      have hbranch' : Branch K g (stateWith K c.state b lp) t l' := by
        have h := hcan'.branch
        rwa [Branch, hblocks] at h
      obtain rfl := hbranch'.unique (hpl.canonical_stored hcan).branch
      have hnew : Branch K g disk (blockId K b) ((blockId K b, b) :: lp) := by
        rw [Branch, hblocks]
        exact hpl.branch hs.stored
      have hreplay := hpl.simulate_ledger hc hs.ledger hcan
        (hroom hpl.storable n t l' lp hcan hpl.parent hwork)
      rw [hsim] at hreplay
      have hheavy := (hrec.unblocked _ hopen [] trivial).heaviest n' t l' hcan' _ _ hnew
        (by rw [← hreplay]; rfl)
      exact absurd hwork (Nat.not_lt.mpr hheavy)
  · intro hsafe
    exact (hs.cut hgen hcache hroom hws hsafe).recovers

/-! ## All crashes of a run -/

/-- **In every run whose crashes all come at a safe point the directory recovers.** -/
theorem crash_recovery (hpremine : Bounded (2 ^ 64 - 1) g.openingLedger) {host : Host}
    (hhost : (hostMachine K g).Reach (fun s i => Issued K s i ∧ Harmless K g s i) host) :
    Recovers K g host.disk := by
  refine HostInv.recovers hpremine ?_
  refine Machine.Reach.invariant (P := HostInv K g) (fun s hinit => ?_)
    (fun s i _ hguard ih => ih.step hpremine hguard.1 hguard.2) hhost
  obtain rfl := hinit
  exact .inl ⟨fresh_empty, takesPremine_empty⟩

theorem step_start {c : Chain} (hopen : Chain.openDb K g disk = .ok c) :
    (hostMachine K g).step (.down disk) (.start none) = .up c := by
  obtain ⟨ws, hws, rfl⟩ := openDb_cases hopen
  show Host.opened K g disk none = _
  unfold Host.opened
  rw [hws]

theorem step_start_cut {ws : List Write} (hws : openWrites K g disk = .ok ws) (k : ℕ) :
    (hostMachine K g).step (.down disk) (.start (some k)) = .down (disk.writes (ws.take k)) := by
  show Host.opened K g disk (some k) = _
  unfold Host.opened
  rw [hws]

/-- The process dies before the first write of the block that moves the tip to the other
branch, and when that is handed in again, right after the last. -/
theorem crash_recovery_reorg : Recovers smallCrates reorgGenesis
    (Chain.submit smallCrates ⟨reorgChain₂.state, reorgGenesis, none⟩ reorgC).state := by
  let M := hostMachine smallCrates reorgGenesis
  let G := fun s i => Issued smallCrates s i ∧ Harmless smallCrates reorgGenesis s i
  have hinv₀ : ChainInv smallCrates reorgGenesis reorgOpen := chainInv (.init init_reorg)
  have hpremine := (hasRoom_of_bound supplyBound_reorg hinv₀.stored
    canonical_reorgOpen.1.branch).premine
  have hsubmit : ∀ {c : Chain} (b : Block) (cut : Option ℕ),
      ChainInv smallCrates reorgGenesis c → M.Reach G (.up c) →
      (∀ k, cut = some k → SafeCut (c.submitBlock smallCrates b).writes k) →
      M.Reach G (M.step (.up c) (.submit b (c.submitBlock smallCrates b).writes cut)) :=
    fun b _ hc hreach hcut => hreach.step _
      ⟨⟨.refl _, rfl⟩, roomFor_of_bound supplyBound_reorg hc b, hcut⟩
  have hnone : ∀ {ws : List Write}, ∀ k, none = some k → SafeCut ws k := fun k hk => by cases hk
  have hopen : M.Reach G (.up reorgOpen) := by
    have hstep := Machine.Reach.step (M := M) (G := G) (HostEvent.start none) (.init rfl)
      ⟨trivial, trivial⟩
    rwa [step_start init_reorg] at hstep
  have hchain₂ : M.Reach G (.up reorgChain₂) :=
    hsubmit reorgB none (chainInv reachable_reorg₁) (hsubmit reorgA none hinv₀ hopen hnone) hnone
  have hdown : M.Reach G (.down reorgChain₂.state) :=
    hsubmit reorgC (some 0) (chainInv reachable_reorg₂) hchain₂ fun k hk =>
      .inl (Option.some.inj hk).symm
  have hinv₂ := chainInv reachable_reorg₂
  have hagain : M.Reach G (.up ⟨reorgChain₂.state, reorgGenesis, none⟩) := by
    have hstep := hdown.step (HostEvent.start none) ⟨trivial, trivial⟩
    rwa [step_start (openDb_of_tip reorgChain₂_canonical.1.tip)] at hstep
  generalize hc : Chain.mk reorgChain₂.state reorgGenesis none = c at hagain
  have hinv : ChainInv smallCrates reorgGenesis c := by
    rw [← hc]
    exact ⟨rfl, .inl rfl, hinv₂.stored, hinv₂.canonical⟩
  have hend := hsubmit reorgC (some (c.submitBlock smallCrates reorgC).writes.length) hinv hagain
    fun k hk => .inr (Option.some.inj hk).le
  have hdisk : M.step (.up c) (.submit reorgC (c.submitBlock smallCrates reorgC).writes
      (some (c.submitBlock smallCrates reorgC).writes.length))
        = .down (c.submit smallCrates reorgC).state := by
    show Host.down (c.state.writes (List.take _ _)) = _
    rw [List.take_length]
    rfl
  rw [hdisk] at hend
  exact crash_recovery hpremine hend

/-- The disk after a first start that dies right after the premine credit. -/
def creditedDisk : ChainState := ChainState.empty.writes (smallOpening.take 1)

/-- The premine is credited twice when the first start died after its first
write. -/
theorem not_recovers_small : SupplyBound smallGenesis ∧
    (hostMachine smallCrates smallGenesis).Reach (Issued smallCrates) (.down creditedDisk) ∧
    ¬ Recovers smallCrates smallGenesis creditedDisk := by
  have hreach : (hostMachine smallCrates smallGenesis).Reach (Issued smallCrates)
      (.down creditedDisk) := by
    have hstep := Machine.Reach.step (M := hostMachine smallCrates smallGenesis)
      (G := Issued smallCrates) (HostEvent.start (some 1)) (.init rfl) trivial
    rwa [step_start_cut openWrites_small] at hstep
  refine ⟨supplyBound_small, hreach, fun hrec => ?_⟩
  obtain ⟨c, hc⟩ := hrec.opens _ premineParsed_small
  obtain ⟨n, t, l, hcan, hledger, -⟩ := hrec.consistent c hc
  obtain ⟨ws, hws, rfl⟩ := openDb_cases hc
  have hfresh : Fresh smallCrates smallGenesis creditedDisk :=
    fresh_empty.write (.inl ⟨_, _, rfl⟩)
  have hcan₀ := (initGenesis_canonical hfresh hws).2.1
  obtain ⟨-, -, rfl⟩ := hcan.unique hcan₀
  have hafter : (creditedDisk.writes ws).getAccount premineAddress = ⟨14, 0⟩ := by
    have hinit : initGenesis smallCrates smallGenesis creditedDisk = .ok ws := hws
    rw [initGenesis, premineParsed_small] at hinit
    rw [← Except.ok.inj hinit]
    rfl
  have hbefore : smallGenesis.openingLedger premineAddress = ⟨7, 0⟩ := by
    rw [GenesisConfig.openingLedger, premineParsed_small]
    rfl
  have heq := congrFun (Option.some.inj hledger) premineAddress
  rw [ChainState.ledger, hafter] at heq
  have hbal := congrArg Holding.balance (hbefore.symm.trans heq)
  cases hbal

end Ondris
