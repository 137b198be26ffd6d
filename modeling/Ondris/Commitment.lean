import Ondris.Instance

/-!
# What a block identifier commits to

The identifier of a block is a hash of the header and the header contains a hash
of the transactions. If the hash has no collision among the byte strings that
two blocks feed into it, equal identifiers mean equal headers and transaction
lists that agree up to the repetitions with which the Merkle tree is filled up.

Results:
1. `bytesForPow_injective`, `toJson_injective`: the hashed bytes determine the
   header and the transaction.
2. `header_eq_of_id_eq`: the identifier determines the header.
3. `padded_eq_of_root_eq`: the transaction root determines the padded list.
4. `block_commitment`: both together.
-/

namespace Ondris

open Encoding MerkleTree

/-! ## Definitions -/

/-- The hash has no collision among the inputs, and none of them hashes to
`Hash256::ZERO`, which stands for the empty list. -/
structure CollisionFree (K : Crates) (inputs : Set Bytes) : Prop where
  inj : Set.InjOn (Hash256.hash K) inputs
  ne_zero : ∀ x ∈ inputs, Hash256.hash K x ≠ Hash256.zero

/-- What the proof of work of a header hashes: the attempt, then its seed with the
mix. -/
def powInputs (K : Crates) (dataset : Dataset) (h : BlockHeader) : Set Bytes :=
  { h.bytesForPow ++ le64 h.nonce,
    (attemptSeed K h.bytesForPow h.nonce).asBytes ++
      attemptMix K (attemptSeed K h.bytesForPow h.nonce) dataset accesses }

/-- What the Merkle root of a list of transactions hashes: the transactions, and
the pairs of neighbours on every level. -/
def rootInputs (K : Crates) (txs : List Transaction) : Set Bytes :=
  { x | ∃ tx ∈ txs, x = tx.toJson } ∪
  { x | ∃ t, treeOf (txs.map (·.hash K)) = some t ∧
    ∃ p ∈ t.pairs (merkleCombine K), x = p.1.asBytes ++ p.2.asBytes }

/-- Everything hashed for the identifier and the transaction root of a block. -/
def hashInputs (K : Crates) (dataset : Dataset) (b : Block) : Set Bytes :=
  powInputs K dataset b.header ∪ rootInputs K b.transactions.val

variable {K : Crates}

theorem CollisionFree.mono {I J : Set Bytes} (h : CollisionFree K J) (hsub : I ⊆ J) :
    CollisionFree K I :=
  ⟨h.inj.mono hsub, fun x hx => h.ne_zero x (hsub hx)⟩

/-! ## Encodings -/

/-- The header bytes determine everything but the nonce. -/
theorem bytesForPow_injective {h h' : BlockHeader} (heq : h.bytesForPow = h'.bytesForPow)
    (hnonce : h.nonce = h'.nonce) : h = h' := by
  unfold BlockHeader.bytesForPow at heq
  obtain ⟨heq, hminer⟩ := List.append_inj heq (by simp)
  obtain ⟨heq, hdiff⟩ := List.append_inj heq (by simp)
  obtain ⟨heq, htime⟩ := List.append_inj heq (by simp)
  obtain ⟨heq, hroot⟩ := List.append_inj heq (by simp)
  obtain ⟨hheight, hprev⟩ := List.append_inj heq (by simp)
  cases h
  cases h'
  simp only at hnonce hheight hprev hroot htime hdiff hminer
  rw [hnonce, le64_injective hheight, Hash256.asBytes_injective hprev,
    Hash256.asBytes_injective hroot, le64_injective htime, le64_injective hdiff,
    Address.asBytes_injective hminer]

/-- The JSON of a signature, up to what ends the object. -/
theorem signatureJson_append_inj {s s' : Option Signature} {r r' : Bytes}
    (h : Transaction.signatureJson s ++ r = Transaction.signatureJson s' ++ r') : s = s' ∧ r = r' := by
  have hquote : ∀ sig (r r' : Bytes), Transaction.signatureJson none ++ r
      ≠ Transaction.signatureJson (some sig) ++ r' :=
    fun sig r r' heq => absurd (List.cons.inj heq).1 (by decide)
  cases s with
  | none =>
    cases s' with
    | none => exact ⟨rfl, (List.append_inj h rfl).2⟩
    | some sig' => exact absurd h (hquote sig' r r')
  | some sig =>
    cases s' with
    | none => exact absurd h.symm (hquote sig r' r)
    | some sig' =>
      have hlen : ∀ x : Signature, (Transaction.signatureJson (some x)).length = 130 := by
        intro x
        simp [Transaction.signatureJson, ascii]
      obtain ⟨heq, hrest⟩ := List.append_inj h ((hlen sig).trans (hlen sig').symm)
      have hhex := (List.append_inj (List.append_inj_left' heq rfl) rfl).2
      rw [Signature.asBytes_injective (hexEncode_injective hhex)]
      exact ⟨rfl, hrest⟩

/-- The JSON of a transaction determines it, and where it ends: the texts have fixed lengths and
a comma ends each number. -/
theorem toJson_append_inj {tx tx' : Transaction} {r r' : Bytes}
    (h : tx.toJson ++ r = tx'.toJson ++ r') : tx = tx' ∧ r = r' := by
  unfold Transaction.toJson at h
  simp only [List.append_assoc] at h
  have hcomma : (44 : UInt8) < 48 ∨ 57 < (44 : UInt8) := by decide
  obtain ⟨-, h⟩ := List.append_inj h rfl
  obtain ⟨hfrom, h⟩ := List.append_inj h (by simp)
  obtain ⟨-, h⟩ := List.append_inj h rfl
  obtain ⟨hto, h⟩ := List.append_inj h (by simp [Address.display])
  obtain ⟨-, h⟩ := List.append_inj h rfl
  obtain ⟨hamount, h⟩ := decimal_append_inj hcomma h
  obtain ⟨-, h⟩ := List.append_inj h rfl
  obtain ⟨hfee, h⟩ := decimal_append_inj hcomma h
  obtain ⟨-, h⟩ := List.append_inj h rfl
  obtain ⟨hnonce, h⟩ := decimal_append_inj hcomma h
  obtain ⟨-, h⟩ := List.append_inj h rfl
  obtain ⟨hsig, h⟩ := signatureJson_append_inj h
  obtain ⟨-, hrest⟩ := List.append_inj h rfl
  have hto' := (List.append_inj hto rfl).2
  refine ⟨?_, hrest⟩
  cases tx
  cases tx'
  simp only at hfrom hto' hamount hfee hnonce hsig
  rw [PublicKey.asBytes_injective (hexEncode_injective hfrom),
    Address.asBytes_injective (hexEncode_injective hto'), UInt64.toNat_inj.mp hamount,
    UInt64.toNat_inj.mp hfee, UInt64.toNat_inj.mp hnonce, hsig]

theorem toJson_injective {tx tx' : Transaction} (h : tx.toJson = tx'.toJson) : tx = tx' :=
  (toJson_append_inj (congrArg (· ++ []) h)).1

/-- No transaction is as short as a pair of hashes. -/
theorem length_toJson_gt (tx : Transaction) : 64 < tx.toJson.length := by
  have hprefix : (ascii "\x7b\"from\":\"").length = 9 := rfl
  unfold Transaction.toJson
  simp only [List.length_append, hprefix, length_hexEncode, PublicKey.length_asBytes]
  omega

/-! ## The header -/

/-- The identifier determines the header. -/
theorem header_eq_of_id_eq {dataset : Dataset} {h h' : BlockHeader}
    (hcf : CollisionFree K (powInputs K dataset h ∪ powInputs K dataset h'))
    (hid : h.id K dataset = h'.id K dataset) : h = h' := by
  simp only [BlockHeader.id, ondrisHash_eq] at hid
  have hfinal := hcf.inj (.inl (.inr rfl)) (.inr (.inr rfl)) hid
  have hseed := Hash256.asBytes_injective (List.append_inj hfinal (by simp)).1
  have hattempt := hcf.inj (.inl (.inl rfl)) (.inr (.inl rfl)) hseed
  obtain ⟨hbytes, hnonce⟩ := List.append_inj hattempt (by simp)
  exact bytesForPow_injective hbytes (le64_injective hnonce)

/-! ## The transactions -/

/-- The root of a non-empty list is a hash. -/
theorem root_ne_zero {txs : List Transaction} (hcf : CollisionFree K (rootInputs K txs))
    (hne : txs ≠ []) : merkleRoot K (txs.map (·.hash K)) ≠ Hash256.zero := by
  obtain ⟨t, ht⟩ := treeOf_isSome (l := txs.map (·.hash K)) (by simpa using hne)
  rw [merkleRoot, reduce_map_fold, ht]
  cases t with
  | leaf a =>
    have ha : a ∈ txs.map (·.hash K) := (treeOf_spec ht).2.2 a (by simp [BinTree.leaves])
    obtain ⟨tx, htx, rfl⟩ := List.mem_map.mp ha
    exact hcf.ne_zero _ (.inl ⟨tx, htx, rfl⟩)
  | node l r => exact hcf.ne_zero _ (.inr ⟨_, ht, _, List.mem_cons_self, rfl⟩)

/-- Lists with equal images are equal when the map tells their elements apart. -/
theorem eq_of_map_eq {α β : Type} {f : α → β} {l l' : List α}
    (hinj : ∀ a ∈ l, ∀ b ∈ l', f a = f b → a = b) (h : l.map f = l'.map f) : l = l' := by
  induction l generalizing l' with
  | nil => exact (List.map_eq_nil_iff.mp h.symm).symm
  | cons a l ih =>
    cases l' with
    | nil => cases h
    | cons b l' =>
      obtain ⟨hhead, htail⟩ := List.cons.inj h
      have hab := hinj a List.mem_cons_self b List.mem_cons_self hhead
      have hll := ih (fun c hc d hd => hinj c (List.mem_cons_of_mem _ hc) d (List.mem_cons_of_mem _ hd))
        htail
      rw [hab, hll]

/-- The transaction root determines the padded list of transactions. -/
theorem padded_eq_of_root_eq {txs txs' : List Transaction}
    (hcf : CollisionFree K (rootInputs K txs ∪ rootInputs K txs'))
    (hroot : merkleRoot K (txs.map (·.hash K)) = merkleRoot K (txs'.map (·.hash K))) :
    padded txs = padded txs' := by
  by_cases hnil : txs = []
  · by_cases hnil' : txs' = []
    · rw [hnil, hnil']
    · rw [hnil, List.map_nil, merkleRoot_nil] at hroot
      exact absurd hroot.symm (root_ne_zero (hcf.mono Set.subset_union_right) hnil')
  by_cases hnil' : txs' = []
  · rw [hnil', List.map_nil, merkleRoot_nil] at hroot
    exact absurd hroot (root_ne_zero (hcf.mono Set.subset_union_left) hnil)
  -- both roots are folds of trees over the padded lists
  obtain ⟨t, ht⟩ := treeOf_isSome (l := txs.map (·.hash K)) (by simpa using hnil)
  obtain ⟨t', ht'⟩ := treeOf_isSome (l := txs'.map (·.hash K)) (by simpa using hnil')
  simp only [merkleRoot, reduce_map_fold, ht, ht', Option.map_some, Option.getD_some] at hroot
  have hleaf : ∀ l : List Transaction, (∀ tx ∈ l, tx ∈ txs ∨ tx ∈ txs') → ∀ u, treeOf (l.map (·.hash K)) = some u →
      ∀ a ∈ u.leaves, ∃ tx, (tx ∈ txs ∨ tx ∈ txs') ∧ a = tx.hash K := by
    intro l hl u hu a ha
    obtain ⟨tx, htx, rfl⟩ := List.mem_map.mp ((treeOf_spec hu).2.2 a ha)
    exact ⟨tx, hl tx htx, rfl⟩
  have hjson : ∀ tx, (tx ∈ txs ∨ tx ∈ txs') → tx.toJson ∈ rootInputs K txs ∪ rootInputs K txs' := by
    rintro tx (htx | htx)
    · exact .inl (.inl ⟨tx, htx, rfl⟩)
    · exact .inr (.inl ⟨tx, htx, rfl⟩)
  have htree : t = t' := by
    refine BinTree.fold_injective
      (P := fun p => p.1.asBytes ++ p.2.asBytes ∈ rootInputs K txs ∪ rootInputs K txs')
      (Q := fun a => ∃ tx, (tx ∈ txs ∨ tx ∈ txs') ∧ a = tx.hash K) ?_ ?_ ?_ ?_
      (hleaf txs (fun tx => .inl) t ht) (hleaf txs' (fun tx => .inr) t' ht') hroot
    · -- two pairs with one hash have the same bytes
      intro p q hp hq heq
      obtain ⟨hl, hr⟩ := List.append_inj (hcf.inj hp hq heq) (by simp)
      exact Prod.ext (Hash256.asBytes_injective hl) (Hash256.asBytes_injective hr)
    · -- the text of a transaction is longer than a pair of hashes
      rintro a p ⟨tx, htx, rfl⟩ hp heq
      have hlen := congrArg List.length (hcf.inj (hjson tx htx) hp heq)
      have hlong := length_toJson_gt tx
      rw [List.length_append, Hash256.length_asBytes, Hash256.length_asBytes] at hlen
      omega
    · exact fun p hp => .inl (.inr ⟨t, ht, p, hp, rfl⟩)
    · exact fun p hp => .inr (.inr ⟨t', ht', p, hp, rfl⟩)
  have hpadded : padded (txs.map (·.hash K)) = padded (txs'.map (·.hash K)) := by
    rw [padded_eq_iff_treeOf_eq, ht, ht', htree]
  rw [padded_map, padded_map] at hpadded
  refine eq_of_map_eq (fun tx htx tx' htx' heq => ?_) hpadded
  exact toJson_injective (hcf.inj (hjson tx (.inl (mem_padded htx)))
    (hjson tx' (.inr (mem_padded htx'))) heq)

/-- Lists with one padded list have one root. -/
theorem root_eq_of_padded_eq {txs txs' : List Transaction} (h : padded txs = padded txs') :
    merkleRoot K (txs.map (·.hash K)) = merkleRoot K (txs'.map (·.hash K)) := by
  have htree : treeOf (txs.map (·.hash K)) = treeOf (txs'.map (·.hash K)) := by
    rw [← padded_eq_iff_treeOf_eq, padded_map, padded_map, h]
  rw [merkleRoot, merkleRoot, reduce_map_fold, reduce_map_fold, htree]

/-! ## The block -/

/-- **A block identifier commits to the header and to the padded list of
transactions**, so to the whole block among lists of one length and among lists
in which no transaction is repeated. -/
theorem block_commitment {dataset : Dataset} {b b' : Block}
    (hcf : CollisionFree K (hashInputs K dataset b ∪ hashInputs K dataset b'))
    (hroot : b.header.txRoot = b.computeTxRoot K) (hroot' : b'.header.txRoot = b'.computeTxRoot K)
    (hid : b.header.id K dataset = b'.header.id K dataset) :
    b.header = b'.header ∧ padded b.transactions.val = padded b'.transactions.val ∧
      (b.transactions.val.length = b'.transactions.val.length → b = b') ∧
      (b.transactions.val.Nodup → b'.transactions.val.Nodup → b = b') := by
  have hheader : b.header = b'.header := by
    refine header_eq_of_id_eq (hcf.mono ?_) hid
    exact Set.union_subset_union Set.subset_union_left Set.subset_union_left
  have hpadded : padded b.transactions.val = padded b'.transactions.val := by
    refine padded_eq_of_root_eq (hcf.mono ?_) ?_
    · exact Set.union_subset_union Set.subset_union_right Set.subset_union_right
    · rw [Block.computeTxRoot] at hroot hroot'
      rw [← hroot, ← hroot', hheader]
  have hblock : b.transactions.val = b'.transactions.val → b = b' := by
    intro htxs
    cases b
    cases b'
    simp only at hheader htxs
    rw [hheader, Subtype.ext htxs]
  refine ⟨hheader, hpadded, fun hlen => hblock (eq_of_padded_eq hpadded hlen), fun hnd hnd' => ?_⟩
  rcases Nat.le_total b.transactions.val.length b'.transactions.val.length with hle | hle
  · exact hblock (eq_of_padded_eq_of_nodup hpadded hle hnd')
  · exact hblock (eq_of_padded_eq_of_nodup hpadded.symm hle hnd).symm

/-- A block with the given transactions and their root. -/
def sampleBlock (txs : List Transaction) (h : txs.length < 2 ^ 53) : Block where
  header :=
    { (emptyBlock 1 (smallGenesis.genesisHash smallCrates) 0).header with
      txRoot := merkleRoot smallCrates (txs.map (·.hash smallCrates)) }
  transactions := ⟨txs, h⟩

/-- Three transactions. -/
def threeTxs : Block := sampleBlock [sampleTx 0, sampleTx 1, sampleTx 2] (by decide)

/-- The same transactions, the last one twice. -/
def lastTwice : Block := sampleBlock [sampleTx 0, sampleTx 1, sampleTx 2, sampleTx 2] (by decide)

/-- What the root of both lists hashes. -/
def sampleInputs : List Bytes :=
  let a := sampleTx 0
  let b := sampleTx 1
  let c := sampleTx 2
  let ab := (a.hash smallCrates).asBytes ++ (b.hash smallCrates).asBytes
  let cc := (c.hash smallCrates).asBytes ++ (c.hash smallCrates).asBytes
  [a.toJson, b.toJson, c.toJson, ab, cc,
    (Hash256.hash smallCrates ab).asBytes ++ (Hash256.hash smallCrates cc).asBytes]

/-- The hash tells the sampled inputs apart and marks them. -/
theorem sampleInputs_hash : (sampleInputs.map (Hash256.hash smallCrates)).Nodup ∧
    ∀ x ∈ sampleInputs, (Hash256.hash smallCrates x).asBytes.head? = some 3 := by
  decide +kernel

theorem rootInputs_sample {txs : List Transaction}
    (h : txs = [sampleTx 0, sampleTx 1, sampleTx 2] ∨
      txs = [sampleTx 0, sampleTx 1, sampleTx 2, sampleTx 2]) :
    rootInputs smallCrates txs ⊆ { x | x ∈ sampleInputs } := by
  have htree : treeOf (txs.map (·.hash smallCrates)) = some (.node
      (.node (.leaf ((sampleTx 0).hash smallCrates)) (.leaf ((sampleTx 1).hash smallCrates)))
      (.node (.leaf ((sampleTx 2).hash smallCrates)) (.leaf ((sampleTx 2).hash smallCrates)))) := by
    rcases h with rfl | rfl <;> simp [treeOf, reduce, pairUp]
  rintro x (⟨tx, htx, rfl⟩ | ⟨t, ht, p, hp, rfl⟩)
  · have hmem : tx = sampleTx 0 ∨ tx = sampleTx 1 ∨ tx = sampleTx 2 := by
      rcases h with rfl | rfl <;> simpa using htx
    rcases hmem with rfl | rfl | rfl <;> simp [sampleInputs]
  · rw [htree] at ht
    obtain rfl := (Option.some.inj ht).symm
    simp only [BinTree.pairs, List.append_nil, List.cons_append, List.nil_append,
      List.mem_cons, List.not_mem_nil, or_false] at hp
    rcases hp with rfl | rfl | rfl <;> simp [sampleInputs, BinTree.fold, merkleCombine]

/-- The hash has no collision among the inputs of one proof of work and the
sampled ones. -/
theorem collisionFree_sample (dataset : Dataset) (h : BlockHeader) :
    CollisionFree smallCrates (powInputs smallCrates dataset h ∪ { x | x ∈ sampleInputs }) := by
  -- the first byte of the hash tells the kinds of input apart
  have hattempt : (Hash256.hash smallCrates (h.bytesForPow ++ le64 h.nonce)).asBytes.head?
      = some 1 := by
    rw [← attemptSeed, attemptSeed_small]
    exact head_pad32 _ _
  have hfinal : (Hash256.hash smallCrates ((attemptSeed smallCrates h.bytesForPow h.nonce).asBytes ++
      attemptMix smallCrates (attemptSeed smallCrates h.bytesForPow h.nonce) dataset
        accesses)).asBytes.head? = some 4 := by
    rw [← ondrisHash_eq, ← BlockHeader.id, id_small]
    exact head_pad32 _ _
  obtain ⟨hnd, hmark⟩ := sampleInputs_hash
  constructor
  · rintro x hx y hy heq
    have hheads : (Hash256.hash smallCrates x).asBytes.head?
        = (Hash256.hash smallCrates y).asBytes.head? := by rw [heq]
    rcases hx with (rfl | rfl) | hx <;> rcases hy with (rfl | rfl) | hy
    · rfl
    · rw [hattempt, hfinal] at hheads
      exact absurd hheads (by decide)
    · rw [hattempt, hmark y hy] at hheads
      exact absurd hheads (by decide)
    · rw [hattempt, hfinal] at hheads
      exact absurd hheads (by decide)
    · rfl
    · rw [hfinal, hmark y hy] at hheads
      exact absurd hheads (by decide)
    · rw [hattempt, hmark x hx] at hheads
      exact absurd hheads (by decide)
    · rw [hfinal, hmark x hx] at hheads
      exact absurd hheads (by decide)
    · exact List.inj_on_of_nodup_map hnd hx hy heq
  · intro x hx heq
    have hzero : (Hash256.hash smallCrates x).asBytes.head? = some 0 := by rw [heq]; rfl
    rcases hx with (rfl | rfl) | hx
    · rw [hattempt] at hzero
      exact absurd hzero (by decide)
    · rw [hfinal] at hzero
      exact absurd hzero (by decide)
    · rw [hmark x hx] at hzero
      exact absurd hzero (by decide)

/-- A dataset of a single item. -/
def sampleDataset : Dataset := ⟨0, List.replicate itemSize 0⟩

/-- The two blocks have one identifier and matching roots, and the hash has no
collision. -/
theorem lastTwice_premises :
    CollisionFree smallCrates (hashInputs smallCrates sampleDataset threeTxs ∪
      hashInputs smallCrates sampleDataset lastTwice) ∧
    threeTxs.header.txRoot = threeTxs.computeTxRoot smallCrates ∧
    lastTwice.header.txRoot = lastTwice.computeTxRoot smallCrates ∧
    threeTxs.header.id smallCrates sampleDataset = lastTwice.header.id smallCrates sampleDataset := by
  have hpadded : padded [sampleTx 0, sampleTx 1, sampleTx 2]
      = padded [sampleTx 0, sampleTx 1, sampleTx 2, sampleTx 2] := by
    simp [padded, treeOf, reduce, pairUp, BinTree.leaves]
  have hheader : threeTxs.header = lastTwice.header := by
    rw [threeTxs, lastTwice, sampleBlock, sampleBlock, root_eq_of_padded_eq hpadded]
  refine ⟨(collisionFree_sample sampleDataset threeTxs.header).mono ?_, rfl, rfl, by rw [hheader]⟩
  rw [hashInputs, hashInputs, ← hheader]
  refine Set.union_subset ?_ ?_
  · exact Set.union_subset_union_right _ (rootInputs_sample (.inl rfl))
  · exact Set.union_subset_union_right _ (rootInputs_sample (.inr rfl))

theorem block_commitment_sample :
    padded threeTxs.transactions.val = padded lastTwice.transactions.val := by
  obtain ⟨hcf, hroot, hroot', hid⟩ := lastTwice_premises
  exact (block_commitment hcf hroot hroot' hid).2.1

/-- The transactions are not determined: a last transaction may be there twice. -/
theorem block_commitment_lastTwice :
    CollisionFree smallCrates (hashInputs smallCrates sampleDataset threeTxs ∪
      hashInputs smallCrates sampleDataset lastTwice) ∧
    threeTxs.header.txRoot = threeTxs.computeTxRoot smallCrates ∧
    lastTwice.header.txRoot = lastTwice.computeTxRoot smallCrates ∧
    threeTxs.header.id smallCrates sampleDataset = lastTwice.header.id smallCrates sampleDataset ∧
    threeTxs ≠ lastTwice := by
  obtain ⟨hcf, hroot, hroot', hid⟩ := lastTwice_premises
  refine ⟨hcf, hroot, hroot', hid, fun heq => ?_⟩
  have hlen := congrArg (fun b => b.transactions.val.length) heq
  simp [threeTxs, lastTwice, sampleBlock] at hlen

end Ondris
