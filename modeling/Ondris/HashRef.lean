import Ondris.Lib.Buffers
import Ondris.Lib.Words
import Ondris.Blake3
import Ondris.Dataset

/-!
# The two hashes in Rust

`ondris_hash_with_accesses` of `ondris-pow` and of `ondris_hash_ref.rs`, with the checks
that a slice makes of its range: a range outside the buffer aborts, here with `none`.
The two functions have one body; they differ in the BLAKE3 they call and in how they take
an item out of the dataset.

Results:
1. `hashWith_eq`: no check of the body fails, whatever the accesses.
2. `HashRef.ondrisHashWithAccesses_eq`: the two hashes agree if the crate's BLAKE3 is the
   one of the recursive definition.
-/

namespace Ondris

open Encoding Buffers Blake3Ref

/-- The functions of the `blake3` crate are BLAKE3: the hash for every input, the
extendable output for inputs of one block. -/
structure IsBlake3 (K : Crates) : Prop where
  hash : ∀ data, K.blake3 data = wordsToLeBytes (treeValue compress 0 true data)
  xof : ∀ block : Bytes, block.length ≤ blockLen → ∀ n,
    (K.blake3Xof block n).toList = xofValue compress block n

/-! ## Words and items -/

section

variable {bytes : Bytes} {offset : ℕ}

theorem take_four (h : offset + 4 ≤ bytes.length) : (bytes.drop offset).take 4 =
    [bytes.getD offset 0, bytes.getD (offset + 1) 0, bytes.getD (offset + 2) 0,
      bytes.getD (offset + 3) 0] := by
  have hlen : 4 ≤ (bytes.drop offset).length := by
    rw [List.length_drop]
    omega
  rw [← map_getD_range hlen 0]
  simp only [List.getD_eq_getElem?_getD, List.getElem?_drop]
  rfl

/-- `readU32Le` puts the word together from its bytes. -/
theorem readU32Le_eq_fromLeBytes (h : offset + 4 ≤ bytes.length) :
    readU32Le bytes offset = fromLeBytes ((bytes.drop offset).take 4) := by
  rw [take_four h]
  exact Words.ofBytes_eq _ _ _ _

theorem writeU32Le_eq_splice (bytes : Bytes) (offset : ℕ) (value : UInt32) :
    writeU32Le bytes offset value = splice bytes offset (leBytes 4 value.toNat) := by
  rw [splice, length_leBytes]
  rfl

/-- What an item makes of the mix. -/
def foldItem (mix item : Bytes) : Bytes :=
  (List.range (itemSize / 4)).foldl (fun mix w =>
    writeU32Le mix (w * 4) (fnv (readU32Le mix (w * 4)) (readU32Le item (w * 4)))) mix

end

namespace Dataset

variable {dataset : Dataset} {p : ℕ}

/-- The range of an item lies inside the dataset. -/
theorem item_range (hp : p < dataset.lenBytes / itemSize) :
    p * itemSize + itemSize ≤ dataset.bytes.length := by
  have hle : (p + 1) * itemSize ≤ dataset.bytes.length :=
    Nat.le_trans (Nat.mul_le_mul_right itemSize hp) (Nat.div_mul_le_self _ _)
  rwa [Nat.add_mul, Nat.one_mul] at hle

theorem item_eq_slice (hp : p < dataset.lenBytes / itemSize) :
    dataset.item p = (dataset.bytes.drop (p * itemSize)).take itemSize := by
  rw [lenBytes] at hp
  unfold item
  simp only [Nat.mod_eq_of_lt hp]

theorem length_item (hp : p < dataset.lenBytes / itemSize) :
    (dataset.item p).length = itemSize := by
  have hrange := item_range hp
  rw [item_eq_slice hp, List.length_take, List.length_drop]
  omega

end Dataset

namespace Checked

/-! ## Definitions -/

/-- `read_u32_le`. -/
def readU32Le (bytes : Bytes) (offset : ℕ) : Option UInt32 :=
  (slice bytes offset (offset + 4)).map fromLeBytes

/-- `write_u32_le`. -/
def writeU32Le (bytes : Bytes) (offset : ℕ) (value : UInt32) : Option Bytes :=
  if offset + 4 ≤ bytes.length then some (splice bytes offset (leBytes 4 value.toNat)) else none

/-- `Dataset::item`. -/
def item (dataset : Dataset) (idx : ℕ) : Option Bytes :=
  let nItems := dataset.bytes.length / itemSize
  if nItems = 0 then none
  else
    let idx := idx % nItems
    slice dataset.bytes (idx * itemSize) ((idx + 1) * itemSize)

/-- One access, with the function that takes an item out of the dataset. -/
def mixAccess (item : ℕ → Option Bytes) (nItems : ℕ) (seedWord0 : UInt32) (mix : Bytes) (i : ℕ) :
    Option Bytes := do
  let wordsPerItem := itemSize / 4
  let mixWord ← readU32Le mix ((i % wordsPerItem) * 4)
  let p := (fnv (seedWord0 ^^^ UInt32.ofNat i) mixWord).toNat % nItems
  let item ← item p
  (List.range wordsPerItem).foldlM (fun mix w => do
    let mixWord ← readU32Le mix (w * 4)
    let itemWord ← readU32Le item (w * 4)
    writeU32Le mix (w * 4) (fnv mixWord itemWord)) mix

/-- The mix folded into 32 bytes. -/
def compressMix (mix : Bytes) : Option Bytes :=
  (List.range 8).foldlM (fun compressed i => do
    let base := i * 16
    let w0 ← readU32Le mix base
    let w1 ← readU32Le mix (base + 4)
    let w2 ← readU32Le mix (base + 8)
    let w3 ← readU32Le mix (base + 12)
    writeU32Le compressed (i * 4) (fnv (fnv (fnv w0 w1) w2) w3)) (List.replicate 32 0)

/-- The body of both functions. -/
def hashWith (hash : Bytes → Option (List.Vector UInt8 32))
    (xof : List.Vector UInt8 32 → ℕ → Bytes) (item : ℕ → Option Bytes) (nItems : ℕ)
    (headerBytes : Bytes) (nonce : UInt64) (accesses : ℕ) : Option (List.Vector UInt8 32) := do
  let seed ← hash (headerBytes ++ le64 nonce)
  let mix := xof seed itemSize
  let seedWord0 ← readU32Le seed.toList 0
  let mix ← (List.range accesses).foldlM (mixAccess item nItems seedWord0) mix
  let compressed ← compressMix mix
  hash (seed.toList ++ compressed)

/-- `ondris_hash_with_accesses` of `ondris-pow`. -/
def ondrisHashWithAccesses (K : Crates) (headerBytes : Bytes) (nonce : UInt64) (dataset : Dataset)
    (accesses : ℕ) : Option (List.Vector UInt8 32) :=
  hashWith (fun bs => some (K.blake3 bs)) (fun seed n => xofFill K seed.toList n) (item dataset)
    (max (dataset.lenBytes / itemSize) 1) headerBytes nonce accesses

/-! ## Words -/

variable {bytes : Bytes} {offset : ℕ}

theorem readU32Le_eq (h : offset + 4 ≤ bytes.length) :
    readU32Le bytes offset = some (Ondris.readU32Le bytes offset) := by
  rw [readU32Le, slice, if_pos ⟨by omega, h⟩, Nat.add_sub_cancel_left, Option.map_some,
    readU32Le_eq_fromLeBytes h]

theorem writeU32Le_eq (h : offset + 4 ≤ bytes.length) (value : UInt32) :
    writeU32Le bytes offset value = some (Ondris.writeU32Le bytes offset value) := by
  rw [writeU32Le, if_pos h, writeU32Le_eq_splice]

/-! ## The body -/

/-- The loop over the words of an item. -/
theorem foldItem_eq {mix item : Bytes} (hmix : mix.length = itemSize)
    (hitem : item.length = itemSize) :
    (List.range (itemSize / 4)).foldlM (fun mix w => do
        let mixWord ← readU32Le mix (w * 4)
        let itemWord ← readU32Le item (w * 4)
        writeU32Le mix (w * 4) (fnv mixWord itemWord)) mix
      = some (foldItem mix item) ∧ (foldItem mix item).length = itemSize := by
  refine foldlM_eq_some (P := fun mix : Bytes => mix.length = itemSize) (fun mix hmix w hw => ?_)
    hmix
  have hw := List.mem_range.mp hw
  have hsize : itemSize = 128 := rfl
  have hinside : w * 4 + 4 ≤ mix.length := by omega
  refine ⟨?_, ?_⟩
  · rw [readU32Le_eq hinside, readU32Le_eq (by omega)]
    exact writeU32Le_eq hinside _
  · rw [length_writeU32Le _ hinside]
    exact hmix

/-- One access makes no read or write out of range. -/
theorem mixAccess_eq {dataset : Dataset} {item : ℕ → Option Bytes}
    (hitem : ∀ p < max (dataset.lenBytes / itemSize) 1,
      item p = some (dataset.item p) ∧ (dataset.item p).length = itemSize)
    (seedWord0 : UInt32) {mix : Bytes} (hmix : mix.length = itemSize) (i : ℕ) :
    mixAccess item (max (dataset.lenBytes / itemSize) 1) seedWord0 mix i
        = some (Ondris.mixAccess dataset seedWord0 mix i) ∧
      (Ondris.mixAccess dataset seedWord0 mix i).length = itemSize := by
  have hsize : itemSize = 128 := rfl
  have hmod := Nat.mod_lt i (show 0 < itemSize / 4 by decide)
  have hinside : (i % (itemSize / 4)) * 4 + 4 ≤ mix.length := by omega
  have hpos : 0 < max (dataset.lenBytes / itemSize) 1 := by omega
  obtain ⟨hget, hlen⟩ := hitem ((fnv (seedWord0 ^^^ UInt32.ofNat i)
    (Ondris.readU32Le mix ((i % (itemSize / 4)) * 4))).toNat % max (dataset.lenBytes / itemSize) 1)
    (Nat.mod_lt _ hpos)
  have hfold := foldItem_eq hmix hlen
  refine ⟨?_, hfold.2⟩
  unfold mixAccess
  simp only [readU32Le_eq hinside, Option.bind_eq_bind, Option.bind_some, hget]
  exact hfold.1

theorem compressMix_eq {mix : Bytes} (hmix : mix.length = itemSize) :
    compressMix mix = some (Ondris.compressMix mix) := by
  refine (foldlM_eq_some (P := fun compressed : Bytes => compressed.length = 32)
    (fun compressed hlen i hi => ?_) List.length_replicate).1
  have hi := List.mem_range.mp hi
  have hsize : itemSize = 128 := rfl
  have hinside : i * 4 + 4 ≤ compressed.length := by omega
  refine ⟨?_, ?_⟩
  · have hread : ∀ k, k + 4 ≤ 16 → readU32Le mix (i * 16 + k)
        = some (Ondris.readU32Le mix (i * 16 + k)) := fun k hk => readU32Le_eq (by omega)
    have hread₀ := hread 0 (by decide)
    rw [Nat.add_zero] at hread₀
    simp only [hread₀, hread 4 (by decide), hread 8 (by decide), hread 12 (by decide),
      Option.bind_eq_bind, Option.bind_some]
    exact writeU32Le_eq hinside _
  · rw [length_writeU32Le _ hinside]
    exact hlen

/-- The body with the crate's BLAKE3 and the items of the dataset computes the hash. -/
theorem hashWith_eq {K : Crates} {dataset : Dataset}
    {hash : Bytes → Option (List.Vector UInt8 32)} {xof : List.Vector UInt8 32 → ℕ → Bytes}
    {item : ℕ → Option Bytes} (hhash : ∀ bs, hash bs = some (K.blake3 bs))
    (hxof : ∀ seed, xof seed itemSize = xofFill K seed.toList itemSize)
    (hitem : ∀ p < max (dataset.lenBytes / itemSize) 1,
      item p = some (dataset.item p) ∧ (dataset.item p).length = itemSize)
    (headerBytes : Bytes) (nonce : UInt64) (accesses : ℕ) :
    hashWith hash xof item (max (dataset.lenBytes / itemSize) 1) headerBytes nonce accesses
      = some (Ondris.ondrisHashWithAccesses K headerBytes nonce dataset accesses).bytes := by
  have hseed : ∀ seed : List.Vector UInt8 32, 0 + 4 ≤ seed.toList.length := by
    intro seed
    rw [seed.toList_length]
    decide
  have hmix : ∀ seed, (xofFill K seed itemSize).length = itemSize := fun seed =>
    (K.blake3Xof seed itemSize).toList_length
  unfold hashWith
  simp only [hhash, hxof, Option.bind_eq_bind, Option.bind_some, readU32Le_eq (hseed _)]
  obtain ⟨hloop, hlen⟩ := foldlM_eq_some (P := fun mix : Bytes => mix.length = itemSize)
    (l := List.range accesses)
    (fun mix hmix i _ => mixAccess_eq hitem
      (Ondris.readU32Le (K.blake3 (headerBytes ++ le64 nonce)).toList 0) hmix i)
    (hmix (K.blake3 (headerBytes ++ le64 nonce)).toList)
  rw [hloop, Option.bind_some, compressMix_eq hlen, Option.bind_some]
  rfl

/-! ## Items -/

variable {dataset : Dataset}

theorem slice_item {p stop : ℕ} (hp : p < dataset.lenBytes / itemSize)
    (hstop : stop = p * itemSize + itemSize) :
    slice dataset.bytes (p * itemSize) stop = some (dataset.item p) := by
  have hrange := Dataset.item_range hp
  rw [slice, if_pos ⟨by omega, by omega⟩, hstop, Nat.add_sub_cancel_left,
    Dataset.item_eq_slice hp]

theorem item_eq {p : ℕ} (hp : p < dataset.lenBytes / itemSize) :
    item dataset p = some (dataset.item p) := by
  have hpos : dataset.bytes.length / itemSize ≠ 0 := by
    rw [Dataset.lenBytes] at hp
    omega
  have hmod : p % (dataset.bytes.length / itemSize) = p := Nat.mod_eq_of_lt hp
  unfold item
  simp only [if_neg hpos, hmod]
  exact slice_item hp (by rw [Nat.add_mul, Nat.one_mul])

theorem nItems_eq (hpos : itemSize ≤ dataset.lenBytes) :
    max (dataset.lenBytes / itemSize) 1 = dataset.lenBytes / itemSize :=
  Nat.max_eq_left (Nat.div_pos hpos (by decide))

/-- `ondris-pow` computes its hash without a failing check. -/
theorem ondrisHashWithAccesses_eq (K : Crates) (headerBytes : Bytes) (nonce : UInt64)
    (hpos : itemSize ≤ dataset.lenBytes) (accesses : ℕ) :
    ondrisHashWithAccesses K headerBytes nonce dataset accesses
      = some (Ondris.ondrisHashWithAccesses K headerBytes nonce dataset accesses).bytes := by
  refine hashWith_eq (fun _ => rfl) (fun _ => rfl) (fun p hp => ?_) headerBytes nonce accesses
  rw [nItems_eq hpos] at hp
  exact ⟨item_eq hp, Dataset.length_item hp⟩

end Checked

/-! ## The reference of the miner -/

namespace HashRef

open Checked

/-- `ondris_hash_with_accesses` of `ondris_hash_ref.rs`. -/
def ondrisHashWithAccesses (headerBytes : Bytes) (nonce : UInt64) (dataset : Bytes)
    (accesses : ℕ) : Option (List.Vector UInt8 32) :=
  hashWith (hash compress) (xofFrom32Bytes compress)
    (fun p => slice dataset (p * itemSize) (p * itemSize + itemSize))
    (max (dataset.length / itemSize) 1) headerBytes nonce accesses

theorem xofFrom32Bytes_eq_xofFill {K : Crates} (hK : IsBlake3 K) (seed : List.Vector UInt8 32)
    (n : ℕ) : xofFrom32Bytes compress seed n = xofFill K seed.toList n := by
  have hblock : seed.toList.length ≤ blockLen := by
    rw [seed.toList_length]
    decide
  rw [xofFrom32Bytes_eq, xofFill, hK.xof _ hblock]

/-- The reference computes the hash of `ondris-pow`. -/
theorem ondrisHashWithAccesses_eq {K : Crates} (hK : IsBlake3 K) (headerBytes : Bytes)
    (nonce : UInt64) {dataset : Dataset} (hpos : itemSize ≤ dataset.lenBytes) (accesses : ℕ) :
    ondrisHashWithAccesses headerBytes nonce dataset.bytes accesses
      = some (Ondris.ondrisHashWithAccesses K headerBytes nonce dataset accesses).bytes := by
  refine hashWith_eq (fun bs => ?_) (fun seed => xofFrom32Bytes_eq_xofFill hK seed itemSize)
    (fun p hp => ?_) headerBytes nonce accesses
  · rw [hash_eq_some, hK.hash]
  · rw [nItems_eq hpos] at hp
    exact ⟨slice_item hp rfl, Dataset.length_item hp⟩

end HashRef

end Ondris
