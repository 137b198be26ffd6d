import Ondris.Primitives

/-!
# OndrisHash

The proof-of-work hash of `ondris-pow`: a dataset derived from the epoch seed,
a fixed number of accesses mixed with FNV, and a final BLAKE3 over the seed of
the attempt and the compressed mix.

Result: `ondrisHash_eq`, the hash is one BLAKE3 call on the 32 bytes of the
attempt's seed followed by 32 more bytes, so it commits to the seed.
-/

namespace Ondris

open Encoding

def epochLength : UInt64 := 2048
def cacheSize : ℕ := 16 * 1024 * 1024
def datasetSize : ℕ := 64 * 1024 * 1024
def itemSize : ℕ := 128
def accesses : ℕ := 64
def fnvPrime : UInt32 := 0x01000193

def fnv (a b : UInt32) : UInt32 := (a * fnvPrime) ^^^ b

def readU32Le (bytes : Bytes) (offset : ℕ) : UInt32 :=
  let byte := fun i => (bytes.getD (offset + i) 0).toUInt32
  byte 0 ||| (byte 1 <<< 8) ||| (byte 2 <<< 16) ||| (byte 3 <<< 24)

def writeU32Le (bytes : Bytes) (offset : ℕ) (value : UInt32) : Bytes :=
  bytes.take offset ++ leBytes 4 value.toNat ++ bytes.drop (offset + 4)

def epochOf (height : UInt64) : UInt64 := height / epochLength

/-- `b"ONDRIS_GENESIS_EPOCH"`. -/
def genesisEpochSeed : Bytes := ascii "ONDRIS_GENESIS_EPOCH"

def epochSeed (K : Crates) : Option Hash256 → Hash256
  | none => Hash256.hash K genesisEpochSeed
  | some h => Hash256.hash K h.asBytes

def xofFill (K : Crates) (seed : Bytes) (n : ℕ) : Bytes := (K.blake3Xof seed n).toList

/-- The full dataset of one epoch. -/
structure Dataset where
  epoch : UInt64
  bytes : Bytes

namespace Dataset

/-- Item `i` of the dataset: a slice of the cache, hashed twice with `i`. -/
def generateItem (K : Crates) (cache : Bytes) (cacheSize i : ℕ) : Bytes :=
  let cacheOff := (i * itemSize) % max (cacheSize - itemSize + 1) 1
  let item := (cache.drop cacheOff).take itemSize
  let rehash := fun item : Bytes => xofFill K (item ++ leBytes 8 i) itemSize
  rehash (rehash item)

/-- `Dataset::generate_with_sizes`; both sizes are at least `itemSize`. -/
def generateWithSizes (K : Crates) (epoch : UInt64) (seed : Hash256)
    (cacheSize datasetSize : ℕ) : Dataset :=
  let cache := xofFill K seed.asBytes cacheSize
  let nItems := datasetSize / itemSize
  ⟨epoch, (List.range nItems).flatMap (generateItem K cache cacheSize)⟩

def generate (K : Crates) (epoch : UInt64) (seed : Hash256) : Dataset :=
  generateWithSizes K epoch seed cacheSize datasetSize

def lenBytes (ds : Dataset) : ℕ := ds.bytes.length

def item (ds : Dataset) (idx : ℕ) : Bytes :=
  let nItems := ds.bytes.length / itemSize
  let idx := idx % nItems
  (ds.bytes.drop (idx * itemSize)).take itemSize

end Dataset

/-- One access: the item picked by the mix is folded into it word by word. -/
def mixAccess (dataset : Dataset) (seedWord0 : UInt32) (mix : Bytes) (i : ℕ) : Bytes :=
  let wordsPerItem := itemSize / 4
  let nItems := max (dataset.lenBytes / itemSize) 1
  let mixWord := readU32Le mix ((i % wordsPerItem) * 4)
  let p := (fnv (seedWord0 ^^^ UInt32.ofNat i) mixWord).toNat % nItems
  let item := dataset.item p
  (List.range wordsPerItem).foldl (fun mix w =>
    writeU32Le mix (w * 4) (fnv (readU32Le mix (w * 4)) (readU32Le item (w * 4)))) mix

/-- The 32 bytes the final mix is folded into, four words at a time. -/
def compressMix (mix : Bytes) : Bytes :=
  (List.range 8).foldl (fun compressed i =>
    let base := i * 16
    let w0 := readU32Le mix base
    let w1 := readU32Le mix (base + 4)
    let w2 := readU32Le mix (base + 8)
    let w3 := readU32Le mix (base + 12)
    writeU32Le compressed (i * 4) (fnv (fnv (fnv w0 w1) w2) w3)) (List.replicate 32 0)

/-- The seed of one attempt: the hash of the header bytes and the nonce. -/
def attemptSeed (K : Crates) (headerBytes : Bytes) (nonce : UInt64) : Hash256 :=
  Hash256.hash K (headerBytes ++ le64 nonce)

/-- The compressed mix of one attempt after all accesses. -/
def attemptMix (K : Crates) (seed : Hash256) (dataset : Dataset) (accesses : ℕ) : Bytes :=
  let mix := xofFill K seed.asBytes itemSize
  let seedWord0 := readU32Le seed.asBytes 0
  compressMix ((List.range accesses).foldl (mixAccess dataset seedWord0) mix)

def ondrisHashWithAccesses (K : Crates) (headerBytes : Bytes) (nonce : UInt64)
    (dataset : Dataset) (accesses : ℕ) : Hash256 :=
  let seed := attemptSeed K headerBytes nonce
  Hash256.hash K (seed.asBytes ++ attemptMix K seed dataset accesses)

def ondrisHash (K : Crates) (headerBytes : Bytes) (nonce : UInt64) (dataset : Dataset) : Hash256 :=
  ondrisHashWithAccesses K headerBytes nonce dataset accesses

/-- A hash meets a target when it is not above it as a big-endian number. -/
def meetsTarget (hash : Hash256) (targetBe : Bytes) : Bool := decide (hash.toU256Be ≤ targetBe)

/-! ## Sizes -/

theorem length_writeU32Le {bytes : Bytes} {offset : ℕ} (value : UInt32)
    (h : offset + 4 ≤ bytes.length) : (writeU32Le bytes offset value).length = bytes.length := by
  simp only [writeU32Le, List.length_append, List.length_take, length_leBytes, List.length_drop]
  omega

@[simp] theorem length_compressMix (mix : Bytes) : (compressMix mix).length = 32 := by
  have hfold : ∀ (is : List ℕ) (f : ℕ → UInt32) (c : Bytes), (∀ i ∈ is, i < 8) → c.length = 32 →
      (is.foldl (fun c i => writeU32Le c (i * 4) (f i)) c).length = 32 := by
    intro is f
    induction is with
    | nil => intro c _ hc; exact hc
    | cons i is ih =>
      intro c hi hc
      have hlt : i < 8 := hi i (by simp)
      refine ih _ (fun j hj => hi j (by simp [hj])) ?_
      rw [length_writeU32Le _ (by omega), hc]
  exact hfold _ _ _ (fun i hi => List.mem_range.mp hi) (by simp)

@[simp] theorem length_attemptMix (K : Crates) (seed : Hash256) (dataset : Dataset) (n : ℕ) :
    (attemptMix K seed dataset n).length = 32 :=
  length_compressMix _

theorem ondrisHash_eq (K : Crates) (headerBytes : Bytes) (nonce : UInt64) (dataset : Dataset) :
    ondrisHash K headerBytes nonce dataset = Hash256.hash K
      ((attemptSeed K headerBytes nonce).asBytes ++
        attemptMix K (attemptSeed K headerBytes nonce) dataset accesses) := rfl

end Ondris
