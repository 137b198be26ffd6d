import Ondris.Lib.Buffers
import Ondris.Lib.Words
import Ondris.Blake3
import Ondris.Pow

/-!
# The OpenCL kernel

`kernel.cl`, with a check of every index: a pointer is a buffer and an offset into it, and
an access outside the buffer gives `none`. `uint` and `ulong` are words that wrap. What an
uninitialised array holds is the parameter `junk`. The lengths of the arrays have names.

Result: `compress_eq`, the compression function is that of the reference.
-/

namespace Ondris

namespace Kernel

open Encoding Buffers
open Blake3Ref (Words)

/-! ## The compression function -/

/-- The length of `cv`. -/
abbrev cvLen : ℕ := 8

/-- The length of `block_words` and `out16`. -/
abbrev out16Len : ℕ := 16

abbrev Cv := Words cvLen

abbrev Out16 := Words out16Len

local instance : NeZero out16Len := ⟨by decide⟩

theorem high_lt (i : Fin cvLen) : i.val + 8 < out16Len := Nat.add_lt_add_right i.isLt 8

/-- `IV`. -/
def iv : Cv :=
  ⟨#[0x6A09E667, 0xBB67AE85, 0x3C6EF372, 0xA54FF53A, 0x510E527F, 0x9B05688C, 0x1F83D9AB,
    0x5BE0CD19], by decide⟩

/-- `MSG_PERMUTATION`. -/
def msgPermutation : Vector (Fin out16Len) out16Len :=
  #v[2, 6, 3, 10, 7, 0, 4, 13, 1, 11, 12, 5, 9, 14, 15, 8]

/-- `CHUNK_START`. -/
def chunkStart : UInt32 := 1

/-- `CHUNK_END`. -/
def chunkEnd : UInt32 := 2

/-- `ROOT`. -/
def root : UInt32 := 8

/-- `BLOCK_LEN`. -/
def blockLen : UInt32 := 64

/-- `ITEM_SIZE`. -/
def itemSize : UInt32 := 128

/-- `FNV_PRIME`. -/
def fnvPrime : UInt32 := 0x01000193

/-- The `rotate` of OpenCL: to the left. -/
def rotate (x n : UInt32) : UInt32 := x <<< n ||| x >>> (32 - n)

def rotr32 (x n : UInt32) : UInt32 := rotate x (32 - n)

/-- The macro `G`. -/
def g (state : Out16) (a b c d : Fin out16Len) (mx my : UInt32) : Out16 :=
  let state := state.set a (state[a] + state[b] + mx)
  let state := state.set d (rotr32 (state[d] ^^^ state[a]) 16)
  let state := state.set c (state[c] + state[d])
  let state := state.set b (rotr32 (state[b] ^^^ state[c]) 12)
  let state := state.set a (state[a] + state[b] + my)
  let state := state.set d (rotr32 (state[d] ^^^ state[a]) 8)
  let state := state.set c (state[c] + state[d])
  state.set b (rotr32 (state[b] ^^^ state[c]) 7)

/-- The eight uses of `G` in a round. -/
def mixRound (state m : Out16) : Out16 :=
  let state := g state 0 4 8 12 m[0] m[1]
  let state := g state 1 5 9 13 m[2] m[3]
  let state := g state 2 6 10 14 m[4] m[5]
  let state := g state 3 7 11 15 m[6] m[7]
  let state := g state 0 5 10 15 m[8] m[9]
  let state := g state 1 6 11 12 m[10] m[11]
  let state := g state 2 7 8 13 m[12] m[13]
  g state 3 4 9 14 m[14] m[15]

def permuted (m : Out16) : Out16 := Vector.ofFn fun i => m[msgPermutation[i]]

/-- `compress`, with `out16` as its result. -/
def compress (cv : Cv) (blockWords : Out16) (counter : UInt64) (blockLen flags : UInt32) :
    Out16 :=
  let state : Out16 :=
    #v[cv[0], cv[1], cv[2], cv[3], cv[4], cv[5], cv[6], cv[7], iv[0], iv[1], iv[2], iv[3],
      (counter &&& 0xffffffff).toUInt32, (counter >>> 32).toUInt32, blockLen, flags]
  let rounds := (List.range 7).foldl (fun (acc : Out16 × Out16) round =>
    (mixRound acc.1 acc.2, if round < 6 then permuted acc.2 else acc.2)) (state, blockWords)
  let state := rounds.1
  Vector.ofFn (fun i : Fin cvLen => have := high_lt i; state[i.val] ^^^ state[i.val + 8]) ++
    Vector.ofFn (fun i : Fin cvLen => have := high_lt i; state[i.val + 8] ^^^ cv[i])

def chainingValueOf (cv : Cv) (blockWords : Out16) (counter : UInt64)
    (blockLen flags : UInt32) : Cv :=
  let out16 := compress cv blockWords counter blockLen flags
  Vector.ofFn fun i : Fin 8 => out16[i.val]

/-! ## Words in memory -/

/-- `read_u32`, and the same expression in `words_from_le_bytes_padded`. -/
def readU32 (buf : Bytes) (p : ℕ) : Option UInt32 := do
  let a ← load buf p
  let b ← load buf (p + 1)
  let c ← load buf (p + 2)
  let d ← load buf (p + 3)
  some (Words.ofBytes a b c d)

/-- `read_u32_global`, the same in global memory. -/
def readU32Global (buf : Bytes) (p : ℕ) : Option UInt32 := readU32 buf p

/-- `write_u32`, and the same stores in `xof_from_32_bytes`. -/
def writeU32 (buf : Bytes) (p : ℕ) (v : UInt32) : Option Bytes := do
  let buf ← store buf p (Words.byteAt v 0)
  let buf ← store buf (p + 1) (Words.byteAt v 8)
  let buf ← store buf (p + 2) (Words.byteAt v 16)
  store buf (p + 3) (Words.byteAt v 24)

def wordsFromLeBytesPadded (buf : Bytes) (block : ℕ) (len : UInt32) : Option Out16 :=
  if len = blockLen then Vector.ofFnM fun i => readU32 buf (block + i.val * 4)
  else do
    let padded ← (List.range 64).mapM fun i =>
      if UInt32.ofNat i < len then load buf (block + i) else some 0
    Vector.ofFnM fun i => readU32 padded (i.val * 4)

def wordsToBytes (w : Cv) : Bytes := (List.finRange 8).flatMap fun i => Words.bytesOf w[i]

/-! ## BLAKE3 -/

/-- One block of `blake3_hash_small`. -/
def hashBlock (data : Bytes) (len nBlocks : UInt32) (cv : Cv) (i : ℕ) : Option Cv := do
  let i := UInt32.ofNat i
  let off := i * blockLen
  let thisLen := min blockLen (len - off)
  let flags : UInt32 := 0
  let flags := if i = 0 then flags ||| chunkStart else flags
  let flags := if i = nBlocks - 1 then flags ||| (chunkEnd ||| root) else flags
  let blockWords ← wordsFromLeBytesPadded data off.toNat thisLen
  some (chainingValueOf cv blockWords 0 thisLen flags)

def blake3HashSmall (data : Bytes) (len : UInt32) : Option Bytes :=
  if len = 0 then
    some (wordsToBytes
      (chainingValueOf iv (Vector.replicate 16 0) 0 0 (chunkStart ||| chunkEnd ||| root)))
  else do
    let nBlocks := (len + blockLen - 1) / blockLen
    let cv ← (List.range nBlocks.toNat).foldlM (hashBlock data len nBlocks) iv
    some (wordsToBytes cv)

/-- The inner loop of `xof_from_32_bytes`, on `out` and `written`. -/
def xofWord (out16 : Out16) (acc : Bytes × UInt32) (i : Fin 16) : Option (Bytes × UInt32) :=
  if acc.2 < itemSize then do
    let out ← writeU32 acc.1 acc.2.toNat out16[i]
    some (out, acc.2 + 4)
  else some acc

/-- Its outer loop, given the number of rounds it may take. -/
def xofLoop (blockWords : Out16) (flags : UInt32) :
    ℕ → Bytes × UInt32 → UInt64 → Option Bytes
  | 0, _, _ => none
  | rounds + 1, acc, counter =>
    if acc.2 < itemSize then do
      let out16 := compress iv blockWords counter 32 flags
      let acc ← (List.finRange 16).foldlM (xofWord out16) acc
      xofLoop blockWords flags rounds acc (counter + 1)
    else some acc.1

def xofFrom32Bytes (seed out : Bytes) : Option Bytes := do
  let blockWords ← wordsFromLeBytesPadded seed 0 32
  xofLoop blockWords (chunkStart ||| chunkEnd ||| root) itemSize.toNat (out, 0) 0

/-! ## The kernels -/

def fnv (a b : UInt32) : UInt32 := (a * fnvPrime) ^^^ b

/-- One pass of the loop over the accesses. -/
def mixAccess (dataset : Bytes) (nItems : UInt64) (seedWord0 : UInt32) (mix : Bytes) (i : ℕ) :
    Option Bytes := do
  let i := UInt32.ofNat i
  let wordsPerItem := itemSize / 4
  let mixWord ← readU32 mix ((i % wordsPerItem) * 4).toNat
  if nItems = 0 then none
  else
    let p := (fnv (seedWord0 ^^^ i) mixWord).toUInt64 % nItems
    let item := p * itemSize.toUInt64
    (List.range wordsPerItem.toNat).foldlM (fun mix w => do
      let mixWord ← readU32 mix (w * 4)
      let itemWord ← readU32Global dataset (item.toNat + w * 4)
      writeU32 mix (w * 4) (fnv mixWord itemWord)) mix

/-- The loop that fills `compressed`. -/
def compressMix (compressed mix : Bytes) : Option Bytes :=
  (List.range 8).foldlM (fun compressed i => do
    let base := i * 16
    let w0 ← readU32 mix base
    let w1 ← readU32 mix (base + 4)
    let w2 ← readU32 mix (base + 8)
    let w3 ← readU32 mix (base + 12)
    writeU32 compressed (i * 4) (fnv (fnv (fnv w0 w1) w2) w3)) compressed

/-- A loop that copies `n` bytes to an offset. -/
def copy (src dst : Bytes) (off n : ℕ) : Option Bytes :=
  (List.range n).foldlM (fun dst i => do
    let b ← load src i
    store dst (off + i) b) dst

def ondrisHashCore (junk : UInt8) (dataset : Bytes) (datasetLen : UInt64) (headerBytes : Bytes)
    (headerLen : UInt32) (nonce : UInt64) (accesses : UInt32) : Option Bytes := do
  let inputBuf ← copy headerBytes (List.replicate 144 junk) 0 headerLen.toNat
  let inputBuf ← (List.range 8).foldlM (fun buf i =>
    store buf (headerLen + UInt32.ofNat i).toNat
      ((nonce >>> UInt64.ofNat (8 * i)) &&& 0xff).toUInt8) inputBuf
  let totalLen := headerLen + 8
  let seed ← blake3HashSmall inputBuf totalLen
  let mix ← xofFrom32Bytes seed (List.replicate itemSize.toNat junk)
  let seedWord0 ← readU32 seed 0
  let nItems := datasetLen / itemSize.toUInt64
  let mix ← (List.range accesses.toNat).foldlM (mixAccess dataset nItems seedWord0) mix
  let compressed ← compressMix (List.replicate 32 junk) mix
  let finalInput ← copy seed (List.replicate 64 junk) 0 32
  let finalInput ← copy compressed finalInput 32 32
  blake3HashSmall finalInput 64

/-- The comparison of `ondris_mine` from byte `i` on, `n` bytes long. -/
def meetsFrom (finalHash target : Bytes) (i : ℕ) : ℕ → Option Bool
  | 0 => some true
  | n + 1 => do
    let h ← load finalHash i
    let t ← load target i
    if h < t then some true
    else if t < h then some false
    else meetsFrom finalHash target (i + 1) n

/-- `*result_found` and `*result_nonce`. -/
structure MineResult where
  found : Int32
  nonce : UInt64
deriving DecidableEq

/-- `ondris_mine` for the work item `gid`. -/
def ondrisMine (junk : UInt8) (dataset : Bytes) (datasetLen : UInt64) (headerBytes : Bytes)
    (headerLen : UInt32) (nonceBase : UInt64) (accesses : UInt32) (target : Bytes)
    (result : MineResult) (gid : UInt64) : Option MineResult := do
  let nonce := nonceBase + gid
  let finalHash ← ondrisHashCore junk dataset datasetLen headerBytes headerLen nonce accesses
  let meets ← meetsFrom finalHash target 0 32
  if meets then some ⟨1, nonce⟩ else some result

/-! ## The compression functions agree -/

theorem rotr32_eq (x n : UInt32) : rotr32 x n = Blake3Ref.rotateRight x n := by
  have hback : (32 : UInt32) - (32 - n) = n := by grind
  rw [rotr32, rotate, hback, UInt32.or_comm]
  rfl

theorem g_eq : g = Blake3Ref.g := by
  funext state a b c d mx my
  unfold g Blake3Ref.g
  simp only [rotr32_eq]

theorem mixRound_eq : mixRound = Blake3Ref.mixRound := by
  funext state m
  unfold mixRound Blake3Ref.mixRound
  rw [g_eq]

/-- The words of the counter. -/
theorem low_word (counter : UInt64) : (counter &&& 0xffffffff).toUInt32 = counter.toUInt32 := by
  have hmask : (0xffffffff : UInt64).toNat = 2 ^ 32 - 1 := rfl
  refine UInt32.toNat_inj.mp ?_
  rw [UInt64.toNat_toUInt32, UInt64.toNat_toUInt32, UInt64.toNat_and, hmask,
    Nat.and_two_pow_sub_one_eq_mod, Nat.mod_mod]

theorem compress_eq : compress = Blake3Ref.compress := by
  funext cv blockWords counter blockLen flags
  unfold compress Blake3Ref.compress
  rw [low_word, mixRound_eq]
  exact (Blake3Ref.finish_eq _ cv).symm

theorem chainingValueOf_eq (cv : Cv) (blockWords : Out16) (counter : UInt64)
    (blockLen flags : UInt32) : chainingValueOf cv blockWords counter blockLen flags
      = Blake3Ref.chainingValueOf Blake3Ref.compress cv blockWords counter blockLen flags := by
  unfold chainingValueOf Blake3Ref.chainingValueOf
  rw [compress_eq]
  refine Vector.ext fun i hi => ?_
  interval_cases i <;> rfl

end Kernel

end Ondris
