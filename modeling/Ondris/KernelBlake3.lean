import Ondris.HashRef
import Ondris.Kernel

/-!
# BLAKE3 in the kernel

The kernel hashes single chunks, of one or more blocks, and expands one block. Its loops
run over buffers with checked indices; they compute what the reference does and make no
access out of range.

Results:
1. `wordsFromLeBytesPadded_eq`: the words of a block, read in place or from a padded copy.
2. `blake3HashSmall_eq`: the loop over the blocks hashes one chunk.
3. `xofFrom32Bytes_eq`: the two nested loops fill the mix with the extendable output.
-/

namespace Ondris

namespace Kernel

open Encoding Buffers Chunks
open Blake3Ref (Words)

/-! ## Words in memory -/

variable {buf : Bytes} {p : ℕ}

theorem readU32_eq (h : p + 4 ≤ buf.length) : readU32 buf p = some (readU32Le buf p) := by
  unfold readU32
  rw [load_eq_getD (i := p) (by omega) 0, load_eq_getD (i := p + 1) (by omega) 0,
    load_eq_getD (i := p + 2) (by omega) 0, load_eq_getD (i := p + 3) (by omega) 0]
  rfl

theorem writeU32_eq (h : p + 4 ≤ buf.length) (v : UInt32) :
    writeU32 buf p v = some (writeU32Le buf p v) := by
  have h₁ : store (splice buf p [Words.byteAt v 0]) (p + 1) (Words.byteAt v 8)
      = some (splice buf p [Words.byteAt v 0, Words.byteAt v 8]) :=
    store_splice [_] (show p + 1 < buf.length by omega) _
  have h₂ : store (splice buf p [Words.byteAt v 0, Words.byteAt v 8]) (p + 2) (Words.byteAt v 16)
      = some (splice buf p [Words.byteAt v 0, Words.byteAt v 8, Words.byteAt v 16]) :=
    store_splice [_, _] (show p + 2 < buf.length by omega) _
  have h₃ : store (splice buf p [Words.byteAt v 0, Words.byteAt v 8, Words.byteAt v 16]) (p + 3)
      (Words.byteAt v 24) = some (splice buf p (Words.bytesOf v)) :=
    store_splice [_, _, _] (show p + 3 < buf.length by omega) _
  unfold writeU32
  rw [store_eq_splice (by omega)]
  simp only [Option.bind_eq_bind, Option.bind_some, h₁, h₂, h₃]
  rw [writeU32Le_eq_splice, Words.bytesOf_eq]

theorem ofFnM_readU32 {n off : ℕ} (h : off + n * 4 ≤ buf.length) :
    (Vector.ofFnM fun i : Fin n => readU32 buf (off + i.val * 4))
      = some (Vector.ofFn fun i : Fin n => readU32Le buf (off + i.val * 4)) := by
  have hall : (fun i : Fin n => readU32 buf (off + i.val * 4))
      = fun i => pure (readU32Le buf (off + i.val * 4)) := by
    funext i
    exact readU32_eq (by omega)
  rw [hall, Vector.ofFnM_pure]
  rfl

/-- A block with zeros up to 64 bytes. -/
def padded (block : Bytes) : Bytes :=
  block ++ List.replicate (Blake3Ref.blockLen - block.length) 0

theorem length_padded {block : Bytes} (h : block.length ≤ 64) : (padded block).length = 64 := by
  have hlen : Blake3Ref.blockLen = 64 := rfl
  rw [padded, List.length_append, List.length_replicate]
  omega

theorem reference_words {block : Bytes} (h : block.length ≤ 64) :
    Blake3Ref.wordsFromLeBytesPadded block
      = Vector.ofFn fun i : Fin 16 => readU32Le (padded block) (i.val * 4) := by
  unfold Blake3Ref.wordsFromLeBytesPadded
  refine congrArg Vector.ofFn (funext fun i => ?_)
  have hlen := length_padded h
  have hread : readU32Le (padded block) (i.val * 4)
      = Blake3Ref.fromLeBytes (((padded block).drop (i.val * 4)).take 4) :=
    readU32Le_eq_fromLeBytes (by omega)
  exact hread.symm

theorem getD_padded {block : Bytes} {i : ℕ} : (padded block).getD i 0 = block.getD i 0 := by
  unfold padded
  rw [List.getD_eq_getElem?_getD, List.getD_eq_getElem?_getD, List.getElem?_append,
    List.getElem?_replicate]
  split
  · rfl
  · next hi =>
    rw [List.getElem?_eq_none (Nat.le_of_not_lt hi)]
    split <;> rfl

section

variable {block : ℕ} {len : UInt32}

theorem getD_padded_slice (block n i : ℕ) : (padded ((buf.drop block).take n)).getD i 0
    = if i < n then buf.getD (block + i) 0 else 0 := by
  rw [getD_padded, List.getD_eq_getElem?_getD, List.getElem?_take]
  split
  · rw [List.getElem?_drop, List.getD_eq_getElem?_getD]
  · rfl

/-- A whole block needs no zeros. -/
theorem readU32Le_whole {i : ℕ} (hi : i < 16) : readU32Le buf (block + i * 4)
    = readU32Le (padded ((buf.drop block).take 64)) (i * 4) := by
  unfold readU32Le
  simp only [getD_padded_slice]
  rw [if_pos (by omega), if_pos (by omega), if_pos (by omega), if_pos (by omega)]
  simp only [Nat.add_assoc]

/-- The copy of a shorter block, filled up. -/
theorem mapM_fill (hlen : len.toNat ≤ 64) (hfit : block + len.toNat ≤ buf.length) :
    (List.range 64).mapM (fun i =>
        if UInt32.ofNat i < len then load buf (block + i) else some 0)
      = some (padded ((buf.drop block).take len.toNat)) := by
  have hlength : (padded ((buf.drop block).take len.toNat)).length = 64 := by
    refine length_padded ?_
    rw [List.length_take]
    omega
  have hstep : ∀ i ∈ List.range 64,
      (if UInt32.ofNat i < len then load buf (block + i) else some 0)
        = some ((padded ((buf.drop block).take len.toNat)).getD i 0) := by
    intro i hi
    have hi := List.mem_range.mp hi
    have hword : UInt32.ofNat i < len ↔ i < len.toNat := by
      rw [UInt32.lt_iff_toNat_lt, UInt32.toNat_ofNat', Nat.mod_eq_of_lt (by omega)]
    simp only [getD_padded_slice, hword]
    split
    · exact load_eq_getD (by omega) 0
    · rfl
  rw [mapM_eq_some hstep, map_getD_range (by omega), ← hlength, List.take_length]

theorem wordsFromLeBytesPadded_eq (hlen : len.toNat ≤ 64)
    (hfit : block + len.toNat ≤ buf.length) : wordsFromLeBytesPadded buf block len
      = some (Blake3Ref.wordsFromLeBytesPadded ((buf.drop block).take len.toNat)) := by
  have hblock : ((buf.drop block).take len.toNat).length ≤ 64 := by
    rw [List.length_take]
    omega
  rw [reference_words hblock]
  unfold wordsFromLeBytesPadded
  by_cases hfull : len = blockLen
  · -- a whole block is read in place
    have h64 : len.toNat = 64 := by rw [hfull]; rfl
    have hbound : block + out16Len * 4 ≤ buf.length := by
      rw [show out16Len * 4 = 64 from rfl]
      omega
    rw [if_pos hfull, ofFnM_readU32 hbound, h64]
    exact congrArg (fun f => some (Vector.ofFn f)) (funext fun i => readU32Le_whole i.isLt)
  · -- a shorter one is copied and filled up
    have hwords : (Vector.ofFnM fun i : Fin 16 =>
          readU32 (padded ((buf.drop block).take len.toNat)) (0 + i.val * 4))
        = some (Vector.ofFn fun i : Fin 16 =>
          readU32Le (padded ((buf.drop block).take len.toNat)) (0 + i.val * 4)) :=
      ofFnM_readU32 (by rw [length_padded hblock])
    simp only [Nat.zero_add] at hwords
    rw [if_neg hfull, mapM_fill hlen hfit]
    exact hwords

end

/-! ## Hashing a chunk -/

theorem wordsToBytes_eq (w : Cv) : wordsToBytes w = (Blake3Ref.wordsToLeBytes w).toList := by
  unfold wordsToBytes Blake3Ref.wordsToLeBytes
  simp only [Words.bytesOf_eq]
  rfl

theorem toNat_nBlocks {len : UInt32} (hlen : len.toNat + 64 < 2 ^ 32) :
    ((len + blockLen - 1) / blockLen).toNat = divCeil len.toNat Blake3Ref.blockLen := by
  have hblock : blockLen.toNat = 64 := rfl
  have hone : (1 : UInt32).toNat = 1 := rfl
  have hsum : (len + blockLen).toNat = len.toNat + 64 := by
    rw [UInt32.toNat_add, hblock, Nat.mod_eq_of_lt hlen]
  have hsub : (len + blockLen - 1).toNat = len.toNat + 64 - 1 := by
    rw [UInt32.toNat_sub_of_le _ _ (by rw [UInt32.le_iff_toNat_le, hsum, hone]; omega), hsum, hone]
  rw [UInt32.toNat_div, hsub, hblock]
  rfl

section

variable {data : Bytes} {len : UInt32} {i : ℕ}

theorem toNat_index (hlen : len.toNat + 64 < 2 ^ 32) (hi : i * 64 < len.toNat) :
    (UInt32.ofNat i).toNat = i := by
  rw [UInt32.toNat_ofNat', Nat.mod_eq_of_lt (by omega)]

/-- Where a block starts. -/
theorem toNat_blockStart (hlen : len.toNat + 64 < 2 ^ 32) (hi : i * 64 < len.toNat) :
    (UInt32.ofNat i * blockLen).toNat = i * 64 := by
  have hword : blockLen.toNat = 64 := rfl
  rw [UInt32.toNat_mul, toNat_index hlen hi, hword, Nat.mod_eq_of_lt (by omega)]

/-- How long a block is: all are whole but the last. -/
theorem toNat_thisLen (hlen : len.toNat + 64 < 2 ^ 32) (hi : i * 64 < len.toNat) :
    (min blockLen (len - UInt32.ofNat i * blockLen)).toNat = min 64 (len.toNat - i * 64) := by
  have hword : blockLen.toNat = 64 := rfl
  have hoff := toNat_blockStart hlen hi
  have hle : UInt32.ofNat i * blockLen ≤ len := by
    rw [UInt32.le_iff_toNat_le, hoff]
    omega
  rw [UInt32.toNat_min, hword, UInt32.toNat_sub_of_le _ _ hle, hoff]

/-- The block that the loop reads is a chunk of the data. -/
theorem take_thisLen : (data.drop (i * 64)).take (min 64 (len.toNat - i * 64))
    = ((data.take len.toNat).drop (i * 64)).take 64 := by
  rw [List.drop_take, List.take_take]

theorem length_block (hfit : len.toNat ≤ data.length) :
    (((data.take len.toNat).drop (i * 64)).take 64).length = min 64 (len.toNat - i * 64) := by
  rw [List.length_take, List.length_drop, List.length_take]
  omega

theorem first_iff (hlen : len.toNat + 64 < 2 ^ 32) (hi : i * 64 < len.toNat) :
    UInt32.ofNat i = 0 ↔ i = 0 := by
  rw [← UInt32.toNat_inj, toNat_index hlen hi]
  rfl

theorem last_iff (hlen : len.toNat + 64 < 2 ^ 32) (hi : i < divCeil len.toNat 64) :
    UInt32.ofNat i = (len + blockLen - 1) / blockLen - 1 ↔ i = divCeil len.toNat 64 - 1 := by
  have hone : (1 : UInt32).toNat = 1 := rfl
  have hcount : ((len + blockLen - 1) / blockLen).toNat = divCeil len.toNat 64 :=
    toNat_nBlocks hlen
  have hindex := toNat_index hlen (mul_lt_of_lt_divCeil Blake3Ref.blockLen_pos hi)
  have hle : 1 ≤ (len + blockLen - 1) / blockLen := by
    rw [UInt32.le_iff_toNat_le, hcount, hone]
    omega
  rw [← UInt32.toNat_inj, hindex, UInt32.toNat_sub_of_le _ _ hle, hcount, hone]

/-- One pass of the loop is one block of the reference. -/
theorem hashBlock_eq (hlen : len.toNat + 64 < 2 ^ 32) (hfit : len.toNat ≤ data.length)
    (cv : Cv) (hi : i < divCeil len.toNat Blake3Ref.blockLen) :
    hashBlock data len ((len + blockLen - 1) / blockLen) cv i
      = some (Blake3Ref.hashBlock Blake3Ref.compress 0 true
          (divCeil len.toNat Blake3Ref.blockLen) cv
          (((data.take len.toNat).drop (i * Blake3Ref.blockLen)).take Blake3Ref.blockLen, i)) := by
  have hblock : Blake3Ref.blockLen = 64 := rfl
  have hinside := mul_lt_of_lt_divCeil Blake3Ref.blockLen_pos hi
  rw [hblock] at hi hinside ⊢
  have hthis := toNat_thisLen hlen hinside
  have hwords : wordsFromLeBytesPadded data (i * 64)
        (min blockLen (len - UInt32.ofNat i * blockLen))
      = some (Blake3Ref.wordsFromLeBytesPadded ((data.drop (i * 64)).take
        (min blockLen (len - UInt32.ofNat i * blockLen)).toNat)) :=
    wordsFromLeBytesPadded_eq (by omega) (by omega)
  have hlenWord : UInt32.ofNat (((data.take len.toNat).drop (i * 64)).take 64).length
      = min blockLen (len - UInt32.ofNat i * blockLen) := by
    rw [length_block hfit, ← hthis, UInt32.ofNat_toNat]
  rw [hthis, take_thisLen] at hwords
  unfold hashBlock
  simp only [toNat_blockStart hlen hinside, hwords, Option.bind_eq_bind, Option.bind_some,
    chainingValueOf_eq, first_iff hlen hinside, last_iff hlen hi]
  unfold Blake3Ref.hashBlock
  simp only [hlenWord, if_true]
  refine congrArg (fun flags => some (Blake3Ref.chainingValueOf _ cv _ 0 _ flags)) ?_
  split <;> split <;> rfl

end

/-- The kernel hashes a chunk as the reference does. -/
theorem blake3HashSmall_eq {data : Bytes} {len : UInt32} (hlen : len.toNat + 64 < 2 ^ 32)
    (hfit : len.toNat ≤ data.length) : blake3HashSmall data len
      = some (Blake3Ref.wordsToLeBytes
        (Blake3Ref.hashChunk Blake3Ref.compress (data.take len.toNat) 0 true)).toList := by
  unfold blake3HashSmall
  by_cases hzero : len = 0
  · -- no byte: one empty block
    subst hzero
    rw [if_pos rfl, wordsToBytes_eq, chainingValueOf_eq]
    rfl
  · have hpos : 0 < len.toNat := by
      rcases Nat.eq_zero_or_pos len.toNat with h | h
      · exact absurd (UInt32.toNat_inj.mp h) hzero
      · exact h
    have hlength : (data.take len.toNat).length = len.toNat := by
      rw [List.length_take]
      omega
    have hchunk : data.take len.toNat ≠ [] := by
      intro hnil
      rw [hnil] at hlength
      exact absurd hlength.symm (Nat.pos_iff_ne_zero.mp hpos)
    have hloop := (foldlM_eq_some (P := fun _ => True)
      (l := List.range (divCeil len.toNat Blake3Ref.blockLen))
      (fun cv _ i hi => ⟨hashBlock_eq hlen hfit cv (List.mem_range.mp hi), trivial⟩)
      (show True from trivial) (s := iv)).1
    rw [if_neg hzero]
    simp only [toNat_nBlocks hlen, hloop, Option.bind_eq_bind, Option.bind_some, wordsToBytes_eq]
    unfold Blake3Ref.hashChunk
    rw [if_neg hchunk, zipIdx_chunks, List.foldl_map, hlength]
    rfl

/-! ## Extendable output -/

/-- The bytes of some of the words of an output block. -/
def wordsBytes (out16 : Out16) (is : List (Fin 16)) : Bytes :=
  is.flatMap fun i => leBytes 4 (out16.get i).toNat

theorem length_wordsBytes (out16 : Out16) (is : List (Fin 16)) :
    (wordsBytes out16 is).length = 4 * is.length := by
  induction is with
  | nil => rfl
  | cons i is ih =>
    rw [wordsBytes, List.flatMap_cons, List.length_append, length_leBytes, ← wordsBytes, ih,
      List.length_cons]
    omega

/-- The inner loop writes a whole output block where 64 bytes are left. -/
theorem foldlM_xofWord {out : Bytes} {off : ℕ} (hout : out.length = 128) (hoff : off + 64 ≤ 128)
    (out16 : Out16) : (List.finRange 16).foldlM (xofWord out16) (out, UInt32.ofNat off)
      = some (splice out off (Blake3Ref.blockBytes out16), UInt32.ofNat (off + 64)) := by
  have hrun := foldlM_prefix (f := xofWord out16) (l := List.finRange 16)
    (fun pre => (splice out off (wordsBytes out16 pre), UInt32.ofNat (off + 4 * pre.length)))
    fun pre i post hl => ?_
  · have hstart : splice out off (wordsBytes out16 []) = out := splice_nil out off
    rw [hstart] at hrun
    exact hrun
  -- the word that follows those written
  have hcount := congrArg List.length hl
  rw [List.length_finRange, List.length_append, List.length_cons] at hcount
  have hlen := length_wordsBytes out16 pre
  have hword : (UInt32.ofNat (off + 4 * pre.length)).toNat = off + 4 * pre.length := by
    rw [UInt32.toNat_ofNat', Nat.mod_eq_of_lt (by omega)]
  have hsize : itemSize.toNat = 128 := rfl
  have hmore : UInt32.ofNat (off + 4 * pre.length) < itemSize := by
    rw [UInt32.lt_iff_toNat_lt, hword, hsize]
    omega
  have hbuf : (splice out off (wordsBytes out16 pre)).length = 128 := by
    rw [length_splice (by omega), hout]
  have happend : wordsBytes out16 (pre ++ [i])
      = wordsBytes out16 pre ++ leBytes 4 out16[i].toNat := by
    rw [wordsBytes, List.flatMap_append, List.flatMap_singleton, wordsBytes]
    rfl
  have hnext : splice (splice out off (wordsBytes out16 pre)) (off + (wordsBytes out16 pre).length)
        (leBytes 4 out16[i].toNat)
      = splice out off (wordsBytes out16 pre ++ leBytes 4 out16[i].toNat) :=
    splice_splice (by omega)
  have hwritten : UInt32.ofNat (off + 4 * pre.length) + 4
      = UInt32.ofNat (off + 4 * (pre ++ [i]).length) := by
    rw [List.length_append, List.length_singleton, Nat.mul_add, ← Nat.add_assoc]
    exact (UInt32.ofNat_add _ 4).symm
  rw [hlen] at hnext
  unfold xofWord
  simp only [if_pos hmore, hword, writeU32_eq (show off + 4 * pre.length + 4
    ≤ (splice out off (wordsBytes out16 pre)).length by omega), Option.bind_eq_bind,
    Option.bind_some, writeU32Le_eq_splice, hnext, happend, hwritten]

/-- One round of the outer loop writes the output block of its counter. -/
theorem xofLoop_step {seed out : Bytes} (hseed : seed.length = 32) (hout : out.length = 128)
    {off : ℕ} (hoff : off + 64 ≤ 128) (rounds : ℕ) (counter : UInt64) :
    xofLoop (Blake3Ref.wordsFromLeBytesPadded seed) (chunkStart ||| chunkEnd ||| root) (rounds + 1)
        (out, UInt32.ofNat off) counter
      = xofLoop (Blake3Ref.wordsFromLeBytesPadded seed) (chunkStart ||| chunkEnd ||| root) rounds
        (splice out off (Blake3Ref.rootBlock Blake3Ref.compress seed counter),
          UInt32.ofNat (off + 64)) (counter + 1) := by
  have hword : (UInt32.ofNat off).toNat = off := by
    rw [UInt32.toNat_ofNat', Nat.mod_eq_of_lt (by omega)]
  have hmore : UInt32.ofNat off < itemSize := by
    have hsize : itemSize.toNat = 128 := rfl
    rw [UInt32.lt_iff_toNat_lt, hword, hsize]
    omega
  have hblock : Blake3Ref.rootBlock Blake3Ref.compress seed counter
      = Blake3Ref.blockBytes (Blake3Ref.compress Blake3Ref.iv
        (Blake3Ref.wordsFromLeBytesPadded seed) counter 32
        (Blake3Ref.chunkStart ||| Blake3Ref.chunkEnd ||| Blake3Ref.root)) := by
    rw [Blake3Ref.rootBlock, hseed]
    rfl
  rw [xofLoop, if_pos hmore, compress_eq]
  simp only [foldlM_xofWord hout hoff, Option.bind_eq_bind, Option.bind_some, hblock]
  rfl

theorem length_rootBlock (seed : Bytes) (counter : UInt64) :
    (Blake3Ref.rootBlock Blake3Ref.compress seed counter).length = 64 :=
  Blake3Ref.length_blockBytes _

/-- 128 bytes of output are two output blocks. -/
theorem xofValue_128 (seed : Bytes) : Blake3Ref.xofValue Blake3Ref.compress seed 128
    = Blake3Ref.rootBlock Blake3Ref.compress seed 0 ++
      Blake3Ref.rootBlock Blake3Ref.compress seed 1 := by
  have htwo : divCeil 128 Blake3Ref.blockLen = 2 := by decide
  have hcat : (List.range 2).flatMap (fun i =>
        Blake3Ref.rootBlock Blake3Ref.compress seed (UInt64.ofNat i))
      = Blake3Ref.rootBlock Blake3Ref.compress seed 0 ++
        Blake3Ref.rootBlock Blake3Ref.compress seed 1 := by
    rw [List.range_succ, List.flatMap_append, List.flatMap_singleton]
    rfl
  rw [Blake3Ref.xofValue, htwo, hcat]
  refine List.take_of_length_le ?_
  rw [List.length_append, length_rootBlock, length_rootBlock]

/-- The two output blocks, written one after the other, fill the mix. -/
theorem splice_rootBlocks {out : Bytes} (hout : out.length = 128) (seed : Bytes) :
    splice (splice out 0 (Blake3Ref.rootBlock Blake3Ref.compress seed 0)) 64
        (Blake3Ref.rootBlock Blake3Ref.compress seed 1)
      = Blake3Ref.xofValue Blake3Ref.compress seed 128 := by
  have hnext : splice (splice out 0 (Blake3Ref.rootBlock Blake3Ref.compress seed 0))
        (0 + (Blake3Ref.rootBlock Blake3Ref.compress seed 0).length)
        (Blake3Ref.rootBlock Blake3Ref.compress seed 1)
      = splice out 0 (Blake3Ref.rootBlock Blake3Ref.compress seed 0 ++
        Blake3Ref.rootBlock Blake3Ref.compress seed 1) :=
    splice_splice (by rw [length_rootBlock]; omega)
  rw [length_rootBlock] at hnext
  rw [hnext, xofValue_128, splice_all]
  rw [List.length_append, length_rootBlock, length_rootBlock, hout]

/-- The mix becomes the first 128 bytes of the extendable output of the seed. -/
theorem xofFrom32Bytes_eq {seed out : Bytes} (hseed : seed.length = 32) (hout : out.length = 128) :
    xofFrom32Bytes seed out = some (Blake3Ref.xofValue Blake3Ref.compress seed 128) := by
  have hwords : wordsFromLeBytesPadded seed 0 32 = some (Blake3Ref.wordsFromLeBytesPadded
      ((seed.drop 0).take (32 : UInt32).toNat)) :=
    wordsFromLeBytesPadded_eq (by decide) (by rw [hseed]; decide)
  have hall : (seed.drop 0).take (32 : UInt32).toNat = seed := by
    rw [List.drop_zero]
    exact List.take_of_length_le (Nat.le_of_eq hseed)
  have hrounds : itemSize.toNat = 125 + 1 + 1 + 1 := rfl
  have hfirst : (splice out 0 (Blake3Ref.rootBlock Blake3Ref.compress seed 0)).length = 128 := by
    rw [length_splice (by rw [length_rootBlock]; omega), hout]
  unfold xofFrom32Bytes
  rw [hwords, hall, hrounds]
  -- two rounds write; the third finds no room left
  show xofLoop _ _ (125 + 1 + 1 + 1) (out, UInt32.ofNat 0) 0 = _
  rw [xofLoop_step hseed hout (by decide), xofLoop_step hseed hfirst (by decide), xofLoop,
    if_neg (show ¬ UInt32.ofNat 128 < itemSize by decide), ← splice_rootBlocks hout seed]
  rfl

end Kernel

end Ondris
