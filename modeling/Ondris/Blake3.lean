import Ondris.Lib.CarryTree
import Ondris.Lib.Chunks
import Ondris.Lib.Encoding

/-!
# BLAKE3 of the GPU miner

`blake3_ref.rs`, a BLAKE3 written from scratch as the model of the OpenCL kernel.
The functions above `compress` take the compression function as a parameter. Counters
and offsets are natural numbers: a slice has fewer than `2^63` bytes.

Results:
1. `hashChunk_eq`: the loop over the blocks of a chunk computes its chaining value.
2. `streamChunks_eq`: the loop over the chunks keeps the carry stack and never pops an
   empty one.
3. `hash_eq_treeValue`: `hash` computes the recursive definition, and only its last
   compression carries the ROOT flag.
4. `xofFrom32Bytes_eq`: the loop of `xof_from_32_bytes` computes the extendable output.
5. `finish_eq`: the last loop of `compress` computes the words of its output one by one.
-/

namespace Ondris

namespace Blake3Ref

open Encoding Chunks

/-! ## The compression function -/

abbrev Words (n : ℕ) := Vector UInt32 n

/-- What `compress` computes: the 16 words of output for a chaining value, a block, a
counter, the length of the block and flags. -/
abbrev Compression := Words 8 → Words 16 → UInt64 → UInt32 → UInt32 → Words 16

/-- `IV`. -/
def iv : Words 8 :=
  #v[0x6A09E667, 0xBB67AE85, 0x3C6EF372, 0xA54FF53A, 0x510E527F, 0x9B05688C, 0x1F83D9AB,
    0x5BE0CD19]

/-- `MSG_PERMUTATION`. -/
def msgPermutation : Vector (Fin 16) 16 := #v[2, 6, 3, 10, 7, 0, 4, 13, 1, 11, 12, 5, 9, 14, 15, 8]

/-- `CHUNK_START`. -/
def chunkStart : UInt32 := (1 : UInt32) <<< 0

/-- `CHUNK_END`. -/
def chunkEnd : UInt32 := (1 : UInt32) <<< 1

/-- `PARENT`. -/
def parent : UInt32 := (1 : UInt32) <<< 2

/-- `ROOT`. -/
def root : UInt32 := (1 : UInt32) <<< 3

/-- `CHUNK_LEN`. -/
def chunkLen : ℕ := 1024

/-- `BLOCK_LEN`. -/
def blockLen : ℕ := 64

/-- `u32::rotate_right`. -/
def rotateRight (x n : UInt32) : UInt32 := x >>> n ||| x <<< (32 - n)

def g (state : Words 16) (a b c d : Fin 16) (mx my : UInt32) : Words 16 :=
  let state := state.set a (state[a] + state[b] + mx)
  let state := state.set d (rotateRight (state[d] ^^^ state[a]) 16)
  let state := state.set c (state[c] + state[d])
  let state := state.set b (rotateRight (state[b] ^^^ state[c]) 12)
  let state := state.set a (state[a] + state[b] + my)
  let state := state.set d (rotateRight (state[d] ^^^ state[a]) 8)
  let state := state.set c (state[c] + state[d])
  state.set b (rotateRight (state[b] ^^^ state[c]) 7)

/-- One round of `compress`. -/
def mixRound (state m : Words 16) : Words 16 :=
  let state := g state 0 4 8 12 m[0] m[1]
  let state := g state 1 5 9 13 m[2] m[3]
  let state := g state 2 6 10 14 m[4] m[5]
  let state := g state 3 7 11 15 m[6] m[7]
  let state := g state 0 5 10 15 m[8] m[9]
  let state := g state 1 6 11 12 m[10] m[11]
  let state := g state 2 7 8 13 m[12] m[13]
  g state 3 4 9 14 m[14] m[15]

def permuted (m : Words 16) : Words 16 := Vector.ofFn fun i => m[msgPermutation[i]]

/-- The core compression function. -/
def compress : Compression := fun cv blockWords counter blockLen flags =>
  let state : Words 16 :=
    #v[cv[0], cv[1], cv[2], cv[3], cv[4], cv[5], cv[6], cv[7], iv[0], iv[1], iv[2], iv[3],
      counter.toUInt32, (counter >>> 32).toUInt32, blockLen, flags]
  let rounds := (List.range 7).foldl (fun (acc : Words 16 × Words 16) round =>
    (mixRound acc.1 acc.2, if round < 6 then permuted acc.2 else acc.2)) (state, blockWords)
  (List.finRange 8).foldl (fun (state : Words 16) i =>
    let state := state.set i.val (state[i.val] ^^^ state[i.val + 8])
    state.set (i.val + 8) (state[i.val + 8] ^^^ cv[i])) rounds.1

/-- `u32::from_le_bytes`. -/
def fromLeBytes (bs : Bytes) : UInt32 := UInt32.ofNat (leNat bs)

/-- `words_from_le_bytes_padded`, of a block of at most 64 bytes. -/
def wordsFromLeBytesPadded (block : Bytes) : Words 16 :=
  let padded := block ++ List.replicate (blockLen - block.length) 0
  Vector.ofFn fun i => fromLeBytes ((padded.drop (i * 4)).take 4)

/-- `words_to_le_bytes`. -/
def wordsToLeBytes (words : Words 8) : List.Vector UInt8 32 :=
  ⟨(List.finRange 8).flatMap fun i => leBytes 4 words[i].toNat, by simp [List.length_flatMap]⟩

/-! ## The hash -/

section Hash

variable (f : Compression)

def chainingValueOf (cv : Words 8) (blockWords : Words 16) (counter : UInt64)
    (blockLen flags : UInt32) : Words 8 :=
  let out := f cv blockWords counter blockLen flags
  #v[out[0], out[1], out[2], out[3], out[4], out[5], out[6], out[7]]

/-- `if root { ROOT } else { 0 }`. -/
def rootFlag (isRoot : Bool) : UInt32 := if isRoot then root else 0

/-- One block of `hash_chunk`: the block number `i` of `nBlocks`. -/
def hashBlock (chunkCounter : UInt64) (isRoot : Bool) (nBlocks : ℕ) (cv : Words 8)
    (entry : Bytes × ℕ) : Words 8 :=
  let isFirst := entry.2 = 0
  let isLast := entry.2 = nBlocks - 1
  let flags : UInt32 := if isFirst then chunkStart else 0
  let flags := if isLast then (if isRoot then flags ||| chunkEnd ||| root else flags ||| chunkEnd)
    else flags
  chainingValueOf f cv (wordsFromLeBytesPadded entry.1) chunkCounter
    (UInt32.ofNat entry.1.length) flags

def hashChunk (chunk : Bytes) (chunkCounter : UInt64) (isRoot : Bool) : Words 8 :=
  if chunk = [] then
    chainingValueOf f iv (Vector.replicate 16 0) chunkCounter 0
      (chunkStart ||| chunkEnd ||| rootFlag isRoot)
  else
    (chunks blockLen chunk).zipIdx.foldl
      (hashBlock f chunkCounter isRoot (divCeil chunk.length blockLen)) iv

def parentCv (left right : Words 8) (isRoot : Bool) : Words 8 :=
  chainingValueOf f iv (left ++ right) 0 (UInt32.ofNat blockLen) (parent ||| rootFlag isRoot)

/-- `merge_cv_stack`; the stack is a list, top first. Popping an empty stack aborts. -/
def mergeCvStack : List (Words 8) → Words 8 → ℕ → Option (List (Words 8))
  | [], newCv, totalChunks => if totalChunks % 2 = 0 then none else some [newCv]
  | left :: stack, newCv, totalChunks =>
    if totalChunks % 2 = 0 then mergeCvStack stack (parentCv f left newCv false) (totalChunks / 2)
    else some (newCv :: left :: stack)

/-- `&data[start..stop]`, which aborts when it is out of range. -/
def slice (data : Bytes) (start stop : ℕ) : Option Bytes :=
  if start ≤ stop ∧ stop ≤ data.length then some ((data.drop start).take (stop - start)) else none

/-- The loop of `hash` over all chunks but the last: the stack, the offset and the
counter it ends with. -/
def streamChunks (data : Bytes) (nChunks : ℕ) (stack : List (Words 8)) (offset chunkCounter : ℕ) :
    Option (List (Words 8) × ℕ × ℕ) :=
  if chunkCounter + 1 < nChunks then
    match slice data offset (offset + chunkLen) with
    | none => none
    | some chunk =>
      let cv := hashChunk f chunk (UInt64.ofNat chunkCounter) false
      match mergeCvStack f stack cv (chunkCounter + 1) with
      | none => none
      | some stack => streamChunks data nChunks stack (offset + chunkLen) (chunkCounter + 1)
  else some (stack, offset, chunkCounter)
termination_by nChunks - chunkCounter

/-- The last loop of `hash`. -/
def foldStack : List (Words 8) → Words 8 → Words 8
  | [], acc => acc
  | left :: stack, acc => foldStack stack (parentCv f left acc stack.isEmpty)

def hash (data : Bytes) : Option (List.Vector UInt8 32) :=
  if data.length ≤ chunkLen then some (wordsToLeBytes (hashChunk f data 0 true))
  else
    match streamChunks f data (divCeil data.length chunkLen) [] 0 0 with
    | none => none
    | some (stack, offset, chunkCounter) =>
      match slice data offset data.length with
      | none => none
      | some lastChunk =>
        let acc := hashChunk f lastChunk (UInt64.ofNat chunkCounter) stack.isEmpty
        some (wordsToLeBytes (foldStack f stack acc))

/-! ## The recursive definition -/

/-- The chaining value of the rest of a chunk: its blocks in order, the last one, which
may be shorter, with CHUNK_END. -/
def chunkValue (counter : UInt64) (isRoot : Bool) (cv : Words 8) (start : UInt32) (bs : Bytes) :
    Words 8 :=
  if bs.length ≤ blockLen then
    chainingValueOf f cv (wordsFromLeBytesPadded bs) counter (UInt32.ofNat bs.length)
      (start ||| chunkEnd ||| rootFlag isRoot)
  else
    chunkValue counter isRoot
      (chainingValueOf f cv (wordsFromLeBytesPadded (bs.take blockLen)) counter
        (UInt32.ofNat blockLen) start) 0 (bs.drop blockLen)
termination_by bs.length
decreasing_by
  have hpos : 0 < blockLen := by decide
  rw [List.length_drop]
  omega

theorem chunkLen_pos : 0 < chunkLen := by decide

theorem two_le_divCeil {m : ℕ} (h : chunkLen < m) : 2 ≤ divCeil m chunkLen := by
  unfold divCeil
  unfold chunkLen at h ⊢
  omega

/-- The left part leaves something for the right one. -/
theorem split_mul_lt {m : ℕ} (h : chunkLen < m) :
    CarryTree.split (divCeil m chunkLen) * chunkLen < m := by
  have hlt := CarryTree.split_lt (two_le_divCeil h)
  have hle := divCeil_mul_lt chunkLen_pos m
  have hmul : (CarryTree.split (divCeil m chunkLen) + 1) * chunkLen
      ≤ divCeil m chunkLen * chunkLen := Nat.mul_le_mul_right _ hlt
  rw [Nat.add_mul] at hmul
  omega

/-- The value of the subtree over `bs`, which starts with chunk `counter`: a chunk, or
the parent of a left part of the largest power of two of chunks and the rest. -/
def treeValue (counter : ℕ) (isRoot : Bool) (bs : Bytes) : Words 8 :=
  if bs.length ≤ chunkLen then
    chunkValue f (UInt64.ofNat counter) isRoot iv chunkStart bs
  else
    let left := CarryTree.split (divCeil bs.length chunkLen)
    parentCv f (treeValue counter false (bs.take (left * chunkLen)))
      (treeValue (counter + left) false (bs.drop (left * chunkLen))) isRoot
termination_by bs.length
decreasing_by
  · have hinside := split_mul_lt (by omega : chunkLen < bs.length)
    rw [List.length_take]
    omega
  · have hpos := Nat.mul_pos (CarryTree.split_pos (divCeil bs.length chunkLen)) chunkLen_pos
    rw [List.length_drop]
    omega

/-- `f'` computes what `f` does as long as the ROOT flag is not set. -/
def AgreeOffRoot (f f' : Compression) : Prop := ∀ cv blockWords counter blockLen flags,
  flags &&& root = 0 → f' cv blockWords counter blockLen flags = f cv blockWords counter blockLen flags

/-- The hash is one compression with the ROOT flag, of an input that compressions
without the flag determine. -/
def RootLast (data : Bytes) : Prop := ∃ cv blockWords counter blockLen flags,
  flags &&& root = 0 ∧ ∀ f', AgreeOffRoot f f' → hash f' data
    = some (wordsToLeBytes (chainingValueOf f' cv blockWords counter blockLen (flags ||| root)))

end Hash

variable {f f' : Compression}

/-! ## The last loop of `compress` -/

/-- One pass of the last loop of `compress`, which works in place. -/
def finishWord (cv : Words 8) (state : Words 16) (i : Fin 8) : Words 16 :=
  let state := state.set i.val (state[i.val] ^^^ state[i.val + 8])
  state.set (i.val + 8) (state[i.val + 8] ^^^ cv[i])

theorem finishWord_low (cv : Words 8) (state : Words 16) (i j : Fin 8) :
    (finishWord cv state i)[j.val]
      = if i = j then state[j.val] ^^^ state[j.val + 8] else state[j.val] := by
  have hhigh : i.val + 8 ≠ j.val := by omega
  unfold finishWord
  simp only
  rw [Vector.getElem_set_ne _ _ hhigh, Vector.getElem_set]
  by_cases hij : i = j
  · subst hij
    rw [if_pos rfl, if_pos rfl]
  · rw [if_neg (fun h => hij (Fin.ext h)), if_neg hij]

theorem finishWord_high (cv : Words 8) (state : Words 16) (i j : Fin 8) :
    (finishWord cv state i)[j.val + 8]
      = if i = j then state[j.val + 8] ^^^ cv[j] else state[j.val + 8] := by
  unfold finishWord
  simp only
  rw [Vector.getElem_set]
  by_cases hij : i = j
  · subst hij
    rw [if_pos rfl, if_pos rfl, Vector.getElem_set_ne _ _ (by omega)]
  · have hne : i.val + 8 ≠ j.val + 8 := fun h => hij (Fin.ext (by omega))
    rw [if_neg hne, if_neg hij, Vector.getElem_set_ne _ _ (by omega)]

/-- After the loop over `l`, the words of `l` are finished and the others are not. -/
theorem foldl_finishWord (cv : Words 8) {l : List (Fin 8)} (hl : l.Nodup) (state : Words 16)
    (j : Fin 8) : (l.foldl (finishWord cv) state)[j.val]
        = (if j ∈ l then state[j.val] ^^^ state[j.val + 8] else state[j.val]) ∧
      (l.foldl (finishWord cv) state)[j.val + 8]
        = if j ∈ l then state[j.val + 8] ^^^ cv[j] else state[j.val + 8] := by
  induction l generalizing state with
  | nil => exact ⟨rfl, rfl⟩
  | cons i l ih =>
    obtain ⟨hi, hl⟩ := List.nodup_cons.mp hl
    obtain ⟨hlow, hhigh⟩ := ih hl (finishWord cv state i)
    rw [List.foldl_cons, hlow, hhigh, finishWord_low, finishWord_high]
    by_cases hij : i = j
    · subst hij
      rw [if_neg hi, if_neg hi, if_pos rfl, if_pos rfl, if_pos List.mem_cons_self,
        if_pos List.mem_cons_self]
      exact ⟨rfl, rfl⟩
    · have hmem : j ∈ i :: l ↔ j ∈ l := by
        rw [List.mem_cons, or_iff_right (Ne.symm hij)]
      simp only [if_neg hij, hmem, and_self]

theorem finish_eq (state : Words 16) (cv : Words 8) :
    (List.finRange 8).foldl (finishWord cv) state
    = (Vector.ofFn (fun i : Fin 8 => state[i.val] ^^^ state[i.val + 8]) ++
      Vector.ofFn (fun i : Fin 8 => state[i.val + 8] ^^^ cv[i]) : Words 16) := by
  refine Vector.ext fun k hk => ?_
  rcases Nat.lt_or_ge k 8 with hlow | hhigh
  · have hword := (foldl_finishWord cv (List.nodup_finRange 8) state ⟨k, hlow⟩).1
    rw [if_pos (List.mem_finRange _)] at hword
    rw [Vector.getElem_append_left hlow, Vector.getElem_ofFn]
    exact hword
  · obtain ⟨m, rfl⟩ := Nat.exists_eq_add_of_le' hhigh
    have hm : m < 8 := by omega
    have hword := (foldl_finishWord cv (List.nodup_finRange 8) state ⟨m, hm⟩).2
    rw [if_pos (List.mem_finRange _)] at hword
    rw [Vector.getElem_append_right (by omega) (by omega), Vector.getElem_ofFn]
    simp only [Nat.add_sub_cancel]
    exact hword

/-! ## Chunks -/

theorem chunkValue_short {bs : Bytes} (h : bs.length ≤ blockLen) (counter : UInt64) (isRoot : Bool)
    (cv : Words 8) (start : UInt32) : chunkValue f counter isRoot cv start bs
      = chainingValueOf f cv (wordsFromLeBytesPadded bs) counter (UInt32.ofNat bs.length)
        (start ||| chunkEnd ||| rootFlag isRoot) := by
  rw [chunkValue, if_pos h]

theorem chunkValue_long {bs : Bytes} (h : blockLen < bs.length) (counter : UInt64) (isRoot : Bool)
    (cv : Words 8) (start : UInt32) : chunkValue f counter isRoot cv start bs
      = chunkValue f counter isRoot (chainingValueOf f cv
          (wordsFromLeBytesPadded (bs.take blockLen)) counter (UInt32.ofNat blockLen) start) 0
        (bs.drop blockLen) := by
  rw [chunkValue, if_neg (Nat.not_le_of_gt h)]

theorem treeValue_short {bs : Bytes} (h : bs.length ≤ chunkLen) (counter : ℕ) (isRoot : Bool) :
    treeValue f counter isRoot bs
      = chunkValue f (UInt64.ofNat counter) isRoot iv chunkStart bs := by
  rw [treeValue, if_pos h]

theorem treeValue_long {bs : Bytes} (h : chunkLen < bs.length) (counter : ℕ) (isRoot : Bool) :
    treeValue f counter isRoot bs = parentCv f
      (treeValue f counter false
        (bs.take (CarryTree.split (divCeil bs.length chunkLen) * chunkLen)))
      (treeValue f (counter + CarryTree.split (divCeil bs.length chunkLen)) false
        (bs.drop (CarryTree.split (divCeil bs.length chunkLen) * chunkLen))) isRoot := by
  rw [treeValue, if_neg (Nat.not_le_of_gt h)]

theorem blockLen_pos : 0 < blockLen := by decide

theorem wordsFromLeBytesPadded_nil : wordsFromLeBytesPadded [] = Vector.replicate 16 0 := by
  decide

/-- The loop over the blocks, from block number `k` on. -/
theorem foldl_hashBlock (counter : UInt64) (isRoot : Bool) {bs : Bytes} (hbs : bs ≠ [])
    (cv : Words 8) {k nBlocks : ℕ} (hn : nBlocks = k + divCeil bs.length blockLen) :
    ((chunks blockLen bs).zipIdx k).foldl (hashBlock f counter isRoot nBlocks) cv
      = chunkValue f counter isRoot cv (if k = 0 then chunkStart else 0) bs := by
  induction hlen : bs.length using Nat.strongRecOn generalizing bs cv k with
  | _ n ih =>
    have hblock := blockLen_pos
    have hpos := List.length_pos_iff.mpr hbs
    have hcount := divCeil_eq_succ blockLen_pos hpos
    rcases Nat.lt_or_ge blockLen bs.length with hlong | hshort
    · have hrest : bs.drop blockLen ≠ [] := by
        rw [Ne, List.drop_eq_nil_iff]
        omega
      have hdrop : (bs.drop blockLen).length = bs.length - blockLen := List.length_drop
      have hmore : k ≠ nBlocks - 1 := by
        have hnext : divCeil (bs.length - blockLen) blockLen
            = divCeil (bs.length - blockLen - blockLen) blockLen + 1 :=
          divCeil_eq_succ blockLen_pos (by omega)
        omega
      have htake : (bs.take blockLen).length = blockLen := by
        rw [List.length_take]
        omega
      have hhead : hashBlock f counter isRoot nBlocks cv (bs.take blockLen, k)
          = chainingValueOf f cv (wordsFromLeBytesPadded (bs.take blockLen)) counter
            (UInt32.ofNat blockLen) (if k = 0 then chunkStart else 0) := by
        rw [hashBlock]
        simp only [if_neg hmore, htake]
      have htail := ih (bs.drop blockLen).length (by omega) hrest
        (hashBlock f counter isRoot nBlocks cv (bs.take blockLen, k)) (k := k + 1)
        (by rw [hdrop]; omega) rfl
      rw [chunkValue_long hlong, chunks_eq_cons blockLen_pos hbs, List.zipIdx_cons, List.foldl_cons,
        htail, hhead, if_neg (Nat.succ_ne_zero k)]
    · -- the last block
      have hlast : k = nBlocks - 1 := by
        rw [Nat.sub_eq_zero_of_le hshort, divCeil_zero blockLen_pos] at hcount
        omega
      rw [chunkValue_short hshort, chunks_of_length_le hbs hshort, List.zipIdx_singleton,
        List.foldl_cons, List.foldl_nil, hashBlock]
      simp only [if_pos hlast]
      cases isRoot with
      | false => simp [rootFlag]
      | true => simp [rootFlag]

/-- `hash_chunk` computes the chaining value of a chunk. -/
theorem hashChunk_eq (chunk : Bytes) (counter : UInt64) (isRoot : Bool) :
    hashChunk f chunk counter isRoot = chunkValue f counter isRoot iv chunkStart chunk := by
  unfold hashChunk
  split
  · next hnil =>
    have hle : ([] : Bytes).length ≤ blockLen := Nat.zero_le _
    rw [hnil, chunkValue_short hle, wordsFromLeBytesPadded_nil]
    rfl
  · next hne => exact foldl_hashBlock counter isRoot hne iv (Nat.zero_add _).symm

/-! ## The stack -/

theorem mergeCvStack_eq (stack : List (Words 8)) (cv : Words 8) (totalChunks : ℕ) :
    mergeCvStack f stack cv totalChunks = CarryTree.push (parentCv f) stack cv totalChunks := by
  induction stack generalizing cv totalChunks with
  | nil => rfl
  | cons left stack ih => rw [mergeCvStack, CarryTree.push, ih]

theorem foldStack_eq (stack : List (Words 8)) (acc : Words 8) :
    foldStack f stack acc = CarryTree.collapse (parentCv f) stack acc := by
  induction stack generalizing acc with
  | nil => rfl
  | cons left stack ih => rw [foldStack, CarryTree.collapse, ih]

/-- The chaining value of chunk number `i`. -/
def leafCv (f : Compression) (data : Bytes) (i : ℕ) (isRoot : Bool) : Words 8 :=
  hashChunk f ((data.drop (i * chunkLen)).take chunkLen) (UInt64.ofNat i) isRoot

/-- The loop over the chunks keeps the carry stack; it never pops an empty stack. -/
theorem streamChunks_eq (f : Compression) (data : Bytes) {c : ℕ}
    (hc : c < divCeil data.length chunkLen) :
    streamChunks f data (divCeil data.length chunkLen)
        (CarryTree.stackOf (leafCv f data) (parentCv f) 0 c) (c * chunkLen) c
      = some (CarryTree.stackOf (leafCv f data) (parentCv f) 0 (divCeil data.length chunkLen - 1),
          (divCeil data.length chunkLen - 1) * chunkLen, divCeil data.length chunkLen - 1) := by
  have hlen := divCeil_mul_lt chunkLen_pos data.length
  generalize hn : divCeil data.length chunkLen = n at hc hlen ⊢
  induction hleft : n - c using Nat.strongRecOn generalizing c with
  | _ r ih =>
    rw [streamChunks]
    split
    · next hmore =>
      have hinside : (c + 2) * chunkLen ≤ n * chunkLen := Nat.mul_le_mul_right _ hmore
      have hstop : c * chunkLen + chunkLen = (c + 1) * chunkLen := (Nat.succ_mul c chunkLen).symm
      -- the chunk is not the last one, so it lies in the data whole
      have hslice : slice data (c * chunkLen) ((c + 1) * chunkLen)
          = some ((data.drop (c * chunkLen)).take chunkLen) := by
        rw [slice, ← hstop, if_pos, Nat.add_sub_cancel_left]
        rw [Nat.add_mul] at hinside
        omega
      have hpush : CarryTree.push (parentCv f) (CarryTree.stackOf (leafCv f data) (parentCv f) 0 c)
            (CarryTree.perfect (leafCv f data) (parentCv f) 0 c) (c + 1)
          = some (CarryTree.stackOf (leafCv f data) (parentCv f) 0 (c + 1)) :=
        CarryTree.push_stackOf 0 c
      have hleaf : hashChunk f ((data.drop (c * chunkLen)).take chunkLen) (UInt64.ofNat c) false
          = CarryTree.perfect (leafCv f data) (parentCv f) 0 c := rfl
      simp only [hstop, hslice, mergeCvStack_eq, hleaf, hpush]
      exact ih (n - (c + 1)) (by omega) (by omega) rfl
    · next hlast =>
      obtain rfl : c = n - 1 := by omega
      rfl

/-! ## The tree -/

/-- `leaf` gives the values of the chunks, the first of which has the counter `counter`. -/
def Leaves (f : Compression) (leaf : ℕ → Bool → Words 8) (counter : ℕ) (bs : Bytes) : Prop :=
  ∀ i < divCeil bs.length chunkLen, ∀ isRoot, leaf (counter + i) isRoot
    = hashChunk f ((bs.drop (i * chunkLen)).take chunkLen) (UInt64.ofNat (counter + i)) isRoot

theorem Leaves.take {leaf : ℕ → Bool → Words 8} {counter k : ℕ} {bs : Bytes}
    (h : Leaves f leaf counter bs) (hk : k < divCeil bs.length chunkLen) :
    Leaves f leaf counter (bs.take (k * chunkLen)) := by
  have hinside := mul_lt_of_lt_divCeil chunkLen_pos hk
  intro i hi isRoot
  rw [List.length_take_of_le hinside.le, divCeil_mul chunkLen_pos] at hi
  rw [h i (hi.trans hk), take_chunk hi]

theorem Leaves.drop {leaf : ℕ → Bool → Words 8} {counter k : ℕ} {bs : Bytes}
    (h : Leaves f leaf counter bs) (hk : k < divCeil bs.length chunkLen) :
    Leaves f leaf (counter + k) (bs.drop (k * chunkLen)) := by
  have hinside := mul_lt_of_lt_divCeil chunkLen_pos hk
  intro i hi isRoot
  rw [List.length_drop, divCeil_sub_mul _ _ hinside.le] at hi
  rw [Nat.add_assoc, h (k + i) (by omega), drop_chunk]

/-- The recursive definition is the tree over the chunks. -/
theorem treeValue_eq {leaf : ℕ → Bool → Words 8} (counter : ℕ) (isRoot : Bool) {bs : Bytes}
    (hbs : bs ≠ []) (hleaf : Leaves f leaf counter bs) : treeValue f counter isRoot bs
      = CarryTree.tree leaf (parentCv f) counter (divCeil bs.length chunkLen) isRoot := by
  have hchunk := chunkLen_pos
  induction hlen : bs.length using Nat.strongRecOn generalizing counter isRoot bs with
  | _ m ih =>
    subst hlen
    have hpos := List.length_pos_iff.mpr hbs
    rw [CarryTree.tree]
    rcases le_or_gt bs.length chunkLen with hshort | hlong
    · have hone : divCeil bs.length chunkLen = 1 := by
        rw [divCeil_eq_succ chunkLen_pos hpos, Nat.sub_eq_zero_of_le hshort,
          divCeil_zero chunkLen_pos]
      have hfirst := hleaf 0 (by rw [hone]; decide) isRoot
      rw [Nat.zero_mul, List.drop_zero, List.take_of_length_le hshort, hashChunk_eq] at hfirst
      rw [treeValue_short hshort, hone, if_pos (Nat.le_refl 1)]
      exact hfirst.symm
    · have hcount := two_le_divCeil hlong
      have hlt := CarryTree.split_lt hcount
      have hsplit := CarryTree.split_pos (divCeil bs.length chunkLen)
      rw [treeValue_long hlong, if_neg (by omega)]
      -- both sides are split at the same chunk
      generalize CarryTree.split (divCeil bs.length chunkLen) = k at hlt hsplit ⊢
      have hinside := mul_lt_of_lt_divCeil chunkLen_pos hlt
      have hkpos := Nat.mul_pos hsplit chunkLen_pos
      have htake : (bs.take (k * chunkLen)).length = k * chunkLen :=
        List.length_take_of_le hinside.le
      have hdrop : (bs.drop (k * chunkLen)).length = bs.length - k * chunkLen := List.length_drop
      have hleft := ih _ (by omega) counter false (List.length_pos_iff.mp (by omega))
        (hleaf.take hlt) rfl
      have hright := ih _ (by omega) (counter + k) false (List.length_pos_iff.mp (by omega))
        (hleaf.drop hlt) rfl
      rw [hleft, hright, htake, hdrop, divCeil_mul chunkLen_pos, divCeil_sub_mul _ _ hinside.le]

/-- `hash` computes the recursive definition. -/
theorem hash_eq_some (f : Compression) (data : Bytes) :
    hash f data = some (wordsToLeBytes (treeValue f 0 true data)) := by
  unfold hash
  split
  · next hshort =>
    rw [treeValue_short hshort, hashChunk_eq]
    rfl
  · next hlong =>
    have hcount := two_le_divCeil (Nat.lt_of_not_le hlong)
    have hne : data ≠ [] := by
      rintro rfl
      exact hlong (Nat.zero_le _)
    have hmul := divCeil_mul_lt chunkLen_pos data.length
    have hall := le_divCeil_mul chunkLen_pos data.length
    -- the tree of the reference over the chunks is the one that the stack builds
    have htree : treeValue f 0 true data
        = CarryTree.tree (leafCv f data) (parentCv f) 0 (divCeil data.length chunkLen) true :=
      treeValue_eq 0 true hne fun i _ isRoot => by rw [Nat.zero_add, leafCv]
    have hstream := streamChunks_eq f data (c := 0) (by omega)
    rw [CarryTree.stackOf_zero, Nat.zero_mul] at hstream
    generalize divCeil data.length chunkLen = n at *
    have hsucc : (n - 1) * chunkLen + chunkLen = n * chunkLen := by
      rw [← Nat.succ_mul]
      congr 1
      omega
    have hslice : slice data ((n - 1) * chunkLen) data.length
        = some ((data.drop ((n - 1) * chunkLen)).take chunkLen) := by
      rw [slice, if_pos (by omega), List.take_of_length_le (by rw [List.length_drop]),
        List.take_of_length_le (by rw [List.length_drop]; omega)]
    have hcollapse : CarryTree.collapse (parentCv f)
          (CarryTree.stackOf (leafCv f data) (parentCv f) 0 (n - 1))
          (leafCv f data (n - 1) (CarryTree.stackOf (leafCv f data) (parentCv f) 0 (n - 1)).isEmpty)
        = CarryTree.tree (leafCv f data) (parentCv f) 0 n true := by
      rw [CarryTree.collapse_last, Nat.sub_add_cancel (by omega)]
    simp only [hstream, hslice, foldStack_eq]
    rw [htree, ← hcollapse]
    rfl

/-- The known answer for the empty input. -/
example : (hash compress []).map (·.toList) =
    some [0xaf, 0x13, 0x49, 0xb9, 0xf5, 0xf9, 0xa1, 0xa6, 0xa0, 0x40, 0x4d, 0xea, 0x36, 0xdc, 0xc9,
      0x49, 0x9b, 0xcb, 0x25, 0xc9, 0xad, 0xc1, 0x12, 0xb7, 0xcc, 0x9a, 0x93, 0xca, 0xe4, 0x1f,
      0x32, 0x62] := by
  decide +kernel

/-! ## The ROOT flag -/

theorem chainingValueOf_congr (h : AgreeOffRoot f f') (cv : Words 8) (blockWords : Words 16)
    (counter : UInt64) (len : UInt32) {flags : UInt32} (hflags : flags &&& root = 0) :
    chainingValueOf f' cv blockWords counter len flags
      = chainingValueOf f cv blockWords counter len flags := by
  unfold chainingValueOf
  rw [h cv blockWords counter len flags hflags]

/-- A chunk that is not the root compresses without the flag. -/
theorem chunkValue_congr (h : AgreeOffRoot f f') (counter : UInt64) (cv : Words 8) {start : UInt32}
    (hstart : start = chunkStart ∨ start = 0) (bs : Bytes) :
    chunkValue f' counter false cv start bs = chunkValue f counter false cv start bs := by
  induction hlen : bs.length using Nat.strongRecOn generalizing cv start bs with
  | _ n ih =>
    rcases Nat.lt_or_ge blockLen bs.length with hlong | hshort
    · have hblock := blockLen_pos
      have hflags : start &&& root = 0 := by
        rcases hstart with rfl | rfl <;> decide
      have hdrop : (bs.drop blockLen).length < n := by
        rw [List.length_drop]
        omega
      rw [chunkValue_long hlong, chunkValue_long hlong, chainingValueOf_congr h _ _ _ _ hflags]
      exact ih _ hdrop _ (.inr rfl) _ rfl
    · rw [chunkValue_short hshort, chunkValue_short hshort]
      refine chainingValueOf_congr h _ _ _ _ ?_
      rcases hstart with rfl | rfl <;> decide

/-- A chunk that is the root compresses with the flag once, at its end. -/
theorem chunkValue_root (f : Compression) (counter : UInt64) (cv : Words 8) {start : UInt32}
    (hstart : start = chunkStart ∨ start = 0) (bs : Bytes) :
    ∃ cv' blockWords len flags, flags &&& root = 0 ∧ ∀ f', AgreeOffRoot f f' →
      chunkValue f' counter true cv start bs
        = chainingValueOf f' cv' blockWords counter len (flags ||| root) := by
  induction hlen : bs.length using Nat.strongRecOn generalizing cv start bs with
  | _ n ih =>
    rcases Nat.lt_or_ge blockLen bs.length with hlong | hle
    · have hblock := blockLen_pos
      have hflags : start &&& root = 0 := by
        rcases hstart with rfl | rfl <;> decide
      have hshort : (bs.drop blockLen).length < n := by
        rw [List.length_drop]
        omega
      obtain ⟨cv', blockWords, len, flags, hoff, hall⟩ := ih _ hshort
        (chainingValueOf f cv (wordsFromLeBytesPadded (bs.take blockLen)) counter
          (UInt32.ofNat blockLen) start) (.inr rfl) _ rfl
      refine ⟨cv', blockWords, len, flags, hoff, fun f' h => ?_⟩
      rw [chunkValue_long hlong, chainingValueOf_congr h _ _ _ _ hflags, hall f' h]
    · refine ⟨cv, wordsFromLeBytesPadded bs, UInt32.ofNat bs.length, start ||| chunkEnd, ?_,
        fun f' _ => ?_⟩
      · rcases hstart with rfl | rfl <;> decide
      · rw [chunkValue_short hle]
        rfl

/-- A subtree that is not the root compresses without the flag. -/
theorem treeValue_congr (h : AgreeOffRoot f f') (counter : ℕ) (bs : Bytes) :
    treeValue f' counter false bs = treeValue f counter false bs := by
  induction hlen : bs.length using Nat.strongRecOn generalizing counter bs with
  | _ n ih =>
    rcases Nat.lt_or_ge chunkLen bs.length with hlong | hshort
    · have hinside := split_mul_lt hlong
      have hpos := Nat.mul_pos (CarryTree.split_pos (divCeil bs.length chunkLen)) chunkLen_pos
      have htake : (bs.take (CarryTree.split (divCeil bs.length chunkLen) * chunkLen)).length < n := by
        rw [List.length_take]
        omega
      have hdrop : (bs.drop (CarryTree.split (divCeil bs.length chunkLen) * chunkLen)).length < n := by
        rw [List.length_drop]
        omega
      rw [treeValue_long hlong, treeValue_long hlong, ih _ htake _ _ rfl, ih _ hdrop _ _ rfl]
      exact chainingValueOf_congr h _ _ _ _ (by decide)
    · rw [treeValue_short hshort, treeValue_short hshort]
      exact chunkValue_congr h _ _ (.inl rfl) _

/-- The last compression of the tree, and no other, carries the flag. -/
theorem treeValue_root (f : Compression) (bs : Bytes) :
    ∃ cv blockWords counter len flags, flags &&& root = 0 ∧ ∀ f', AgreeOffRoot f f' →
      treeValue f' 0 true bs = chainingValueOf f' cv blockWords counter len (flags ||| root) := by
  rcases Nat.lt_or_ge chunkLen bs.length with hlong | hle
  · refine ⟨iv, treeValue f 0 false (bs.take (CarryTree.split (divCeil bs.length chunkLen) * chunkLen))
        ++ treeValue f (0 + CarryTree.split (divCeil bs.length chunkLen)) false
          (bs.drop (CarryTree.split (divCeil bs.length chunkLen) * chunkLen)),
      0, UInt32.ofNat blockLen, parent, by decide, fun f' h => ?_⟩
    rw [treeValue_long hlong, treeValue_congr h, treeValue_congr h]
    rfl
  · obtain ⟨cv, blockWords, len, flags, hoff, hall⟩ :=
      chunkValue_root f (UInt64.ofNat 0) iv (.inl rfl) bs
    refine ⟨cv, blockWords, UInt64.ofNat 0, len, flags, hoff, fun f' h => ?_⟩
    rw [treeValue_short hle, hall f' h]

/-- **The hash is BLAKE3.** It never pops an empty stack or slices out of range, it
computes the recursive definition, and its last compression is the only one with the
ROOT flag. -/
theorem hash_eq_treeValue (f : Compression) (data : Bytes) :
    hash f data = some (wordsToLeBytes (treeValue f 0 true data)) ∧ RootLast f data := by
  obtain ⟨cv, blockWords, counter, len, flags, hoff, hall⟩ := treeValue_root f data
  refine ⟨hash_eq_some f data, cv, blockWords, counter, len, flags, hoff, fun f' h => ?_⟩
  rw [hash_eq_some, hall f' h]

/-! ## Extendable output -/

section Xof

variable (f : Compression)

/-- The bytes of a whole output block. -/
def blockBytes (words : Words 16) : Bytes :=
  (List.finRange 16).flatMap fun i => leBytes 4 words[i].toNat

/-- The compression of an input of one block, which is the root, for an output block. -/
def rootBlock (block : Bytes) (counter : UInt64) : Bytes :=
  blockBytes (f iv (wordsFromLeBytesPadded block) counter (UInt32.ofNat block.length)
    (chunkStart ||| chunkEnd ||| root))

/-- The first `n` bytes of the extendable output of an input of one block. -/
def xofValue (block : Bytes) (n : ℕ) : Bytes :=
  ((List.range (divCeil n blockLen)).flatMap fun i => rootBlock f block (UInt64.ofNat i)).take n

@[simp] theorem length_blockBytes (words : Words 16) : (blockBytes words).length = blockLen := by
  simp [blockBytes, List.length_flatMap, blockLen]

@[simp] theorem length_xofValue (block : Bytes) (n : ℕ) : (xofValue f block n).length = n := by
  have hle := le_divCeil_mul blockLen_pos n
  have hlen : ((List.range (divCeil n blockLen)).flatMap fun i =>
      rootBlock f block (UInt64.ofNat i)).length = divCeil n blockLen * blockLen :=
    length_flatMap_range (fun _ => length_blockBytes _) _
  rw [xofValue, List.length_take, hlen]
  omega

/-- The loop of `xof_from_32_bytes`. -/
def xofLoop (seed : List.Vector UInt8 32) (outLen : ℕ) (out : Bytes) (counter : UInt64) : Bytes :=
  if out.length < outLen then
    let out16 := f iv (wordsFromLeBytesPadded seed.toList) counter (UInt32.ofNat seed.toList.length)
      (chunkStart ||| chunkEnd ||| root)
    xofLoop seed outLen (out ++ blockBytes out16) (counter + 1)
  else out
termination_by outLen - out.length
decreasing_by
  have hpos := blockLen_pos
  rw [List.length_append, length_blockBytes]
  omega

def xofFrom32Bytes (seed : List.Vector UInt8 32) (outLen : ℕ) : Bytes :=
  (xofLoop f seed outLen [] 0).take outLen

/-- The loop from output block number `c` on. -/
theorem xofLoop_eq (seed : List.Vector UInt8 32) (outLen : ℕ) {c : ℕ}
    (hc : c ≤ divCeil outLen blockLen) :
    xofLoop f seed outLen
        ((List.range c).flatMap fun i => rootBlock f seed.toList (UInt64.ofNat i)) (UInt64.ofNat c)
      = (List.range (divCeil outLen blockLen)).flatMap fun i =>
        rootBlock f seed.toList (UInt64.ofNat i) := by
  have hlen : ((List.range c).flatMap fun i => rootBlock f seed.toList (UInt64.ofNat i)).length
      = c * blockLen := length_flatMap_range (fun i => length_blockBytes _) c
  induction hn : divCeil outLen blockLen - c generalizing c with
  | zero =>
    -- all blocks are out
    have hle := le_divCeil_mul blockLen_pos outLen
    have hlast : c = divCeil outLen blockLen := by omega
    rw [xofLoop, if_neg (by rw [hlen, hlast]; omega), hlast]
  | succ n ih =>
    have hlt : c * blockLen < outLen := mul_lt_of_lt_divCeil blockLen_pos (by omega)
    have hnext : (List.range (c + 1)).flatMap (fun i => rootBlock f seed.toList (UInt64.ofNat i))
        = (List.range c).flatMap (fun i => rootBlock f seed.toList (UInt64.ofNat i)) ++
          rootBlock f seed.toList (UInt64.ofNat c) := by
      rw [List.range_succ, List.flatMap_append, List.flatMap_singleton]
    have hword : UInt64.ofNat c + 1 = UInt64.ofNat (c + 1) := (UInt64.ofNat_add c 1).symm
    rw [xofLoop, if_pos (by rw [hlen]; exact hlt), hword]
    have hrest := ih (c := c + 1) (by omega)
      (length_flatMap_range (fun i => length_blockBytes _) (c + 1)) (by omega)
    rw [hnext] at hrest
    exact hrest

theorem xofFrom32Bytes_eq (seed : List.Vector UInt8 32) (outLen : ℕ) :
    xofFrom32Bytes f seed outLen = xofValue f seed.toList outLen := by
  have hloop := xofLoop_eq f seed outLen (Nat.zero_le (divCeil outLen blockLen))
  exact congrArg (List.take outLen) hloop

end Xof

end Blake3Ref

end Ondris
