import Ondris.HashRef
import Ondris.KernelBlake3

/-!
# The three hashes agree

`ondris-pow`, the reference of the miner and the OpenCL kernel compute one hash. The crate's
BLAKE3 is taken to be the one of the recursive definition; the kernel gets the lengths of
its buffers as `uint` and `ulong`.

Results:
1. `Kernel.ondrisHashCore_eq`: the kernel computes the hash of `ondris-pow`.
2. `Kernel.meetsFrom_eq`: its comparison with the target is that of `meets_target`.
3. `hashes_agree`: all three, with no index out of range.
-/

namespace Ondris

open Encoding Buffers

namespace Kernel

/-! ## The mix -/

section Mix

variable {dataset : Dataset} {mix : Bytes}

/-- The words of an item, read in the dataset. -/
theorem readU32Le_item {p w : ℕ} (hp : p < dataset.lenBytes / Ondris.itemSize)
    (hw : w * 4 + 4 ≤ Ondris.itemSize) :
    readU32Le dataset.bytes (p * Ondris.itemSize + w * 4)
      = readU32Le (dataset.item p) (w * 4) := by
  have hrange := Dataset.item_range hp
  have hlen := Dataset.length_item hp
  rw [readU32Le_eq_fromLeBytes (by omega), readU32Le_eq_fromLeBytes (by omega),
    Dataset.item_eq_slice hp, List.drop_take, List.take_take, List.drop_drop,
    Nat.min_eq_left (by omega)]

section Pick

variable {datasetLen : UInt64}

theorem toNat_nItems (hlen : datasetLen.toNat = dataset.lenBytes) :
    (datasetLen / itemSize.toUInt64).toNat = dataset.lenBytes / Ondris.itemSize := by
  have hlong : itemSize.toUInt64.toNat = Ondris.itemSize := rfl
  rw [UInt64.toNat_div, hlen, hlong]

/-- The number of items is not 0: the remainder is defined. -/
theorem nItems_ne_zero (hlen : datasetLen.toNat = dataset.lenBytes)
    (hpos : Ondris.itemSize ≤ dataset.lenBytes) : datasetLen / itemSize.toUInt64 ≠ 0 := by
  have hitems : 0 < dataset.lenBytes / Ondris.itemSize := Nat.div_pos hpos (by decide)
  intro hzero
  have hcount := toNat_nItems hlen
  rw [hzero] at hcount
  exact absurd hcount.symm (Nat.pos_iff_ne_zero.mp hitems)

/-- The offset of the picked item does not wrap. -/
theorem toNat_item (hlen : datasetLen.toNat = dataset.lenBytes)
    (hpos : Ondris.itemSize ≤ dataset.lenBytes) (x : UInt32) :
    (x.toUInt64 % (datasetLen / itemSize.toUInt64) * itemSize.toUInt64).toNat
      = x.toNat % (dataset.lenBytes / Ondris.itemSize) * Ondris.itemSize := by
  have hlong : itemSize.toUInt64.toNat = Ondris.itemSize := rfl
  have hp : x.toNat % (dataset.lenBytes / Ondris.itemSize)
      < dataset.lenBytes / Ondris.itemSize := Nat.mod_lt _ (Nat.div_pos hpos (by decide))
  have hrange := Dataset.item_range hp
  have hlt := datasetLen.toNat_lt
  rw [UInt64.toNat_mul, UInt64.toNat_mod, toNat_nItems hlen, UInt32.toNat_toUInt64, hlong]
  rw [Dataset.lenBytes] at hlen
  exact Nat.mod_eq_of_lt (by omega)

end Pick

/-- The word of the mix that an access reads. -/
theorem toNat_mixWord {i : ℕ} (hi : i < 2 ^ 32) :
    ((UInt32.ofNat i % (itemSize / 4)) * 4).toNat = i % (Ondris.itemSize / 4) * 4 := by
  have hwords : (itemSize / 4).toNat = 32 := rfl
  have hcount : Ondris.itemSize / 4 = 32 := rfl
  have h4 : (4 : UInt32).toNat = 4 := rfl
  have hmod := Nat.mod_lt i (show 0 < 32 by decide)
  rw [UInt32.toNat_mul, UInt32.toNat_mod, UInt32.toNat_ofNat', Nat.mod_eq_of_lt hi, hwords, h4,
    hcount, Nat.mod_eq_of_lt (by omega)]

/-- The loop over the words of an item that starts at `off`. -/
theorem foldItem_eq {p off : ℕ} (hp : p < dataset.lenBytes / Ondris.itemSize)
    (hoff : off = p * Ondris.itemSize) (hmix : mix.length = Ondris.itemSize) :
    (List.range (itemSize / 4).toNat).foldlM (fun mix w => do
        let mixWord ← readU32 mix (w * 4)
        let itemWord ← readU32Global dataset.bytes (off + w * 4)
        writeU32 mix (w * 4) (fnv mixWord itemWord)) mix
      = some (foldItem mix (dataset.item p)) ∧
    (foldItem mix (dataset.item p)).length = Ondris.itemSize := by
  have hsize : Ondris.itemSize = 128 := rfl
  have hcount : (itemSize / 4).toNat = 32 := rfl
  have hrange := Dataset.item_range hp
  refine foldlM_eq_some (P := fun mix : Bytes => mix.length = Ondris.itemSize)
    (fun mix hmix w hw => ?_) hmix
  have hw := List.mem_range.mp hw
  have hinside : w * 4 + 4 ≤ mix.length := by omega
  refine ⟨?_, ?_⟩
  · rw [hoff, readU32_eq hinside, readU32Global, readU32_eq (by omega),
      readU32Le_item hp (by omega)]
    exact writeU32_eq hinside _
  · rw [length_writeU32Le _ hinside, hmix]

/-- One pass of the loop over the accesses is one of `ondris-pow`. -/
theorem mixAccess_eq {datasetLen : UInt64} (hlen : datasetLen.toNat = dataset.lenBytes)
    (hpos : Ondris.itemSize ≤ dataset.lenBytes) (seedWord0 : UInt32)
    (hmix : mix.length = Ondris.itemSize) {i : ℕ} (hi : i < 2 ^ 32) :
    mixAccess dataset.bytes (datasetLen / itemSize.toUInt64) seedWord0 mix i
        = some (Ondris.mixAccess dataset seedWord0 mix i) ∧
      (Ondris.mixAccess dataset seedWord0 mix i).length = Ondris.itemSize := by
  have hread : readU32 mix (i % (Ondris.itemSize / 4) * 4)
      = some (readU32Le mix (i % (Ondris.itemSize / 4) * 4)) := by
    have hsize : Ondris.itemSize = 128 := rfl
    have hmod := Nat.mod_lt i (show 0 < Ondris.itemSize / 4 by decide)
    exact readU32_eq (by omega)
  -- the hash that picks the item
  generalize hx : fnv (seedWord0 ^^^ UInt32.ofNat i)
    (readU32Le mix (i % (Ondris.itemSize / 4) * 4)) = x
  have hp : x.toNat % (dataset.lenBytes / Ondris.itemSize)
      < dataset.lenBytes / Ondris.itemSize := Nat.mod_lt _ (Nat.div_pos hpos (by decide))
  have hpure : Ondris.mixAccess dataset seedWord0 mix i = foldItem mix (dataset.item
      (x.toNat % (dataset.lenBytes / Ondris.itemSize))) := by
    rw [← hx, ← Checked.nItems_eq hpos]
    rfl
  obtain ⟨hloop, hlength⟩ := foldItem_eq hp (toNat_item hlen hpos x) hmix
  rw [hpure]
  refine ⟨?_, hlength⟩
  unfold mixAccess
  simp only [toNat_mixWord hi, hread, Option.bind_eq_bind, Option.bind_some,
    if_neg (nItems_ne_zero hlen hpos), hx]
  exact hloop

/-- The words that the mix is folded into. -/
def foldedWord (mix : Bytes) (i : ℕ) : UInt32 :=
  fnv (fnv (fnv (readU32Le mix (i * 16)) (readU32Le mix (i * 16 + 4)))
    (readU32Le mix (i * 16 + 8))) (readU32Le mix (i * 16 + 12))

/-- One pass of the loop that fills `compressed`. -/
theorem compressWord_eq (hmix : mix.length = Ondris.itemSize) {compressed : Bytes}
    (hlen : compressed.length = 32) {i : ℕ} (hi : i < 8) : (do
      let w0 ← readU32 mix (i * 16)
      let w1 ← readU32 mix (i * 16 + 4)
      let w2 ← readU32 mix (i * 16 + 8)
      let w3 ← readU32 mix (i * 16 + 12)
      writeU32 compressed (i * 4) (fnv (fnv (fnv w0 w1) w2) w3))
    = some (writeU32Le compressed (i * 4) (foldedWord mix i)) := by
  have hsize : Ondris.itemSize = 128 := rfl
  rw [readU32_eq (by omega), readU32_eq (by omega), readU32_eq (by omega), readU32_eq (by omega)]
  exact writeU32_eq (by omega) _

/-- The loop overwrites all that `compressed` held. -/
theorem compressMix_eq_flatMap (hmix : mix.length = Ondris.itemSize) {compressed : Bytes}
    (hlen : compressed.length = 32) : compressMix compressed mix
      = some ((List.range 8).flatMap fun i => leBytes 4 (foldedWord mix i).toNat) := by
  have hword : ∀ i, (leBytes 4 (foldedWord mix i).toNat).length = 4 := fun i => length_leBytes 4 _
  have hbytes : ∀ n, ((List.range n).flatMap fun i => leBytes 4 (foldedWord mix i).toNat).length
      = n * 4 := Chunks.length_flatMap_range hword
  have hrun := foldlM_range (n := 8) (f := fun compressed i => do
      let w0 ← readU32 mix (i * 16)
      let w1 ← readU32 mix (i * 16 + 4)
      let w2 ← readU32 mix (i * 16 + 8)
      let w3 ← readU32 mix (i * 16 + 12)
      writeU32 compressed (i * 4) (fnv (fnv (fnv w0 w1) w2) w3))
    (fun n => splice compressed 0 ((List.range n).flatMap fun i =>
      leBytes 4 (foldedWord mix i).toNat)) fun i hi => ?_
  · have hstart : splice compressed 0 ((List.range 0).flatMap fun i =>
        leBytes 4 (foldedWord mix i).toNat) = compressed := splice_nil compressed 0
    rw [hstart, splice_all (by rw [hbytes, hlen])] at hrun
    exact hrun
  have hi' := hbytes i
  have hbuf : (splice compressed 0 ((List.range i).flatMap fun i =>
      leBytes 4 (foldedWord mix i).toNat)).length = 32 := by
    rw [length_splice (by omega), hlen]
  have hnext : splice (splice compressed 0 ((List.range i).flatMap fun i =>
        leBytes 4 (foldedWord mix i).toNat)) (0 + ((List.range i).flatMap fun i =>
          leBytes 4 (foldedWord mix i).toNat).length) (leBytes 4 (foldedWord mix i).toNat)
      = splice compressed 0 ((List.range i).flatMap (fun i =>
        leBytes 4 (foldedWord mix i).toNat) ++ leBytes 4 (foldedWord mix i).toNat) :=
    splice_splice (by omega)
  rw [hi', Nat.zero_add] at hnext
  rw [compressWord_eq hmix hbuf hi, writeU32Le_eq_splice, hnext, List.range_succ,
    List.flatMap_append, List.flatMap_singleton]

/-- The loop computes what it does from zeros. -/
theorem compressMix_eq (hmix : mix.length = Ondris.itemSize) {compressed : Bytes}
    (hlen : compressed.length = 32) :
    compressMix compressed mix = some (Ondris.compressMix mix) := by
  have hzeros : compressMix (List.replicate 32 0) mix = some (Ondris.compressMix mix) :=
    (foldlM_eq_some (P := fun compressed : Bytes => compressed.length = 32)
      (fun compressed hlen i hi => ⟨compressWord_eq hmix hlen (List.mem_range.mp hi), by
        rw [length_writeU32Le _ (by have hi := List.mem_range.mp hi; omega)]
        exact hlen⟩) List.length_replicate).1
  rw [compressMix_eq_flatMap hmix hlen, ← hzeros,
    compressMix_eq_flatMap hmix List.length_replicate]

end Mix

/-! ## The buffers -/

theorem copy_eq {src dst : Bytes} {off n : ℕ} (hsrc : n ≤ src.length)
    (hdst : off + n ≤ dst.length) : copy src dst off n = some (splice dst off (src.take n)) := by
  rw [← map_getD_range hsrc 0]
  refine foldlM_store _ (fun i hi b _ => ?_) hdst
  rw [load_eq_getD (by omega) 0]
  rfl

/-- The bytes of the nonce. -/
theorem nonce_bytes (nonce : UInt64) :
    (List.range 8).map (fun i => ((nonce >>> UInt64.ofNat (8 * i)) &&& 0xff).toUInt8)
      = le64 nonce := by
  rw [le64, leBytes_eq_map]
  refine List.map_congr_left fun i hi => UInt8.toNat_inj.mp ?_
  have hi := List.mem_range.mp hi
  have hmask : (0xff : UInt64).toNat = 2 ^ 8 - 1 := rfl
  have hshift : (UInt64.ofNat (8 * i)).toNat = 8 * i := by
    rw [UInt64.toNat_ofNat', Nat.mod_eq_of_lt (by omega)]
  have hpow : 256 ^ i = 2 ^ (8 * i) := by
    rw [Nat.pow_mul]
  rw [UInt64.toNat_toUInt8, UInt64.toNat_and, UInt64.toNat_shiftRight, hmask, hshift,
    Nat.and_two_pow_sub_one_eq_mod, Nat.mod_eq_of_lt (a := 8 * i) (by omega),
    Nat.shiftRight_eq_div_pow, hpow, Nat.toUInt8_eq, UInt8.toNat_ofNat']


/-! ## The hash -/

section Core

variable {K : Crates} {dataset : Dataset}

/-- The kernel hashes the start of a buffer as the crate does. -/
theorem blake3HashSmall_eq_blake3 (hK : IsBlake3 K) {data bs : Bytes} {len : UInt32}
    (hlen : len.toNat = bs.length) (hdata : data.take bs.length = bs) (hshort : bs.length ≤ 1024) :
    blake3HashSmall data len = some (K.blake3 bs).toList := by
  have hfit : bs.length ≤ data.length := by
    have hle := congrArg List.length hdata
    rw [List.length_take] at hle
    omega
  rw [blake3HashSmall_eq (by omega) (by omega), hlen, hdata, Blake3Ref.hashChunk_eq, hK.hash,
    Blake3Ref.treeValue_short (show bs.length ≤ Blake3Ref.chunkLen from hshort)]
  rfl

/-- The mix before the first access. -/
theorem xofFrom32Bytes_eq_xofFill (hK : IsBlake3 K) {seed out : Bytes} (hseed : seed.length = 32)
    (hout : out.length = 128) :
    xofFrom32Bytes seed out = some (xofFill K seed Ondris.itemSize) := by
  have hblock : seed.length ≤ Blake3Ref.blockLen := by
    rw [hseed]
    decide
  rw [xofFrom32Bytes_eq hseed hout, xofFill, hK.xof seed hblock]
  rfl

/-- The bytes of the header and the nonce that are hashed first. -/
theorem inputBuf_eq (junk : UInt8) {header : Bytes} (hheader : header.length ≤ 136)
    {headerLen : UInt32} (hlen : headerLen.toNat = header.length) (nonce : UInt64) :
    ∃ start buf, copy header (List.replicate 144 junk) 0 headerLen.toNat = some start ∧
      (List.range 8).foldlM (fun buf i => store buf (headerLen + UInt32.ofNat i).toNat
        ((nonce >>> UInt64.ofNat (8 * i)) &&& 0xff).toUInt8) start = some buf ∧
      buf.take (header ++ le64 nonce).length = header ++ le64 nonce := by
  have hjunk : (List.replicate 144 junk).length = 144 := List.length_replicate
  have hcopy : copy header (List.replicate 144 junk) 0 headerLen.toNat
      = some (splice (List.replicate 144 junk) 0 header) := by
    rw [hlen, copy_eq (Nat.le_refl _) (by omega), List.take_length]
  have hbuf : (splice (List.replicate 144 junk) 0 header).length = 144 := by
    rw [length_splice (by omega), hjunk]
  have hstore : (List.range 8).foldlM (fun buf i => store buf (headerLen + UInt32.ofNat i).toNat
        ((nonce >>> UInt64.ofNat (8 * i)) &&& 0xff).toUInt8)
        (splice (List.replicate 144 junk) 0 header)
      = some (splice (splice (List.replicate 144 junk) 0 header) header.length
        ((List.range 8).map fun i => ((nonce >>> UInt64.ofNat (8 * i)) &&& 0xff).toUInt8)) := by
    refine foldlM_store _ (fun i hi b _ => ?_) (by omega)
    rw [UInt32.toNat_add, UInt32.toNat_ofNat', hlen, Nat.mod_eq_of_lt (a := i) (by omega),
      Nat.mod_eq_of_lt (by omega)]
  have hboth : splice (splice (List.replicate 144 junk) 0 header) (0 + header.length) (le64 nonce)
      = splice (List.replicate 144 junk) 0 (header ++ le64 nonce) := splice_splice (by omega)
  rw [Nat.zero_add] at hboth
  rw [nonce_bytes, hboth] at hstore
  exact ⟨_, _, hcopy, hstore, take_splice_zero _ _⟩

/-- The seed and the compressed mix are hashed last. -/
theorem finalInput_eq (junk : UInt8) {seed compressed : Bytes} (hseed : seed.length = 32)
    (hcompressed : compressed.length = 32) :
    ∃ start, copy seed (List.replicate 64 junk) 0 32 = some start ∧
      copy compressed start 32 32 = some (seed ++ compressed) := by
  have hjunk : (List.replicate 64 junk).length = 64 := List.length_replicate
  have hfirst : copy seed (List.replicate 64 junk) 0 32
      = some (splice (List.replicate 64 junk) 0 seed) := by
    rw [copy_eq (by omega) (by omega), List.take_of_length_le (by omega)]
  have hboth : splice (splice (List.replicate 64 junk) 0 seed) (0 + seed.length) compressed
      = splice (List.replicate 64 junk) 0 (seed ++ compressed) := splice_splice (by omega)
  have hlen : (splice (List.replicate 64 junk) 0 seed).length = 64 := by
    rw [length_splice (by omega), hjunk]
  refine ⟨_, hfirst, ?_⟩
  rw [hseed, Nat.zero_add] at hboth
  rw [copy_eq (by omega) (by omega), List.take_of_length_le (by omega), hboth,
    splice_all (by rw [List.length_append, hjunk]; omega)]

/-- The kernel computes the hash of `ondris-pow`, whatever its arrays held before. -/
theorem ondrisHashCore_eq (hK : IsBlake3 K) (junk : UInt8) {header : Bytes}
    (hheader : header.length ≤ 136) {headerLen : UInt32} (hlen : headerLen.toNat = header.length)
    (nonce : UInt64) {datasetLen : UInt64} (hdataset : datasetLen.toNat = dataset.lenBytes)
    (hpos : Ondris.itemSize ≤ dataset.lenBytes) (accesses : UInt32) :
    ondrisHashCore junk dataset.bytes datasetLen header headerLen nonce accesses
      = some (ondrisHashWithAccesses K header nonce dataset accesses.toNat).asBytes := by
  obtain ⟨start, buf, hcopy, hnonce, htake⟩ := inputBuf_eq junk hheader hlen nonce
  have htotal : (headerLen + 8).toNat = (header ++ le64 nonce).length := by
    have h8 : (8 : UInt32).toNat = 8 := rfl
    rw [UInt32.toNat_add, hlen, h8, List.length_append, length_le64, Nat.mod_eq_of_lt (by omega)]
  have hseed := blake3HashSmall_eq_blake3 hK htotal htake (by
    rw [List.length_append, length_le64]
    omega)
  generalize hs : K.blake3 (header ++ le64 nonce) = seed at hseed
  have hseedLen : seed.toList.length = 32 := seed.toList_length
  have hmix := xofFrom32Bytes_eq_xofFill hK hseedLen
    (show (List.replicate itemSize.toNat junk).length = 128 from List.length_replicate)
  have hword : readU32 seed.toList 0 = some (readU32Le seed.toList 0) := readU32_eq (by omega)
  obtain ⟨hloop, hmixLen⟩ := foldlM_eq_some (P := fun mix : Bytes => mix.length = Ondris.itemSize)
    (l := List.range accesses.toNat)
    (fun mix hmix i hi => mixAccess_eq hdataset hpos (readU32Le seed.toList 0) hmix
      (Nat.lt_trans (List.mem_range.mp hi) accesses.toNat_lt))
    (show (xofFill K seed.toList Ondris.itemSize).length = Ondris.itemSize from
      (K.blake3Xof seed.toList Ondris.itemSize).toList_length)
  generalize hm : (List.range accesses.toNat).foldl
    (Ondris.mixAccess dataset (readU32Le seed.toList 0)) (xofFill K seed.toList Ondris.itemSize)
    = mix at hloop hmixLen
  have hcompressed : (Ondris.compressMix mix).length = 32 := length_compressMix mix
  obtain ⟨first, hfirst, hsecond⟩ := finalInput_eq junk hseedLen hcompressed
  have hlast : blake3HashSmall (seed.toList ++ Ondris.compressMix mix) 64
      = some (K.blake3 (seed.toList ++ Ondris.compressMix mix)).toList := by
    have hlength : (seed.toList ++ Ondris.compressMix mix).length = 64 := by
      rw [List.length_append, hseedLen, hcompressed]
    exact blake3HashSmall_eq_blake3 hK (by rw [hlength]; rfl) List.take_length (by omega)
  unfold ondrisHashCore
  simp only [hcopy, hnonce, hseed, hmix, hword, hloop, compressMix_eq hmixLen List.length_replicate,
    hfirst, hsecond, hlast, Option.bind_eq_bind, Option.bind_some]
  rw [← hm, ← hs]
  rfl

end Core

/-! ## The target -/

/-- From byte `i` on the comparison is that of the rest as big-endian numbers. -/
theorem meetsFrom_eq {finalHash target : Bytes} {n i : ℕ} (hhash : finalHash.length = i + n)
    (htarget : target.length = i + n) :
    meetsFrom finalHash target i n = some (decide (finalHash.drop i ≤ target.drop i)) := by
  induction n generalizing i with
  | zero =>
    have hnil : finalHash.drop i = [] := List.drop_eq_nil_of_le (by omega)
    have hnil' : target.drop i = [] := List.drop_eq_nil_of_le (by omega)
    rw [meetsFrom, hnil, hnil']
    rfl
  | succ n ih =>
    have hh : i < finalHash.length := by omega
    have ht : i < target.length := by omega
    rw [meetsFrom, load, load, List.getElem?_eq_getElem hh, List.getElem?_eq_getElem ht,
      List.drop_eq_getElem_cons hh, List.drop_eq_getElem_cons ht]
    simp only [Option.bind_eq_bind, Option.bind_some, List.cons_le_cons_iff]
    by_cases hlt : finalHash[i] < target[i]
    · rw [if_pos hlt, decide_eq_true (.inl hlt)]
    · by_cases hgt : target[i] < finalHash[i]
      · rw [if_neg hlt, if_pos hgt, decide_eq_false]
        rintro (h | ⟨heq, -⟩)
        · exact hlt h
        · rw [heq] at hgt
          exact UInt8.lt_irrefl _ hgt
      · -- the bytes are equal: the next ones decide
        have heq : finalHash[i] = target[i] := by
          rw [UInt8.lt_iff_toNat_lt] at hlt hgt
          exact UInt8.toNat_inj.mp (by omega)
        rw [if_neg hlt, if_neg hgt, ih (by omega) (by omega)]
        simp only [heq, UInt8.lt_irrefl, false_or, true_and]

end Kernel

/-! ## Agreement -/

/-- The three implementations return `hash` for the nonce, and a work item of `ondris_mine`
with this nonce records it if the hash meets the target and leaves the result alone if not.
No check of an index fails. -/
structure HashesAgree (K : Crates) (header : Bytes) (nonce : UInt64) (dataset : Dataset)
    (accesses : UInt32) (hash : Hash256) : Prop where
  pow : Checked.ondrisHashWithAccesses K header nonce dataset accesses.toNat = some hash.bytes
  reference : HashRef.ondrisHashWithAccesses header nonce dataset.bytes accesses.toNat
    = some hash.bytes
  kernel : ∀ junk, Kernel.ondrisHashCore junk dataset.bytes (UInt64.ofNat dataset.lenBytes) header
    (UInt32.ofNat header.length) nonce accesses = some hash.asBytes
  mined : ∀ junk nonceBase gid, nonceBase + gid = nonce → ∀ target : List.Vector UInt8 32,
    ∀ result, Kernel.ondrisMine junk dataset.bytes (UInt64.ofNat dataset.lenBytes) header
      (UInt32.ofNat header.length) nonceBase accesses target.toList result gid
    = some (if meetsTarget hash target.toList then ⟨1, nonce⟩ else result)

/-- **The three implementations agree.** The length of a dataset is a `u64`. -/
theorem hashes_agree {K : Crates} (hK : IsBlake3 K) {header : Bytes}
    (hheader : header.length ≤ 136) (nonce : UInt64) {dataset : Dataset}
    (hpos : 0 < dataset.lenBytes) (hdvd : itemSize ∣ dataset.lenBytes)
    (hlt : dataset.lenBytes < 2 ^ 64) (accesses : UInt32) :
    HashesAgree K header nonce dataset accesses
      (ondrisHashWithAccesses K header nonce dataset accesses.toNat) := by
  have hitem : itemSize ≤ dataset.lenBytes := Nat.le_of_dvd hpos hdvd
  have hheaderLen : (UInt32.ofNat header.length).toNat = header.length := by
    rw [UInt32.toNat_ofNat', Nat.mod_eq_of_lt (by omega)]
  have hdatasetLen : (UInt64.ofNat dataset.lenBytes).toNat = dataset.lenBytes := by
    rw [UInt64.toNat_ofNat', Nat.mod_eq_of_lt hlt]
  have hcore := fun junk => Kernel.ondrisHashCore_eq hK junk hheader hheaderLen nonce hdatasetLen
    hitem accesses
  refine ⟨Checked.ondrisHashWithAccesses_eq K header nonce hitem accesses.toNat,
    HashRef.ondrisHashWithAccesses_eq hK header nonce hitem accesses.toNat, hcore, ?_⟩
  intro junk nonceBase gid hnonce target result
  have hmeets := Kernel.meetsFrom_eq (n := 32) (i := 0)
    (Hash256.length_asBytes (ondrisHashWithAccesses K header nonce dataset accesses.toNat))
    target.toList_length
  rw [List.drop_zero, List.drop_zero] at hmeets
  unfold Kernel.ondrisMine
  simp only [hnonce, hcore junk, hmeets, Option.bind_eq_bind, Option.bind_some]
  unfold meetsTarget Hash256.toU256Be
  split <;> rfl

/-- Crates with BLAKE3; the extendable output is that of inputs of one block. -/
def blake3Crates : Crates where
  blake3 := fun data =>
    Blake3Ref.wordsToLeBytes (Blake3Ref.treeValue Blake3Ref.compress 0 true data)
  blake3Xof := fun block n => ⟨Blake3Ref.xofValue Blake3Ref.compress block n,
    Blake3Ref.length_xofValue Blake3Ref.compress block n⟩
  verifyingKeyOk := fun _ => true
  verifySignature := fun _ _ _ => true

theorem isBlake3_blake3Crates : IsBlake3 blake3Crates := ⟨fun _ => rfl, fun _ _ _ => rfl⟩

/-- One item of zeros. -/
def zeroDataset : Dataset := ⟨0, List.replicate 128 0⟩

theorem lenBytes_zeroDataset : zeroDataset.lenBytes = 128 := List.length_replicate

theorem hashes_agree_header : HashesAgree blake3Crates (ascii "header") 7 zeroDataset 64
    (ondrisHashWithAccesses blake3Crates (ascii "header") 7 zeroDataset 64) :=
  hashes_agree isBlake3_blake3Crates (by decide) 7 (by rw [lenBytes_zeroDataset]; decide)
    (by rw [lenBytes_zeroDataset]; decide) (by rw [lenBytes_zeroDataset]; decide) 64

end Ondris
