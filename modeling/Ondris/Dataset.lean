import Ondris.Lib.Chunks
import Ondris.Pow

/-!
# The dataset

`Dataset::generate_with_sizes` against the second step of the published algorithm. Both
start an item from a slice of the cache and rehash it twice; they take the slice at
offsets that are reduced by different moduli.

Results:
1. `item_generateWithSizes`: item `i` of a dataset is the one generated for `i`.
2. `cacheOffset_eq_iff`: the items of which the two offsets agree.
3. `item_eq_specItem_iff`: only these items agree.
-/

namespace Ondris

open Encoding Chunks

namespace Dataset

/-! ## Items -/

/-- 128 bytes of the cache. -/
def cacheSlice (cache : Bytes) (off : ℕ) : Bytes := (cache.drop off).take itemSize

/-- One hashing of an item with its index. -/
def rehash (K : Crates) (i : ℕ) (item : Bytes) : Bytes := xofFill K (item ++ leBytes 8 i) itemSize

/-- `cache_off`. -/
def cacheOffset (cacheSize i : ℕ) : ℕ := (i * itemSize) % max (cacheSize - itemSize + 1) 1

/-- The offset that the algorithm document gives. -/
def specOffset (cacheSize i : ℕ) : ℕ := (i * itemSize) % cacheSize

/-- Item `i` as the algorithm document has it. -/
def specItem (K : Crates) (seed : Hash256) (cacheSize i : ℕ) : Bytes :=
  rehash K i (rehash K i (cacheSlice (xofFill K seed.asBytes cacheSize) (specOffset cacheSize i)))

theorem generateItem_eq (K : Crates) (cache : Bytes) (cacheSize i : ℕ) :
    generateItem K cache cacheSize i =
      rehash K i (rehash K i (cacheSlice cache (cacheOffset cacheSize i))) := rfl

variable {K : Crates} {epoch : UInt64} {seed : Hash256} {cacheSize datasetSize i : ℕ}

@[simp] theorem length_xofFill (K : Crates) (bs : Bytes) (n : ℕ) : (xofFill K bs n).length = n :=
  (K.blake3Xof bs n).toList_length

theorem length_generateItem (K : Crates) (cache : Bytes) (cacheSize i : ℕ) :
    (generateItem K cache cacheSize i).length = itemSize :=
  length_xofFill _ _ _

theorem lenBytes_generateWithSizes : (generateWithSizes K epoch seed cacheSize datasetSize).lenBytes
    = datasetSize / itemSize * itemSize :=
  length_flatMap_range (length_generateItem K _ cacheSize) _

/-- Item `i` of a dataset is the one generated for `i`. -/
theorem item_generateWithSizes (hi : i < datasetSize / itemSize) :
    (generateWithSizes K epoch seed cacheSize datasetSize).item i =
      generateItem K (xofFill K seed.asBytes cacheSize) cacheSize i := by
  have hlen : (generateWithSizes K epoch seed cacheSize datasetSize).lenBytes
      = datasetSize / itemSize * itemSize := lenBytes_generateWithSizes
  rw [lenBytes] at hlen
  unfold item
  simp only [hlen, Nat.mul_div_cancel _ (show 0 < itemSize by decide), Nat.mod_eq_of_lt hi]
  exact chunk_flatMap_range (length_generateItem K _ cacheSize) hi

/-! ## The two offsets -/

/-- The two offsets agree unless the cache has been passed and the slices have drifted
apart by 127 bytes for each passage. -/
theorem cacheOffset_eq_iff (hdvd : itemSize ∣ cacheSize) (hpos : 0 < cacheSize) :
    cacheOffset cacheSize i = specOffset cacheSize i ↔
      cacheSize - 127 ∣ 127 * (i * itemSize / cacheSize) := by
  have hsize : itemSize = 128 := rfl
  obtain ⟨m, rfl⟩ := hdvd
  rw [cacheOffset, specOffset, hsize] at *
  have hmax : max (128 * m - 128 + 1) 1 = 128 * m - 127 := by omega
  rw [hmax]
  -- `i * 128 = q * (size - 127) + 127 * q + r`, with the remainder `r` a multiple of 128
  generalize hq : i * 128 / (128 * m) = q
  generalize hr : i * 128 % (128 * m) = r
  have hdiv := Nat.div_add_mod (i * 128) (128 * m)
  rw [hq, hr] at hdiv
  have hrlt : r < 128 * m - 127 := by
    have hlt : r < 128 * m := by
      rw [← hr]
      exact Nat.mod_lt _ hpos
    have hmul : r % 128 = 0 := by
      rw [← hr, Nat.mod_mul_right_mod, Nat.mul_mod_left]
    omega
  have hsplit : i * 128 = r + 127 * q + (128 * m - 127) * q := by
    have hback : 128 * m - 127 + 127 = 128 * m := by omega
    have hexp : 128 * m * q = (128 * m - 127) * q + 127 * q :=
      calc 128 * m * q = (128 * m - 127 + 127) * q := by rw [hback]
        _ = (128 * m - 127) * q + 127 * q := Nat.add_mul _ _ _
    omega
  rw [hsplit, Nat.add_mul_mod_self_left]
  constructor
  · intro heq
    have hmod : r + 127 * q ≡ r + 0 [MOD 128 * m - 127] := by
      rw [Nat.ModEq, heq, Nat.add_zero, Nat.mod_eq_of_lt hrlt]
    exact (Nat.modEq_zero_iff_dvd).mp (Nat.ModEq.add_left_cancel' r hmod)
  · intro hdvd
    rw [Nat.add_mod, Nat.mod_eq_zero_of_dvd hdvd, Nat.add_zero, Nat.mod_mod,
      Nat.mod_eq_of_lt hrlt]

/-- At the production sizes the offsets agree on the first quarter of the dataset only. -/
theorem cacheOffset_production_iff (hi : i < Ondris.datasetSize / itemSize) :
    cacheOffset Ondris.cacheSize i = specOffset Ondris.cacheSize i ↔
      i < Ondris.cacheSize / itemSize := by
  have hcount : Ondris.datasetSize / itemSize = 524288 := by decide
  have hquarter : Ondris.cacheSize / itemSize = 131072 := by decide
  have hpassed : i * itemSize / Ondris.cacheSize = i / 131072 := by
    rw [show Ondris.cacheSize = 131072 * itemSize by decide, Nat.mul_div_mul_right _ _ (by decide)]
  have hmod : Ondris.cacheSize - 127 = 16777089 := by decide
  rw [hcount] at hi
  rw [cacheOffset_eq_iff (by decide) (by decide), hpassed, hmod, hquarter]
  constructor
  · intro hdvd
    have hzero : 127 * (i / 131072) = 0 := Nat.eq_zero_of_dvd_of_lt hdvd (by omega)
    omega
  · intro hlt
    rw [Nat.div_eq_of_lt hlt]
    exact Nat.dvd_zero _

/-! ## The items -/

/-- Where the offsets agree, so do the items, whatever the hash. -/
theorem item_eq_specItem (hdvd : itemSize ∣ cacheSize) (hpos : 0 < cacheSize)
    (hi : i < datasetSize / itemSize) (h : cacheSize - 127 ∣ 127 * (i * itemSize / cacheSize)) :
    (generateWithSizes K epoch seed cacheSize datasetSize).item i = specItem K seed cacheSize i := by
  rw [item_generateWithSizes hi, generateItem_eq, specItem, (cacheOffset_eq_iff hdvd hpos).mpr h]

/-- What the XOF is relied on for: its expansion of the seed has different slices at two
different offsets, and neither hashing of two different items collides. -/
structure Distinguishes (K : Crates) (i : ℕ) (cache : Bytes) (off off' : ℕ) : Prop where
  slices : off ≠ off' → cacheSlice cache off ≠ cacheSlice cache off'
  first : cacheSlice cache off ≠ cacheSlice cache off' →
    rehash K i (cacheSlice cache off) ≠ rehash K i (cacheSlice cache off')
  second : rehash K i (cacheSlice cache off) ≠ rehash K i (cacheSlice cache off') →
    rehash K i (rehash K i (cacheSlice cache off)) ≠
      rehash K i (rehash K i (cacheSlice cache off'))

/-! ## A cache passed once -/

/-- Crates whose functions give their input back, cut or filled up with zeros. -/
def echoCrates : Crates where
  blake3 := fill 32
  blake3Xof := fun bs n => fill n bs
  verifyingKeyOk := fun _ => true
  verifySignature := fun _ _ _ => true

def echoSeed : Hash256 := ⟨List.Vector.replicate 32 1⟩

/-- Hashing an item gives it back. -/
theorem rehash_echo (i : ℕ) {item : Bytes} (h : item.length = itemSize) :
    rehash echoCrates i item = item := by
  show ((item ++ leBytes 8 i) ++ List.replicate itemSize 0).take itemSize = item
  rw [List.append_assoc, List.take_left' h]

theorem cacheSlice_echo : cacheSlice (xofFill echoCrates echoSeed.asBytes 256) 127 ≠
    cacheSlice (xofFill echoCrates echoSeed.asBytes 256) 0 := by
  intro h
  exact absurd (congrArg List.head? h) (by decide)

theorem rehash_slices_echo (i : ℕ) : ∀ off ∈ [127, 0],
    rehash echoCrates i (cacheSlice (xofFill echoCrates echoSeed.asBytes 256) off)
      = cacheSlice (xofFill echoCrates echoSeed.asBytes 256) off := by
  intro off hoff
  refine rehash_echo i ?_
  rw [cacheSlice, List.length_take, List.length_drop, length_xofFill]
  rcases List.mem_pair.mp hoff with rfl | rfl
  · rfl
  · rfl

theorem distinguishes_echo : Distinguishes echoCrates 2
    (xofFill echoCrates echoSeed.asBytes 256) (cacheOffset 256 2) (specOffset 256 2) := by
  have hcode : cacheOffset 256 2 = 127 := rfl
  have hspec : specOffset 256 2 = 0 := rfl
  have hleft := rehash_slices_echo 2 127 (by decide)
  have hright := rehash_slices_echo 2 0 (by decide)
  rw [hcode, hspec]
  refine ⟨fun _ => cacheSlice_echo, fun h => ?_, fun h => ?_⟩
  · rwa [hleft, hright]
  · rwa [hleft, hright, hleft, hright]

/-- **An item is that of the algorithm document exactly if the two offsets agree.** -/
theorem item_eq_specItem_iff (hdvd : itemSize ∣ cacheSize) (hpos : 0 < cacheSize)
    (hi : i < datasetSize / itemSize)
    (hxof : Distinguishes K i (xofFill K seed.asBytes cacheSize) (cacheOffset cacheSize i)
      (specOffset cacheSize i)) :
    (generateWithSizes K epoch seed cacheSize datasetSize).item i = specItem K seed cacheSize i ↔
      cacheSize - 127 ∣ 127 * (i * itemSize / cacheSize) := by
  refine ⟨fun heq => ?_, item_eq_specItem hdvd hpos hi⟩
  rw [item_generateWithSizes hi, generateItem_eq, specItem] at heq
  rw [← cacheOffset_eq_iff hdvd hpos]
  by_contra hne
  exact hxof.second (hxof.first (hxof.slices hne)) heq

theorem item_eq_specItem_iff_echo :
    (generateWithSizes echoCrates 0 echoSeed 256 384).item 2 = specItem echoCrates echoSeed 256 2 ↔
      256 - 127 ∣ 127 * (2 * itemSize / 256) :=
  item_eq_specItem_iff (by decide) (by decide) (by decide) distinguishes_echo

/-- The first item after the cache has been passed: the code takes its slice at 127. -/
theorem item_ne_specItem_echo : (generateWithSizes echoCrates 0 echoSeed 256 384).item 2 ≠
    specItem echoCrates echoSeed 256 2 := by
  have hcode : cacheOffset 256 2 = 127 := rfl
  have hspec : specOffset 256 2 = 0 := rfl
  have hleft := rehash_slices_echo 2 127 (by decide)
  have hright := rehash_slices_echo 2 0 (by decide)
  rw [item_generateWithSizes (by decide), generateItem_eq, specItem, hcode, hspec, hleft, hleft,
    hright, hright]
  exact cacheSlice_echo

end Dataset

end Ondris
