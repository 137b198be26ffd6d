import Mathlib.Data.Vector.Basic
import Ondris.Lib.Encoding

/-!
# Base types of `ondris-primitives`

Hashes, keys, signatures and addresses are byte arrays of fixed length. The
functions of the `blake3` and `ed25519_dalek` crates are the fields of `Crates`;
everything else is computed. Plain `u64` operators wrap, as they do in the
release profile; the saturating ones are defined here.
-/

namespace Ondris

open Encoding

/-- The third-party functions the code calls. -/
structure Crates where
  /-- `blake3::hash`. -/
  blake3 : Bytes → List.Vector UInt8 32
  /-- `blake3::Hasher::finalize_xof`, filling a buffer of the given size. -/
  blake3Xof : Bytes → (n : ℕ) → List.Vector UInt8 n
  /-- `VerifyingKey::from_bytes` accepts the key. -/
  verifyingKeyOk : List.Vector UInt8 32 → Bool
  /-- `VerifyingKey::verify` accepts the signature of the message. -/
  verifySignature : List.Vector UInt8 32 → Bytes → List.Vector UInt8 64 → Bool

/-- The first `n` of the bytes, filled up with zeros: a hash for concrete instances. -/
def fill (n : ℕ) (bs : Bytes) : List.Vector UInt8 n := ⟨(bs ++ List.replicate n 0).take n, by simp⟩

/-! ## Machine words -/

/-- `u64::saturating_add`. -/
def satAdd (a b : UInt64) : UInt64 :=
  if a.toNat + b.toNat < 2 ^ 64 then a + b else UInt64.ofNat (2 ^ 64 - 1)

/-- `u64::saturating_sub`. -/
def satSub (a b : UInt64) : UInt64 := if b ≤ a then a - b else 0

/-- `u64::saturating_mul`. -/
def satMul (a b : UInt64) : UInt64 :=
  if a.toNat * b.toNat < 2 ^ 64 then a * b else UInt64.ofNat (2 ^ 64 - 1)

theorem toNat_add_of_lt {a b : UInt64} (h : a.toNat + b.toNat < 2 ^ 64) :
    (a + b).toNat = a.toNat + b.toNat := by
  rw [UInt64.toNat_add, Nat.mod_eq_of_lt h]

theorem toNat_add_one_of_lt {a : UInt64} (h : a.toNat + 1 < 2 ^ 64) :
    (a + 1).toNat = a.toNat + 1 :=
  toNat_add_of_lt h

theorem toNat_sub_of_le {a b : UInt64} (h : b.toNat ≤ a.toNat) :
    (a - b).toNat = a.toNat - b.toNat :=
  UInt64.toNat_sub_of_le _ _ (UInt64.le_iff_toNat_le.mpr h)

theorem toNat_satAdd (a b : UInt64) :
    (satAdd a b).toNat = min (a.toNat + b.toNat) (2 ^ 64 - 1) := by
  unfold satAdd
  split
  · next h => rw [toNat_add_of_lt h]; omega
  · next h => simp only [UInt64.toNat_ofNat']; omega

theorem toNat_satAdd_of_lt {a b : UInt64} (h : a.toNat + b.toNat < 2 ^ 64) :
    (satAdd a b).toNat = a.toNat + b.toNat := by
  rw [toNat_satAdd]
  omega

theorem le_satAdd (a b : UInt64) : a ≤ satAdd a b := by
  have hlt := a.toNat_lt
  rw [UInt64.le_iff_toNat_le, toNat_satAdd]
  omega

theorem toNat_satSub (a b : UInt64) : (satSub a b).toNat = a.toNat - b.toNat := by
  unfold satSub
  split
  · next h => exact toNat_sub_of_le (UInt64.le_iff_toNat_le.mp h)
  · next h =>
    rw [UInt64.le_iff_toNat_le] at h
    simp only [UInt64.toNat_zero]
    omega

/-! ## Hashes -/

/-- `Hash256`: a BLAKE3 output. -/
structure Hash256 where
  bytes : List.Vector UInt8 32
deriving DecidableEq

namespace Hash256

/-- `Hash256::ZERO`. -/
def zero : Hash256 := ⟨List.Vector.replicate 32 0⟩

def hash (K : Crates) (data : Bytes) : Hash256 := ⟨K.blake3 data⟩

def asBytes (h : Hash256) : Bytes := h.bytes.toList

@[simp] theorem length_asBytes (h : Hash256) : h.asBytes.length = 32 := h.bytes.toList_length

theorem asBytes_injective {h h' : Hash256} (heq : h.asBytes = h'.asBytes) : h = h' := by
  cases h
  cases h'
  simp only [asBytes] at heq
  rw [List.Vector.toList_injective heq]

/-- `Hash256::to_u256_be`: the bytes read as a big-endian number, which orders
hashes as their byte strings. -/
def toU256Be (h : Hash256) : Bytes := h.asBytes

/-- `Hash256::to_hex`. -/
def toHex (h : Hash256) : String :=
  String.ofList ((hexEncode h.asBytes).map fun c => Char.ofNat c.toNat)

end Hash256

/-! ## Texts of bytes -/

/-- The errors of the decoders. -/
inductive DecodeError
  /-- The error of `hex::decode`. -/
  | hex (e : FromHexError)
  | length (text : String)
deriving DecidableEq

/-- The text of an error. -/
def DecodeError.message : DecodeError → String
  | hex e => e.message
  | length text => text

/-- `from_hex` with a check of the length: the number of bytes, and the text of the error. -/
def checkedFromHex (n : ℕ) (text : String) (s : Bytes) :
    Except DecodeError (List.Vector UInt8 n) :=
  match hexDecode s with
  | .error e => .error (.hex e)
  | .ok bytes => if h : bytes.length = n then .ok ⟨bytes, h⟩ else .error (.length text)

/-! ## Addresses, keys and signatures -/

/-- `Address`: the first 20 bytes of a key's hash. -/
structure Address where
  bytes : List.Vector UInt8 20
deriving DecidableEq

namespace Address

def asBytes (a : Address) : Bytes := a.bytes.toList

@[simp] theorem length_asBytes (a : Address) : a.asBytes.length = 20 := a.bytes.toList_length

theorem asBytes_injective {a a' : Address} (heq : a.asBytes = a'.asBytes) : a = a' := by
  cases a
  cases a'
  simp only [asBytes] at heq
  rw [List.Vector.toList_injective heq]

/-- `ADDRESS_PREFIX`, `"ondr"`. -/
def addressPrefix : Bytes := [111, 110, 100, 114]

/-- `Address::from_hex`. -/
def fromHex (s : Bytes) : Except DecodeError Address :=
  (checkedFromHex 20 "invalid address: incorrect length" s).map .mk

/-- `s.strip_prefix(ADDRESS_PREFIX).unwrap_or(s)`. -/
def stripPrefix (s : Bytes) : Bytes :=
  if addressPrefix <+: s then s.drop addressPrefix.length else s

/-- `Address::from_str`: the prefix is optional. -/
def fromStr (s : Bytes) : Except DecodeError Address := fromHex (stripPrefix s)

/-- `Display`: the prefix and the hexadecimal bytes. -/
def display (a : Address) : Bytes := addressPrefix ++ hexEncode a.asBytes

theorem fromStr_display (a : Address) : fromStr a.display = .ok a := by
  have hstrip : stripPrefix a.display = hexEncode a.asBytes := by
    rw [stripPrefix, display, if_pos (List.prefix_append _ _), List.drop_left]
  rw [fromStr, hstrip, fromHex, checkedFromHex, hexDecode_hexEncode]
  simp only [dif_pos a.length_asBytes]
  rfl

end Address

/-- `PublicKey`: an Ed25519 public key. -/
structure PublicKey where
  bytes : List.Vector UInt8 32
deriving DecidableEq

/-- `Signature`: an Ed25519 signature. -/
structure Signature where
  bytes : List.Vector UInt8 64
deriving DecidableEq

namespace PublicKey

def asBytes (k : PublicKey) : Bytes := k.bytes.toList

@[simp] theorem length_asBytes (k : PublicKey) : k.asBytes.length = 32 := k.bytes.toList_length

theorem asBytes_injective {k k' : PublicKey} (heq : k.asBytes = k'.asBytes) : k = k' := by
  cases k
  cases k'
  simp only [asBytes] at heq
  rw [List.Vector.toList_injective heq]

/-- `PublicKey::to_address`. -/
def toAddress (K : Crates) (k : PublicKey) : Address :=
  ⟨⟨(K.blake3 k.asBytes).toList.take 20, by simp⟩⟩

/-- `PublicKey::verify`. -/
def verify (K : Crates) (k : PublicKey) (message : Bytes) (signature : Signature) : Bool :=
  K.verifyingKeyOk k.bytes && K.verifySignature k.bytes message signature.bytes

end PublicKey

namespace Signature

def asBytes (s : Signature) : Bytes := s.bytes.toList

@[simp] theorem length_asBytes (s : Signature) : s.asBytes.length = 64 := s.bytes.toList_length

theorem asBytes_injective {s s' : Signature} (heq : s.asBytes = s'.asBytes) : s = s' := by
  cases s
  cases s'
  simp only [asBytes] at heq
  rw [List.Vector.toList_injective heq]

end Signature

end Ondris
