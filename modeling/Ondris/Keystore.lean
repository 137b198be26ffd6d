import Ondris.Lib.Attempts
import Ondris.WireTypes

/-!
# The wallet's keystore

`create` and `unlock` of `keystore.rs`. The seed of a key pair is encrypted under a key
that Argon2 derives from the password; the public key and the address are written beside
it in plain text. Argon2, AES-256-GCM and the derivation of an Ed25519 public key are
parameters, as is what the random number generator returns. `Nonce::from_slice` aborts on
a slice that is not 12 bytes long.

Results:
1. `unlock_abort_iff`: the only abort is that of a nonce of another length.
2. `unlock_faithful`: what `unlock` returns is the key pair whose seed was encrypted,
   whatever public key and address stand in the file.
3. `not_faithful_tampered`: they may be those of another key pair.
-/

namespace Ondris

open Encoding

/-! ## Definitions -/

/-- The third-party functions that the wallet calls besides those of the node. -/
structure WalletCrates extends Crates where
  /-- `SigningKey::from_bytes`, and the bytes of its `verifying_key`. -/
  verifyingKey : List.Vector UInt8 32 → List.Vector UInt8 32
  /-- `Argon2::hash_password_into` a key of 32 bytes, from a password and a salt. -/
  argon2 : Bytes → Bytes → Option (List.Vector UInt8 32)
  /-- `Aes256Gcm::encrypt`, from a key, a nonce and a plaintext. -/
  encrypt : List.Vector UInt8 32 → List.Vector UInt8 12 → Bytes → Option Bytes
  /-- `Aes256Gcm::decrypt`, from a key, a nonce and a ciphertext. -/
  decrypt : List.Vector UInt8 32 → List.Vector UInt8 12 → Bytes → Option Bytes

/-- What AES-256-GCM promises: exactly what was encrypted under the same key and nonce is
decrypted, and a seed is not too long to be encrypted. -/
structure WalletCrates.Lawful (W : WalletCrates) : Prop where
  decrypt_iff : ∀ key nonce ciphertext plaintext,
    W.decrypt key nonce ciphertext = some plaintext ↔ W.encrypt key nonce plaintext = some ciphertext
  encrypt_seed : ∀ key nonce (seed : List.Vector UInt8 32),
    (W.encrypt key nonce seed.toList).isSome

/-- `KeyPair`. -/
structure KeyPair where
  /-- `seed_bytes`. -/
  seed : List.Vector UInt8 32
deriving DecidableEq

namespace KeyPair

/-- `KeyPair::public`. -/
def toPublic (W : WalletCrates) (kp : KeyPair) : PublicKey := ⟨W.verifyingKey kp.seed⟩

def address (W : WalletCrates) (kp : KeyPair) : Address := (kp.toPublic W).toAddress W.toCrates

end KeyPair

/-- `Keystore`: what a wallet file holds. -/
structure Keystore where
  publicKey : Bytes
  address : Bytes
  salt : Bytes
  nonce : Bytes
  ciphertext : Bytes
deriving DecidableEq

inductive WalletError
  /-- The error of `hex::decode`. -/
  | hex (e : FromHexError)
  | keyDerivation
  | encryption
  | decryption
  | seedSize
deriving DecidableEq

/-- The texts of the errors; those that end in a colon go on with the error of a library. -/
def WalletError.message : WalletError → String
  | hex e => e.message
  | keyDerivation => "key derivation failed:"
  | encryption => "encryption failed:"
  | decryption => "incorrect password or corrupted wallet file"
  | seedSize => "decrypted seed has unexpected size"

/-- `derive_key`. -/
def deriveKey (W : WalletCrates) (password salt : Bytes) :
    Attempt WalletError (List.Vector UInt8 32) :=
  Attempt.orFail .keyDerivation (W.argon2 password salt)

/-- `Nonce::from_slice`. -/
def nonceFromSlice (bytes : Bytes) : Attempt WalletError (List.Vector UInt8 12) :=
  Attempt.orAbort (if h : bytes.length = 12 then some ⟨bytes, h⟩ else none)

/-- `create`, with the seed, the salt and the nonce that the random number generator
returns. -/
def create (W : WalletCrates) (seed : List.Vector UInt8 32) (salt : List.Vector UInt8 16)
    (nonceBytes : List.Vector UInt8 12) (password : Bytes) :
    Attempt WalletError (Keystore × KeyPair) := do
  let keypair : KeyPair := ⟨seed⟩
  let key ← deriveKey W password salt.toList
  let nonce ← nonceFromSlice nonceBytes.toList
  let ciphertext ← Attempt.orFail .encryption (W.encrypt key nonce keypair.seed.toList)
  Attempt.ok (
    { publicKey := (keypair.toPublic W).toHex
      address := (keypair.address W).display
      salt := hexEncode salt.toList
      nonce := hexEncode nonceBytes.toList
      ciphertext := hexEncode ciphertext }, keypair)

/-- `unlock`. -/
def unlock (W : WalletCrates) (ks : Keystore) (password : Bytes) : Attempt WalletError KeyPair := do
  let salt ← Attempt.ofExcept .hex (hexDecode ks.salt)
  let key ← deriveKey W password salt
  let nonceBytes ← Attempt.ofExcept .hex (hexDecode ks.nonce)
  let ciphertext ← Attempt.ofExcept .hex (hexDecode ks.ciphertext)
  let nonce ← nonceFromSlice nonceBytes
  let plaintext ← Attempt.orFail .decryption (W.decrypt key nonce ciphertext)
  if h : plaintext.length = 32 then Attempt.ok ⟨⟨plaintext, h⟩⟩ else Attempt.fail .seedSize

/-- The file names a salt, a nonce and a ciphertext, and Argon2 takes the salt. -/
structure Opens (W : WalletCrates) (ks : Keystore) (password : Bytes)
    (key : List.Vector UInt8 32) (nonceBytes ciphertext : Bytes) : Prop where
  key : ∃ salt, hexDecode ks.salt = .ok salt ∧ W.argon2 password salt = some key
  nonce : hexDecode ks.nonce = .ok nonceBytes
  ciphertext : hexDecode ks.ciphertext = .ok ciphertext

variable {W : WalletCrates} {ks : Keystore} {password : Bytes} {kp : KeyPair}

/-! ## Nonces -/

theorem nonceFromSlice_ok_iff {bytes : Bytes} {nonce : List.Vector UInt8 12} :
    nonceFromSlice bytes = .ok nonce ↔ bytes = nonce.toList := by
  rw [nonceFromSlice, Attempt.orAbort_eq_ok_iff]
  constructor
  · intro h
    split at h
    · cases h
      rfl
    · cases h
  · rintro rfl
    rw [dif_pos nonce.toList_length]
    rfl

theorem nonceFromSlice_abort_iff {bytes : Bytes} :
    nonceFromSlice bytes = .abort ↔ bytes.length ≠ 12 := by
  rw [nonceFromSlice, Attempt.orAbort_eq_abort_iff]
  by_cases h : bytes.length = 12
  · simp [h]
  · simp [h]

/-! ## Unlocking -/

theorem unlock_ok_iff : unlock W ks password = .ok kp ↔
    ∃ key nonce ciphertext, Opens W ks password key nonce.toList ciphertext ∧
      W.decrypt key nonce ciphertext = some kp.seed.toList := by
  unfold unlock deriveKey
  simp only [Attempt.bind_eq_ok_iff, Attempt.orFail_eq_ok_iff, Attempt.ofExcept_eq_ok_iff,
    nonceFromSlice_ok_iff]
  constructor
  · rintro ⟨salt, hsalt, key, hkey, nonceBytes, hnonce, ciphertext, hct, nonce, rfl, plaintext, hpt, h⟩
    split at h
    · next hlen =>
      obtain rfl := Attempt.ok_inj h
      exact ⟨key, nonce, ciphertext, ⟨⟨salt, hsalt, hkey⟩, hnonce, hct⟩, hpt⟩
    · cases h
  · rintro ⟨key, nonce, ciphertext, ⟨⟨salt, hsalt, hkey⟩, hnonce, hct⟩, hpt⟩
    refine ⟨salt, hsalt, key, hkey, _, hnonce, ciphertext, hct, nonce, rfl, _, hpt, ?_⟩
    rw [dif_pos kp.seed.toList_length]
    rfl

/-- The only abort is that of a nonce of another length. -/
theorem unlock_abort_iff : unlock W ks password = .abort ↔
    ∃ key nonceBytes ciphertext, Opens W ks password key nonceBytes ciphertext ∧
      nonceBytes.length ≠ 12 := by
  unfold unlock deriveKey
  simp only [Attempt.bind_eq_abort_iff, Attempt.orFail_eq_ok_iff, Attempt.orFail_ne_abort,
    Attempt.ofExcept_eq_ok_iff, Attempt.ofExcept_ne_abort, false_or, nonceFromSlice_abort_iff]
  constructor
  · rintro ⟨salt, hsalt, key, hkey, nonceBytes, hnonce, ciphertext, hct, hlen | ⟨nonce, -, pt, -, h⟩⟩
    · exact ⟨key, nonceBytes, ciphertext, ⟨⟨salt, hsalt, hkey⟩, hnonce, hct⟩, hlen⟩
    · split at h
      · cases h
      · cases h
  · rintro ⟨key, nonceBytes, ciphertext, ⟨⟨salt, hsalt, hkey⟩, hnonce, hct⟩, hlen⟩
    exact ⟨salt, hsalt, key, hkey, nonceBytes, hnonce, ciphertext, hct, .inl hlen⟩

/-! ## What unlocking gives back -/

/-- `create` fails where Argon2 does; otherwise `unlock` gives the key pair back. -/
theorem unlock_create (hW : W.Lawful) (seed : List.Vector UInt8 32) (salt : List.Vector UInt8 16)
    (nonce : List.Vector UInt8 12) (password : Bytes) :
    create W seed salt nonce password = .fail .keyDerivation ∨
    ∃ ks, create W seed salt nonce password = .ok (ks, ⟨seed⟩) ∧
      ks.publicKey = (KeyPair.toPublic W ⟨seed⟩).toHex ∧
      ks.address = (KeyPair.address W ⟨seed⟩).display ∧ unlock W ks password = .ok ⟨seed⟩ := by
  unfold create deriveKey
  cases hkey : W.argon2 password salt.toList with
  | none => exact .inl rfl
  | some key =>
    obtain ⟨ciphertext, hct⟩ := Option.isSome_iff_exists.mp (hW.encrypt_seed key nonce seed)
    have hnonce : nonceFromSlice nonce.toList = .ok nonce := nonceFromSlice_ok_iff.mpr rfl
    right
    simp only [Attempt.orFail, Attempt.ok_bind, hnonce, hct]
    refine ⟨_, rfl, rfl, rfl, unlock_ok_iff.mpr ⟨key, nonce, ciphertext, ⟨⟨salt.toList, ?_, hkey⟩,
      ?_, ?_⟩, (hW.decrypt_iff _ _ _ _).mpr hct⟩⟩
    · exact hexDecode_hexEncode _
    · exact hexDecode_hexEncode _
    · exact hexDecode_hexEncode _

/-- What holds of `create` and `unlock`, for every file. -/
structure UnlockFaithful (W : WalletCrates) : Prop where
  created : ∀ seed salt nonce password,
    create W seed salt nonce password = .fail .keyDerivation ∨
    ∃ ks, create W seed salt nonce password = .ok (ks, ⟨seed⟩) ∧
      ks.publicKey = (KeyPair.toPublic W ⟨seed⟩).toHex ∧
      ks.address = (KeyPair.address W ⟨seed⟩).display ∧ unlock W ks password = .ok ⟨seed⟩
  aborts : ∀ ks password, unlock W ks password = .abort →
    ∃ key nonceBytes ciphertext, Opens W ks password key nonceBytes ciphertext ∧
      nonceBytes.length ≠ 12
  encrypted : ∀ ks password kp, unlock W ks password = .ok kp →
    ∃ key nonce ciphertext, Opens W ks password key nonce.toList ciphertext ∧
      W.encrypt key nonce kp.seed.toList = some ciphertext
  unread : ∀ ks password publicKey address,
    unlock W { ks with publicKey, address } password = unlock W ks password

/-- **Unlocking gives back what was encrypted**, and does not look at the public key and the
address that stand beside it. -/
theorem unlock_faithful (hW : W.Lawful) : UnlockFaithful W where
  created := unlock_create hW
  aborts _ _ := unlock_abort_iff.mp
  encrypted ks password kp h := by
    obtain ⟨key, nonce, ciphertext, hopens, hdecrypt⟩ := unlock_ok_iff.mp h
    exact ⟨key, nonce, ciphertext, hopens, (hW.decrypt_iff _ _ _ _).mp hdecrypt⟩
  unread _ _ _ _ := rfl

/-! ## A wallet without cryptography -/

/-- The key is the password and the salt, and the ciphertext ends with half of it. -/
def plainWallet : WalletCrates where
  blake3 := fill 32
  blake3Xof := fun bs n => fill n bs
  verifyingKeyOk := fun _ => true
  verifySignature := fun _ _ _ => true
  verifyingKey := id
  argon2 := fun password salt => if 8 ≤ salt.length then some (fill 32 (password ++ salt)) else none
  encrypt := fun key _ plaintext => some (plaintext ++ key.toList.take 16)
  decrypt := fun key _ ciphertext =>
    if ciphertext.drop (ciphertext.length - 16) = key.toList.take 16 then
      some (ciphertext.take (ciphertext.length - 16))
    else none

theorem plainWallet_lawful : plainWallet.Lawful where
  decrypt_iff key nonce ciphertext plaintext := by
    have htag : (key.toList.take 16).length = 16 := by
      rw [List.length_take, key.toList_length]
      rfl
    show (if _ then _ else _) = _ ↔ some _ = _
    rw [Option.some.injEq]
    constructor
    · intro h
      split at h
      · next heq =>
        rw [← heq, ← Option.some.inj h, List.take_append_drop]
      · cases h
    · rintro rfl
      have hlen : (plaintext ++ key.toList.take 16).length - 16 = plaintext.length := by
        rw [List.length_append, htag]
        omega
      rw [hlen, List.drop_left, if_pos rfl, List.take_left]
  encrypt_seed _ _ _ := rfl

theorem unlock_faithful_plain : UnlockFaithful plainWallet := unlock_faithful plainWallet_lawful

/-- A seed of one byte, over and over. -/
def sampleSeed (b : UInt8) : List.Vector UInt8 32 := List.Vector.replicate 32 b

/-- The file of the seed of ones, with the public key and the address of another one. -/
def tamperedKeystore : Keystore where
  publicKey := (KeyPair.toPublic plainWallet ⟨sampleSeed 2⟩).toHex
  address := (KeyPair.address plainWallet ⟨sampleSeed 2⟩).display
  salt := hexEncode (List.replicate 16 0)
  nonce := hexEncode (List.replicate 12 0)
  ciphertext := hexEncode (List.replicate 32 1 ++ List.replicate 16 0)

/-- The tampered file is unlocked, and a file whose nonce is too short aborts. -/
theorem not_faithful_tampered :
    unlock plainWallet tamperedKeystore [] = .ok ⟨sampleSeed 1⟩ ∧
    tamperedKeystore.publicKey ≠ (KeyPair.toPublic plainWallet ⟨sampleSeed 1⟩).toHex ∧
    tamperedKeystore.address ≠ (KeyPair.address plainWallet ⟨sampleSeed 1⟩).display ∧
    unlock plainWallet { tamperedKeystore with nonce := [] } [] = .abort := by
  refine ⟨?_, by decide, by decide, ?_⟩
  · rfl
  · rfl

end Ondris
