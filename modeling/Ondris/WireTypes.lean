import Ondris.Primitives

/-!
# Types written as hexadecimal text

Hashes, public keys, signatures and addresses travel as hexadecimal strings: in blocks,
in RPC requests and in peer messages. Each type has a decoder of its own. Three of them
check the length of what they have decoded; that of `Hash256` gives the zero hash for
any other length.

Results:
1. `decodesExactly_iff`: a decoder accepts exactly the texts of its own length, unless it
   is that of `Hash256` and the text is one of another length.
2. `WireType.decode_encode`: every value is read back as it was written.
-/

namespace Ondris

open Encoding

/-! ## Decoders -/

/-- `Hash256::from_hex`: the array stays zero unless 32 bytes are copied into it. -/
def Hash256.fromHex (s : Bytes) : Except DecodeError Hash256 :=
  match hexDecode s with
  | .error e => .error (.hex e)
  | .ok bytes => .ok (if h : bytes.length = 32 then ⟨⟨bytes, h⟩⟩ else Hash256.zero)

/-- `PublicKey::from_hex`. -/
def PublicKey.fromHex (s : Bytes) : Except DecodeError PublicKey :=
  (checkedFromHex 32 "invalid public key: incorrect length" s).map .mk

/-- `Signature::deserialize`. -/
def Signature.deserialize (s : Bytes) : Except DecodeError Signature :=
  (checkedFromHex 64 "invalid signature length (expected 64 bytes)" s).map .mk

/-- `PublicKey::to_hex`. -/
def PublicKey.toHex (k : PublicKey) : Bytes := hexEncode k.asBytes

/-- `Signature::to_hex`. -/
def Signature.toHex (s : Signature) : Bytes := hexEncode s.asBytes

/-! ## The four types -/

inductive WireType
  | hash256
  | publicKey
  | signature
  | address
deriving DecidableEq

namespace WireType

def Value : WireType → Type
  | hash256 => Hash256
  | publicKey => PublicKey
  | signature => Signature
  | address => Address

/-- `deserialize`, from the string that was read. -/
def decode : (t : WireType) → Bytes → Except DecodeError t.Value
  | hash256 => Hash256.fromHex
  | publicKey => PublicKey.fromHex
  | signature => Signature.deserialize
  | address => Address.fromStr

/-- `serialize`: the string that is written. -/
def encode : (t : WireType) → t.Value → Bytes
  | hash256 => fun h => ascii h.toHex
  | publicKey => PublicKey.toHex
  | signature => Signature.toHex
  | address => Address.display

/-- The bytes of a value. -/
def bytes : (t : WireType) → t.Value → Bytes
  | hash256 => Hash256.asBytes
  | publicKey => PublicKey.asBytes
  | signature => Signature.asBytes
  | address => Address.asBytes

/-- The number of bytes. -/
def size : WireType → ℕ
  | hash256 => 32
  | publicKey => 32
  | signature => 64
  | address => 20

/-- `s` is the hexadecimal encoding of `bs` in either letter case. -/
def HexText (s bs : Bytes) : Prop := s.map asciiLower = hexEncode bs

/-- `s` stands for `bs`; an address may have its prefix. -/
def IsText (t : WireType) (s bs : Bytes) : Prop :=
  HexText s bs ∨ t = address ∧ ∃ rest, s = Address.addressPrefix ++ rest ∧ HexText rest bs

/-- The string is accepted exactly if it is the text of the right number of bytes, and
these bytes are the result. -/
structure DecodesExactly (t : WireType) (s : Bytes) : Prop where
  accepts : (∃ v, t.decode s = .ok v) ↔ ∃ bs, t.IsText s bs ∧ bs.length = t.size
  result : ∀ v, t.decode s = .ok v → t.IsText s (t.bytes v)

variable {t : WireType} {s bs : Bytes}

theorem hexText_iff : HexText s bs ↔ hexDecode s = .ok bs := hexDecode_eq_ok_iff.symm

theorem HexText.unique {bs' : Bytes} (h : HexText s bs) (h' : HexText s bs') : bs = bs' :=
  hexEncode_injective (h.symm.trans h')

theorem hexText_hexEncode (bs : Bytes) : HexText (hexEncode bs) bs :=
  hexText_iff.mpr (hexDecode_hexEncode bs)

theorem isText_iff (ht : t ≠ address) : t.IsText s bs ↔ HexText s bs := by
  constructor
  · rintro (h | ⟨rfl, -⟩)
    · exact h
    · exact absurd rfl ht
  · exact .inl

/-- The letters of the prefix are not digits, so the two readings exclude each other. -/
theorem not_hexText_append (rest : Bytes) : ¬ HexText (Address.addressPrefix ++ rest) bs := by
  intro h
  cases bs with
  | nil => cases h
  | cons b bs =>
    obtain ⟨hfirst, -⟩ := List.cons.inj h
    have hdigit := hexValue_eq_some_iff.mpr ⟨show b.toNat / 16 < 16 by have := b.toNat_lt; omega,
      hfirst⟩
    cases hdigit

theorem isText_address_iff : address.IsText s bs ↔ HexText (Address.stripPrefix s) bs := by
  unfold Address.stripPrefix
  split
  · next hprefix =>
    obtain ⟨rest, rfl⟩ := hprefix
    rw [List.drop_left]
    constructor
    · rintro (h | ⟨-, rest', heq, h⟩)
      · exact absurd h (not_hexText_append rest)
      · rwa [List.append_cancel_left heq]
    · exact fun h => .inr ⟨rfl, rest, rfl, h⟩
  · next hnone =>
    constructor
    · rintro (h | ⟨-, rest, rfl, -⟩)
      · exact h
      · exact absurd (List.prefix_append _ rest) hnone
    · exact .inl

/-! ## Decoders that check the length -/

theorem checkedFromHex_ok_iff {n : ℕ} {text : String} {v : List.Vector UInt8 n} :
    checkedFromHex n text s = .ok v ↔ HexText s v.toList := by
  rw [hexText_iff, checkedFromHex]
  split
  · next e herr => simp [herr]
  · next decoded hdec =>
    rw [hdec, Except.ok.injEq]
    constructor
    · intro h
      split at h
      · cases h
        rfl
      · cases h
    · rintro rfl
      rw [dif_pos v.toList_length]
      rfl

/-- The decoder of a type that wraps the checked bytes. -/
theorem map_checkedFromHex_ok_iff {n : ℕ} {text : String} {β : Type} {mk : List.Vector UInt8 n → β}
    {g : β → List.Vector UInt8 n} (hmk : ∀ v, mk (g v) = v) (hg : ∀ a, g (mk a) = a) {v : β} :
    (checkedFromHex n text s).map mk = .ok v ↔ HexText s (g v).toList := by
  have hchecked : checkedFromHex n text s = .ok (g v) ↔ HexText s (g v).toList :=
    checkedFromHex_ok_iff
  rw [← hchecked]
  cases checkedFromHex n text s with
  | error e => simp [Except.map]
  | ok a =>
    rw [Except.map, Except.ok.injEq, Except.ok.injEq]
    constructor
    · rintro rfl
      exact (hg a).symm
    · rintro rfl
      exact hmk v

/-- Three of the decoders accept exactly the texts of a value. -/
theorem decode_ok_iff (ht : t ≠ hash256) {v : t.Value} :
    t.decode s = .ok v ↔ t.IsText s (t.bytes v) := by
  cases t with
  | hash256 => exact absurd rfl ht
  | publicKey =>
    rw [isText_iff (by decide)]
    exact map_checkedFromHex_ok_iff (g := PublicKey.bytes) (fun _ => rfl) fun _ => rfl
  | signature =>
    rw [isText_iff (by decide)]
    exact map_checkedFromHex_ok_iff (g := Signature.bytes) (fun _ => rfl) fun _ => rfl
  | address =>
    rw [isText_address_iff]
    exact map_checkedFromHex_ok_iff (g := Address.bytes) (fun _ => rfl) fun _ => rfl

/-- The decoder of hashes takes what is not 32 bytes long for the zero hash. -/
theorem decode_hash256_iff {h : Hash256} : hash256.decode s = .ok h ↔
    ∃ bs, HexText s bs ∧ (bs = h.asBytes ∨ bs.length ≠ 32 ∧ h = Hash256.zero) := by
  simp only [hexText_iff]
  show Hash256.fromHex s = .ok h ↔ _
  unfold Hash256.fromHex
  cases hexDecode s with
  | error e => simp
  | ok bs =>
    simp only [Except.ok.injEq, exists_eq_left']
    split
    · next hlen =>
      constructor
      · rintro rfl
        exact .inl rfl
      · rintro (rfl | ⟨hne, -⟩)
        · rfl
        · exact absurd hlen hne
    · next hlen =>
      constructor
      · rintro rfl
        exact .inr ⟨hlen, rfl⟩
      · rintro (rfl | ⟨-, rfl⟩)
        · exact absurd h.length_asBytes hlen
        · rfl

/-! ## Exact decoding -/

theorem length_bytes (v : t.Value) : (t.bytes v).length = t.size := by
  cases t with
  | hash256 => exact Hash256.length_asBytes v
  | publicKey => exact PublicKey.length_asBytes v
  | signature => exact Signature.length_asBytes v
  | address => exact Address.length_asBytes v

theorem exists_bytes_eq (hlen : bs.length = t.size) : ∃ v, t.bytes v = bs := by
  cases t with
  | hash256 => exact ⟨⟨⟨bs, hlen⟩⟩, rfl⟩
  | publicKey => exact ⟨⟨⟨bs, hlen⟩⟩, rfl⟩
  | signature => exact ⟨⟨⟨bs, hlen⟩⟩, rfl⟩
  | address => exact ⟨⟨⟨bs, hlen⟩⟩, rfl⟩

theorem decodesExactly_of_ok_iff (h : ∀ v, t.decode s = .ok v ↔ t.IsText s (t.bytes v)) :
    t.DecodesExactly s := by
  refine ⟨⟨?_, ?_⟩, fun v hv => (h v).mp hv⟩
  · rintro ⟨v, hv⟩
    exact ⟨t.bytes v, (h v).mp hv, length_bytes v⟩
  · rintro ⟨bs, htext, hlen⟩
    obtain ⟨v, rfl⟩ := exists_bytes_eq hlen
    exact ⟨v, (h v).mpr htext⟩

/-- The texts of some bytes are those of an even number of digits. -/
theorem exists_hexText_iff :
    (∃ bs, HexText s bs) ↔ (∀ c ∈ s, (hexValue c).isSome) ∧ s.length % 2 = 0 := by
  rw [← exists_hexDecode]
  simp only [hexText_iff]

theorem HexText.length_eq (h : HexText s bs) : s.length = 2 * bs.length :=
  length_of_hexDecode (hexText_iff.mp h)

theorem decodesExactly_hash256_iff : hash256.DecodesExactly s ↔
    ((∀ c ∈ s, (hexValue c).isSome) → s.length % 2 = 0 → s.length = 64) := by
  constructor
  · intro h hdigits heven
    obtain ⟨bs, hbs⟩ := exists_hexText_iff.mpr ⟨hdigits, heven⟩
    have haccept : ∃ v, hash256.decode s = .ok v := by
      by_cases hlen : bs.length = 32
      · exact ⟨⟨⟨bs, hlen⟩⟩, decode_hash256_iff.mpr ⟨bs, hbs, .inl rfl⟩⟩
      · exact ⟨Hash256.zero, decode_hash256_iff.mpr ⟨bs, hbs, .inr ⟨hlen, rfl⟩⟩⟩
    obtain ⟨bs', htext, hlen⟩ := h.accepts.mp haccept
    rw [((isText_iff (by decide)).mp htext).length_eq, hlen]
    rfl
  · intro h
    refine decodesExactly_of_ok_iff fun v => ?_
    rw [isText_iff (by decide)]
    refine decode_hash256_iff.trans ⟨?_, fun htext => ⟨_, htext, .inl rfl⟩⟩
    rintro ⟨bs, htext, rfl | ⟨hne, -⟩⟩
    · exact htext
    · obtain ⟨hdigits, heven⟩ := exists_hexText_iff.mp ⟨bs, htext⟩
      have hlen := h hdigits heven
      rw [htext.length_eq] at hlen
      omega

theorem decodesExactly_iff (t : WireType) (s : Bytes) : t.DecodesExactly s ↔
    (t = hash256 → (∀ c ∈ s, (hexValue c).isSome) → s.length % 2 = 0 → s.length = 64) := by
  by_cases ht : t = hash256
  · subst ht
    rw [decodesExactly_hash256_iff]
    exact ⟨fun h _ => h, fun h => h rfl⟩
  · exact ⟨fun _ heq => absurd heq ht, fun _ => decodesExactly_of_ok_iff fun _ => decode_ok_iff ht⟩

/-! ## Round trip -/

theorem ascii_toHex (h : Hash256) : ascii h.toHex = hexEncode h.asBytes := by
  have hbyte : ∀ c : UInt8, (Char.ofNat c.toNat).toNat.toUInt8 = c := by
    intro c
    have hvalid : c.toNat.isValidChar := .inl (Nat.lt_trans c.toNat_lt (by decide))
    have hchar : (Char.ofNat c.toNat).toNat = c.toNat := by
      rw [Char.ofNat, dif_pos hvalid]
      rfl
    rw [hchar, Nat.toUInt8_eq, UInt8.ofNat_toNat]
  rw [ascii, Hash256.toHex, String.toList_ofList, List.map_map]
  exact (List.map_congr_left fun c _ => hbyte c).trans (List.map_id _)

theorem hexText_toHex (h : Hash256) : HexText (ascii h.toHex) h.asBytes := by
  rw [ascii_toHex]
  exact hexText_hexEncode _

theorem isText_encode (v : t.Value) : t.IsText (t.encode v) (t.bytes v) := by
  cases t with
  | hash256 => exact .inl (hexText_toHex v)
  | publicKey => exact .inl (hexText_hexEncode _)
  | signature => exact .inl (hexText_hexEncode _)
  | address => exact .inr ⟨rfl, _, rfl, hexText_hexEncode _⟩

theorem decode_encode (v : t.Value) : t.decode (t.encode v) = .ok v := by
  have htext := isText_encode v
  by_cases ht : t = hash256
  · subst ht
    exact decode_hash256_iff.mpr ⟨_, (isText_iff (by decide)).mp htext, .inl rfl⟩
  · exact (decode_ok_iff ht).mpr htext

end WireType

/-- **A string is decoded exactly unless it is a hash of another length**, and every
value is read back as it was written. -/
theorem wire_types_exact_iff (t : WireType) (s : Bytes) :
    (t.DecodesExactly s ↔ (t = .hash256 → (∀ c ∈ s, (hexValue c).isSome) → s.length % 2 = 0 →
      s.length = 64)) ∧
    ∀ v, t.decode (t.encode v) = .ok v :=
  ⟨WireType.decodesExactly_iff t s, fun _ => WireType.decode_encode _⟩

/-- Two digits are read as the zero hash. -/
theorem not_exact_two_digits : Hash256.fromHex (ascii "ab") = .ok Hash256.zero ∧
    ¬ WireType.hash256.DecodesExactly (ascii "ab") := by
  refine ⟨by decide, fun h => ?_⟩
  obtain ⟨bs, htext, hlen⟩ := h.accepts.mp ⟨Hash256.zero, rfl⟩
  have htwo := ((WireType.isText_iff (by decide)).mp htext).length_eq
  rw [hlen] at htwo
  cases htwo

end Ondris
