import Mathlib.Tactic.Common
import Ondris.Lib.Encoding

/-!
# Little-endian words by shifts

A 32-bit word put together from its bytes by shifts, and taken apart by shifts and a mask.

Results:
1. `ofBytes_eq`: the word put together has the value of its bytes.
2. `bytesOf_eq`: the bytes taken out are those of its value.
-/

namespace Words

open Encoding

/-- The word with the given bytes, least significant first. -/
def ofBytes (a b c d : UInt8) : UInt32 :=
  a.toUInt32 ||| b.toUInt32 <<< 8 ||| c.toUInt32 <<< 16 ||| d.toUInt32 <<< 24

/-- The byte of a word that starts at a bit. -/
def byteAt (w shift : UInt32) : UInt8 := (w >>> shift &&& 0xff).toUInt8

/-- The four bytes of a word, least significant first. -/
def bytesOf (w : UInt32) : Bytes := [byteAt w 0, byteAt w 8, byteAt w 16, byteAt w 24]

/-- Bits above a number are added to it. -/
theorem or_shiftLeft {a i : ℕ} (ha : a < 2 ^ i) (b : ℕ) : a ||| b <<< i = a + b * 2 ^ i := by
  rw [Nat.or_comm, ← Nat.shiftLeft_add_eq_or_of_lt ha, Nat.shiftLeft_eq, Nat.add_comm]

theorem toNat_toUInt32_shiftLeft (b : UInt8) {s : UInt32} (hs : s.toNat ≤ 24) :
    (b.toUInt32 <<< s).toNat = b.toNat <<< s.toNat := by
  have hlt : b.toNat < 2 ^ 8 := b.toNat_lt
  have hpow : 2 ^ s.toNat ≤ 2 ^ 24 := Nat.pow_le_pow_right (by decide) hs
  have hmul : b.toNat * 2 ^ s.toNat ≤ b.toNat * 2 ^ 24 := Nat.mul_le_mul_left _ hpow
  rw [UInt32.toNat_shiftLeft, Nat.mod_eq_of_lt (a := s.toNat) (by omega), UInt8.toNat_toUInt32,
    Nat.shiftLeft_eq, Nat.mod_eq_of_lt (by omega)]

theorem ofBytes_eq (a b c d : UInt8) : ofBytes a b c d = UInt32.ofNat (leNat [a, b, c, d]) := by
  have ha : a.toNat < 2 ^ 8 := a.toNat_lt
  have hb : b.toNat < 2 ^ 8 := b.toNat_lt
  have hc : c.toNat < 2 ^ 8 := c.toNat_lt
  have hd : d.toNat < 2 ^ 8 := d.toNat_lt
  refine UInt32.toNat_inj.mp ?_
  have hvalue : leNat [a, b, c, d] =
      a.toNat + b.toNat * 2 ^ 8 + c.toNat * 2 ^ 16 + d.toNat * 2 ^ 24 := by
    simp only [leNat, List.foldr_cons, List.foldr_nil]
    omega
  have h8 : (8 : UInt32).toNat = 8 := rfl
  have h16 : (16 : UInt32).toNat = 16 := rfl
  have h24 : (24 : UInt32).toNat = 24 := rfl
  -- each byte lies above the bits of those before it
  have hab : a.toNat ||| b.toNat <<< 8 = a.toNat + b.toNat * 2 ^ 8 := or_shiftLeft ha _
  have habc : a.toNat ||| b.toNat <<< 8 ||| c.toNat <<< 16
      = a.toNat + b.toNat * 2 ^ 8 + c.toNat * 2 ^ 16 := by
    rw [hab, or_shiftLeft (by omega)]
  have hall : a.toNat ||| b.toNat <<< 8 ||| c.toNat <<< 16 ||| d.toNat <<< 24
      = a.toNat + b.toNat * 2 ^ 8 + c.toNat * 2 ^ 16 + d.toNat * 2 ^ 24 := by
    rw [habc, or_shiftLeft (by omega)]
  rw [ofBytes, UInt32.toNat_or, UInt32.toNat_or, UInt32.toNat_or,
    toNat_toUInt32_shiftLeft b (by decide), toNat_toUInt32_shiftLeft c (by decide),
    toNat_toUInt32_shiftLeft d (by decide), UInt8.toNat_toUInt32, h8, h16, h24, hall,
    UInt32.toNat_ofNat', hvalue, Nat.mod_eq_of_lt (by omega)]

theorem byteAt_eq (w : UInt32) {s : UInt32} (hs : s.toNat < 32) :
    byteAt w s = (w.toNat / 2 ^ s.toNat % 256).toUInt8 := by
  have hmask : (0xff : UInt32).toNat = 2 ^ 8 - 1 := rfl
  refine UInt8.toNat_inj.mp ?_
  rw [byteAt, UInt32.toNat_toUInt8, UInt32.toNat_and, UInt32.toNat_shiftRight, hmask,
    Nat.and_two_pow_sub_one_eq_mod, Nat.mod_eq_of_lt (a := s.toNat) hs,
    Nat.shiftRight_eq_div_pow, Nat.toUInt8_eq, UInt8.toNat_ofNat']

theorem bytesOf_eq (w : UInt32) : bytesOf w = leBytes 4 w.toNat := by
  rw [bytesOf, byteAt_eq w (by decide), byteAt_eq w (by decide), byteAt_eq w (by decide),
    byteAt_eq w (by decide)]
  have h0 : (0 : UInt32).toNat = 0 := rfl
  have h8 : (8 : UInt32).toNat = 8 := rfl
  have h16 : (16 : UInt32).toNat = 16 := rfl
  have h24 : (24 : UInt32).toNat = 24 := rfl
  simp only [leBytes, Nat.div_div_eq_div_mul, h0, h8, h16, h24, Nat.reducePow, Nat.reduceMul,
    Nat.div_one]

end Words
