import Mathlib.Data.Nat.Digits.Lemmas
import Mathlib.Data.List.Basic
import Mathlib.Tactic.Common

/-!
# Byte encodings

Little-endian words, hexadecimal and decimal text, all as lists of bytes.

Results:
1. `leBytes_injective`, `le64_injective`: fixed-width words are determined by
   their bytes.
2. `hexEncode_injective`, `hexDecode_eq_ok_iff`: hexadecimal text determines
   the bytes, and exactly their encodings in either letter case decode to them.
3. `decimal_injective`, `decimal_append_inj`: decimal text determines the
   number, and a separator after it marks its end.
-/

/-- Byte strings. -/
abbrev Bytes := List UInt8

/-- The ASCII bytes of a text. -/
def ascii (s : String) : Bytes := s.toList.map fun c => c.toNat.toUInt8

namespace Encoding

/-! ## Little-endian words -/

/-- The `k` low bytes of `x`, least significant first. -/
def leBytes : ℕ → ℕ → Bytes
  | 0, _ => []
  | k + 1, x => (x % 256).toUInt8 :: leBytes k (x / 256)

@[simp] theorem length_leBytes (k x : ℕ) : (leBytes k x).length = k := by
  induction k generalizing x with
  | zero => rfl
  | succ k ih => simp [leBytes, ih]

theorem toUInt8_inj {a b : ℕ} (ha : a < 256) (hb : b < 256) (h : a.toUInt8 = b.toUInt8) :
    a = b := by
  have hn := congrArg UInt8.toNat h
  simp only [Nat.toUInt8_eq, UInt8.toNat_ofNat'] at hn
  omega

theorem leBytes_injective {k x y : ℕ} (hx : x < 256 ^ k) (hy : y < 256 ^ k)
    (h : leBytes k x = leBytes k y) : x = y := by
  induction k generalizing x y with
  | zero =>
    simp only [Nat.pow_zero, Nat.lt_one_iff] at hx hy
    rw [hx, hy]
  | succ k ih =>
    simp only [leBytes, List.cons.injEq] at h
    have hlow := toUInt8_inj (Nat.mod_lt x (by decide)) (Nat.mod_lt y (by decide)) h.1
    rw [Nat.pow_succ'] at hx hy
    have hhigh := ih (Nat.div_lt_of_lt_mul hx) (Nat.div_lt_of_lt_mul hy) h.2
    omega

/-- The bytes one by one. -/
theorem leBytes_eq_map (k x : ℕ) :
    leBytes k x = (List.range k).map fun i => (x / 256 ^ i % 256).toUInt8 := by
  induction k generalizing x with
  | zero => rfl
  | succ k ih =>
    rw [leBytes, ih, List.range_succ_eq_map, List.map_cons, List.map_map, Nat.pow_zero, Nat.div_one]
    refine congrArg _ (List.map_congr_left fun i _ => ?_)
    rw [Function.comp_apply, Nat.pow_succ', Nat.div_div_eq_div_mul]

/-- The number whose bytes are `bs`, least significant first. -/
def leNat (bs : Bytes) : ℕ := bs.foldr (fun b n => b.toNat + 256 * n) 0

theorem leNat_leBytes {k x : ℕ} (hx : x < 256 ^ k) : leNat (leBytes k x) = x := by
  induction k generalizing x with
  | zero =>
    simp only [Nat.pow_zero, Nat.lt_one_iff] at hx
    rw [hx]
    rfl
  | succ k ih =>
    rw [Nat.pow_succ'] at hx
    have hlow : (x % 256).toUInt8.toNat = x % 256 := by
      simp only [Nat.toUInt8_eq, UInt8.toNat_ofNat']
      omega
    have hhigh : (leBytes k (x / 256)).foldr (fun b n => b.toNat + 256 * n) 0 = x / 256 :=
      ih (Nat.div_lt_of_lt_mul hx)
    rw [leBytes, leNat, List.foldr_cons, hhigh, hlow]
    omega

/-- The `k` low bytes of `x`, most significant first. -/
def beBytes (k x : ℕ) : Bytes := (leBytes k x).reverse

/-- The number whose bytes are `bs`, most significant first. -/
def beNat (bs : Bytes) : ℕ := leNat bs.reverse

@[simp] theorem length_beBytes (k x : ℕ) : (beBytes k x).length = k := by
  rw [beBytes, List.length_reverse, length_leBytes]

theorem beNat_beBytes {k x : ℕ} (hx : x < 256 ^ k) : beNat (beBytes k x) = x := by
  rw [beNat, beBytes, List.reverse_reverse, leNat_leBytes hx]

def le64 (x : UInt64) : Bytes := leBytes 8 x.toNat

@[simp] theorem length_le64 (x : UInt64) : (le64 x).length = 8 := length_leBytes 8 _

theorem le64_injective {x y : UInt64} (h : le64 x = le64 y) : x = y := by
  have hx : x.toNat < 256 ^ 8 := x.toNat_lt
  have hy : y.toNat < 256 ^ 8 := y.toNat_lt
  exact UInt64.toNat_inj.mp (leBytes_injective hx hy h)

/-! ## Hexadecimal text -/

/-- The digit of a number below 16, in lower case. -/
def hexDigit (n : ℕ) : UInt8 := if n < 10 then (48 + n).toUInt8 else (87 + n).toUInt8

/-- The value of a digit, in either case. -/
def hexValue (c : UInt8) : Option ℕ :=
  if 48 ≤ c ∧ c ≤ 57 then some (c.toNat - 48)
  else if 97 ≤ c ∧ c ≤ 102 then some (c.toNat - 87)
  else if 65 ≤ c ∧ c ≤ 70 then some (c.toNat - 55)
  else none

/-- `hex::encode`: two digits a byte, high digit first. -/
def hexEncode : Bytes → Bytes
  | [] => []
  | b :: bs => hexDigit (b.toNat / 16) :: hexDigit (b.toNat % 16) :: hexEncode bs

/-- `FromHexError`. -/
inductive FromHexError
  | oddLength
  | invalidHexCharacter (c : UInt8) (index : ℕ)
deriving DecidableEq

/-- A character below 256 between quotes, as it is shown for debugging. -/
def charDebug (c : UInt8) : String :=
  let shown :=
    if c = 0 then "\\0"
    else if c = 9 then "\\t"
    else if c = 10 then "\\n"
    else if c = 13 then "\\r"
    else if c = 39 ∨ c = 92 then "\\" ++ String.singleton (Char.ofNat c.toNat)
    else if 32 ≤ c ∧ c ≤ 126 ∨ 161 ≤ c ∧ c ≠ 173 then String.singleton (Char.ofNat c.toNat)
    else "\\u\x7b" ++ String.ofList (Nat.toDigits 16 c.toNat) ++ "\x7d"
  "\x27" ++ shown ++ "\x27"

/-- The text of an error. -/
def FromHexError.message : FromHexError → String
  | oddLength => "Odd number of digits"
  | invalidHexCharacter c index =>
    "Invalid character " ++ charDebug c ++ " at position " ++ toString index

/-- The value of the digit at a position. -/
def hexDigitAt (c : UInt8) (index : ℕ) : Except FromHexError ℕ :=
  match hexValue c with
  | some n => .ok n
  | none => .error (.invalidHexCharacter c index)

/-- The bytes of pairs of digits, of which the first one is at position `index`. -/
def hexPairs (index : ℕ) : Bytes → Except FromHexError Bytes
  | c :: d :: cs => do
    let hi ← hexDigitAt c index
    let lo ← hexDigitAt d (index + 1)
    let bs ← hexPairs (index + 2) cs
    return (hi * 16 + lo).toUInt8 :: bs
  | _ => .ok []

/-- `hex::decode`: an odd number of characters is an error, and so is the first character that
is not a digit. -/
def hexDecode (s : Bytes) : Except FromHexError Bytes :=
  if s.length % 2 = 1 then .error .oddLength else hexPairs 0 s

@[simp] theorem length_hexEncode (bs : Bytes) : (hexEncode bs).length = 2 * bs.length := by
  induction bs with
  | nil => rfl
  | cons b bs ih =>
    simp only [hexEncode, List.length_cons, ih]
    omega

theorem hexValue_hexDigit {n : ℕ} (hn : n < 16) : hexValue (hexDigit n) = some n := by
  interval_cases n <;> rfl

theorem hexPairs_hexEncode (bs : Bytes) (index : ℕ) : hexPairs index (hexEncode bs) = .ok bs := by
  induction bs generalizing index with
  | nil => rfl
  | cons b bs ih =>
    have hb : b.toNat < 256 := b.toNat_lt
    have hhi : hexValue (hexDigit (b.toNat / 16)) = some (b.toNat / 16) :=
      hexValue_hexDigit (by omega)
    have hlo : hexValue (hexDigit (b.toNat % 16)) = some (b.toNat % 16) :=
      hexValue_hexDigit (by omega)
    have hbyte : (b.toNat / 16 * 16 + b.toNat % 16).toUInt8 = b := by
      rw [Nat.div_add_mod']
      simp
    simp only [hexEncode, hexPairs, hexDigitAt, hhi, hlo, ih]
    show Except.ok ((b.toNat / 16 * 16 + b.toNat % 16).toUInt8 :: bs) = _
    rw [hbyte]

theorem hexDecode_hexEncode (bs : Bytes) : hexDecode (hexEncode bs) = .ok bs := by
  rw [hexDecode, length_hexEncode, if_neg (by omega), hexPairs_hexEncode]

theorem hexEncode_injective {bs cs : Bytes} (h : hexEncode bs = hexEncode cs) : bs = cs := by
  have hdec := congrArg hexDecode h
  rw [hexDecode_hexEncode, hexDecode_hexEncode] at hdec
  exact Except.ok.inj hdec

/-- `u8::to_ascii_lowercase`. -/
def asciiLower (c : UInt8) : UInt8 := if 65 ≤ c ∧ c ≤ 90 then c + 32 else c

theorem toNat_hexDigit {n : ℕ} (hn : n < 16) :
    (hexDigit n).toNat = if n < 10 then 48 + n else 87 + n := by
  interval_cases n <;> rfl

theorem toNat_asciiLower (c : UInt8) :
    (asciiLower c).toNat = if 65 ≤ c.toNat ∧ c.toNat ≤ 90 then c.toNat + 32 else c.toNat := by
  unfold asciiLower
  simp only [UInt8.le_iff_toNat_le, UInt8.reduceToNat]
  split
  · next h =>
    have h32 : (32 : UInt8).toNat = 32 := rfl
    rw [UInt8.toNat_add, h32]
    omega
  · rfl

/-- The value of a digit, by its number. -/
theorem hexValue_eq (c : UInt8) : hexValue c =
    if 48 ≤ c.toNat ∧ c.toNat ≤ 57 then some (c.toNat - 48)
    else if 97 ≤ c.toNat ∧ c.toNat ≤ 102 then some (c.toNat - 87)
    else if 65 ≤ c.toNat ∧ c.toNat ≤ 70 then some (c.toNat - 55)
    else none := by
  unfold hexValue
  simp only [UInt8.le_iff_toNat_le, UInt8.reduceToNat]

/-- A digit of either case has the value of its lower-case form. -/
theorem hexValue_eq_some_iff {c : UInt8} {n : ℕ} :
    hexValue c = some n ↔ n < 16 ∧ asciiLower c = hexDigit n := by
  have hc := c.toNat_lt
  have hlower := toNat_asciiLower c
  rw [hexValue_eq]
  constructor
  · intro h
    have hn : n < 16 ∧ (asciiLower c).toNat = if n < 10 then 48 + n else 87 + n := by
      rw [hlower]
      grind
    exact ⟨hn.1, UInt8.toNat_inj.mp (hn.2.trans (toNat_hexDigit hn.1).symm)⟩
  · rintro ⟨hn, heq⟩
    rw [heq, toNat_hexDigit hn] at hlower
    grind

theorem hexPairs_cons_cons {index : ℕ} {c d : UInt8} {cs bs : Bytes} :
    hexPairs index (c :: d :: cs) = .ok bs ↔ ∃ hi lo tail, hexValue c = some hi ∧
      hexValue d = some lo ∧ hexPairs (index + 2) cs = .ok tail ∧
      (hi * 16 + lo).toUInt8 :: tail = bs := by
  rw [hexPairs, hexDigitAt, hexDigitAt]
  cases hexValue c with
  | none => simp [bind, Except.bind]
  | some hi =>
    cases hexValue d with
    | none => simp [bind, Except.bind]
    | some lo =>
      cases hexPairs (index + 2) cs with
      | error e => simp [bind, Except.bind]
      | ok tail => simp [bind, Except.bind, pure, Except.pure]

/-- A byte from its two digits. -/
theorem hexEncode_cons {hi lo : ℕ} (hhi : hi < 16) (hlo : lo < 16) (tail : Bytes) :
    hexEncode ((hi * 16 + lo).toUInt8 :: tail) = hexDigit hi :: hexDigit lo :: hexEncode tail := by
  have hbyte : (hi * 16 + lo).toUInt8.toNat = hi * 16 + lo := by
    rw [Nat.toUInt8_eq, UInt8.toNat_ofNat', Nat.mod_eq_of_lt (by omega)]
  rw [hexEncode, hbyte, show (hi * 16 + lo) / 16 = hi by omega,
    show (hi * 16 + lo) % 16 = lo by omega]

/-- Pairs of digits are those of the bytes of which they are the encoding. -/
theorem hexPairs_eq_ok_iff {s bs : Bytes} {index : ℕ} (heven : s.length % 2 = 0) :
    hexPairs index s = .ok bs ↔ s.map asciiLower = hexEncode bs := by
  match s with
  | [] => cases bs <;> simp [hexPairs, hexEncode]
  | [c] => cases heven
  | c :: d :: cs =>
    have heven' : cs.length % 2 = 0 := by
      simp only [List.length_cons] at heven
      omega
    rw [hexPairs_cons_cons, List.map_cons, List.map_cons]
    constructor
    · rintro ⟨hi, lo, tail, hhi, hlo, htail, rfl⟩
      obtain ⟨hhi, hc⟩ := hexValue_eq_some_iff.mp hhi
      obtain ⟨hlo, hd⟩ := hexValue_eq_some_iff.mp hlo
      rw [hexEncode_cons hhi hlo, hc, hd, (hexPairs_eq_ok_iff heven').mp htail]
    · intro h
      cases bs with
      | nil => cases h
      | cons b tail =>
        have hb := b.toNat_lt
        simp only [hexEncode, List.cons.injEq] at h
        obtain ⟨hc, hd, hcs⟩ := h
        refine ⟨b.toNat / 16, b.toNat % 16, tail, hexValue_eq_some_iff.mpr ⟨by omega, hc⟩,
          hexValue_eq_some_iff.mpr ⟨by omega, hd⟩, (hexPairs_eq_ok_iff heven').mpr hcs, ?_⟩
        rw [Nat.div_add_mod', Nat.toUInt8_eq, UInt8.ofNat_toNat]

/-- A text is decoded to the bytes of which it is the encoding, in either letter case. -/
theorem hexDecode_eq_ok_iff {s bs : Bytes} :
    hexDecode s = .ok bs ↔ s.map asciiLower = hexEncode bs := by
  unfold hexDecode
  split
  · next hodd =>
    constructor
    · intro h
      cases h
    · intro h
      have hlen := congrArg List.length h
      rw [List.length_map, length_hexEncode] at hlen
      omega
  · exact hexPairs_eq_ok_iff (by omega)

/-- The pairs of an even number of characters are decoded if these are digits. -/
theorem exists_hexPairs {s : Bytes} {index : ℕ} (heven : s.length % 2 = 0) :
    (∃ bs, hexPairs index s = .ok bs) ↔ ∀ c ∈ s, (hexValue c).isSome := by
  match s with
  | [] => simp [hexPairs]
  | [c] => cases heven
  | c :: d :: cs =>
    have heven' : cs.length % 2 = 0 := by
      simp only [List.length_cons] at heven
      omega
    simp only [hexPairs_cons_cons, List.forall_mem_cons, Option.isSome_iff_exists]
    have ih : (∃ bs, hexPairs (index + 2) cs = .ok bs) ↔ _ := exists_hexPairs heven'
    simp only [Option.isSome_iff_exists] at ih
    constructor
    · rintro ⟨bs, hi, lo, tail, hhi, hlo, htail, -⟩
      exact ⟨⟨hi, hhi⟩, ⟨lo, hlo⟩, ih.mp ⟨tail, htail⟩⟩
    · rintro ⟨⟨hi, hhi⟩, ⟨lo, hlo⟩, hdigits⟩
      obtain ⟨tail, htail⟩ := ih.mpr hdigits
      exact ⟨_, hi, lo, tail, hhi, hlo, htail, rfl⟩

/-- Exactly the texts of an even number of digits are decoded. -/
theorem exists_hexDecode {s : Bytes} :
    (∃ bs, hexDecode s = .ok bs) ↔ (∀ c ∈ s, (hexValue c).isSome) ∧ s.length % 2 = 0 := by
  unfold hexDecode
  split
  · next hodd =>
    constructor
    · rintro ⟨bs, h⟩
      cases h
    · rintro ⟨-, heven⟩
      omega
  · next hodd =>
    have heven : s.length % 2 = 0 := by omega
    rw [exists_hexPairs heven, and_iff_left heven]

theorem length_of_hexDecode {s bs : Bytes} (h : hexDecode s = .ok bs) :
    s.length = 2 * bs.length := by
  rw [← length_hexEncode, ← hexDecode_eq_ok_iff.mp h, List.length_map]

/-! ## Decimal text -/

/-- The decimal digits of `n`, most significant first; `0` has one digit. -/
def decimal (n : ℕ) : Bytes :=
  if n = 0 then [48] else (Nat.digits 10 n).reverse.map fun d => (48 + d).toUInt8

theorem decimal_digit {n : ℕ} {c : UInt8} (h : c ∈ decimal n) : 48 ≤ c ∧ c ≤ 57 := by
  unfold decimal at h
  split at h
  · simp only [List.mem_singleton] at h
    subst h
    decide
  · obtain ⟨d, hd, rfl⟩ := List.mem_map.mp h
    have hlt : d < 10 := Nat.digits_lt_base (by decide) (List.mem_reverse.mp hd)
    interval_cases d <;> decide

/-- A byte that is not a digit does not occur in a decimal number. -/
theorem notMem_decimal {c : UInt8} (hc : c < 48 ∨ 57 < c) (n : ℕ) : c ∉ decimal n := by
  intro h
  have hd := decimal_digit h
  simp only [UInt8.lt_iff_toNat_lt, UInt8.le_iff_toNat_le] at hc hd
  omega

/-- The number a decimal text stands for. -/
def decimalValue (cs : Bytes) : ℕ := Nat.ofDigits 10 (cs.reverse.map fun c => c.toNat - 48)

theorem decimalValue_decimal (n : ℕ) : decimalValue (decimal n) = n := by
  unfold decimalValue decimal
  split
  · next h => rw [h]; rfl
  · have hdigits : ∀ d ∈ Nat.digits 10 n, (48 + d).toUInt8.toNat - 48 = d := by
      intro d hd
      have hlt : d < 10 := Nat.digits_lt_base (by decide) hd
      interval_cases d <;> rfl
    rw [← List.map_reverse, List.reverse_reverse, List.map_map, List.map_congr_left (g := id),
      List.map_id, Nat.ofDigits_digits]
    exact hdigits

theorem decimal_injective {n m : ℕ} (h : decimal n = decimal m) : n = m := by
  have hval := congrArg decimalValue h
  rwa [decimalValue_decimal, decimalValue_decimal] at hval

/-- A separator that occurs in neither text before it splits both alike. -/
theorem append_cons_inj {α : Type*} {x y z w : List α} {c : α} (hx : c ∉ x) (hy : c ∉ y)
    (h : x ++ c :: z = y ++ c :: w) : x = y ∧ z = w := by
  induction x generalizing y with
  | nil =>
    cases y with
    | nil => exact ⟨rfl, (List.cons.inj h).2⟩
    | cons b y => exact absurd (List.mem_cons.mpr (.inl (List.cons.inj h).1)) hy
  | cons a x ih =>
    cases y with
    | nil => exact absurd (List.mem_cons.mpr (.inl (List.cons.inj h).1.symm)) hx
    | cons b y =>
      obtain ⟨rfl, htail⟩ := List.cons.inj h
      obtain ⟨rfl, rfl⟩ := ih (fun hm => hx (List.mem_cons_of_mem _ hm))
        (fun hm => hy (List.mem_cons_of_mem _ hm)) htail
      exact ⟨rfl, rfl⟩

/-- A decimal number ends at the first byte that is not a digit. -/
theorem decimal_append_inj {n m : ℕ} {c : UInt8} (hc : c < 48 ∨ 57 < c) {z w : Bytes}
    (h : decimal n ++ c :: z = decimal m ++ c :: w) : n = m ∧ z = w := by
  obtain ⟨hnum, hrest⟩ := append_cons_inj (notMem_decimal hc n) (notMem_decimal hc m) h
  exact ⟨decimal_injective hnum, hrest⟩

end Encoding
