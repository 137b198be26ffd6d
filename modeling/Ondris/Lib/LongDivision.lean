import Ondris.Lib.Encoding

/-!
# Long division of big-endian bytes

A number given by its bytes, most significant first, is divided by `d` one byte at a
time. `dividends` are the partial dividends: the remainder so far followed by the next
byte.

Results:
1. `dividend_lt`: with a remainder below `d` every partial dividend is below
   `256 * d`, so its quotient is a byte.
2. `beNat_quotients`: the quotients are the bytes of the quotient.
3. `le_iff_beNat_le`: byte strings of one length are ordered as their numbers.
-/

namespace LongDivision

open Encoding

/-- The partial dividends of the division of `bs` by `d`, with the remainder `r` before. -/
def dividends (d : ℕ) : Bytes → ℕ → List ℕ
  | [], _ => []
  | b :: bs, r => (r * 256 + b.toNat) :: dividends d bs ((r * 256 + b.toNat) % d)

/-- The quotients of the partial dividends, cut to a byte each. -/
def quotients (d : ℕ) (bs : Bytes) (r : ℕ) : Bytes :=
  (dividends d bs r).map fun cur => (cur / d).toUInt8

/-! ## Numbers -/

@[simp] theorem beNat_nil : beNat [] = 0 := rfl

theorem leNat_append (as bs : Bytes) : leNat (as ++ bs) = leNat as + 256 ^ as.length * leNat bs := by
  induction as with
  | nil => simp [leNat]
  | cons a as ih =>
    have hcons : ∀ cs : Bytes, leNat (a :: cs) = a.toNat + 256 * leNat cs := fun _ => rfl
    rw [List.cons_append, hcons, hcons, ih, List.length_cons, Nat.pow_succ']
    ring

theorem beNat_cons (b : UInt8) (bs : Bytes) :
    beNat (b :: bs) = b.toNat * 256 ^ bs.length + beNat bs := by
  have hone : leNat [b] = b.toNat := rfl
  rw [beNat, List.reverse_cons, leNat_append, List.length_reverse, hone, beNat]
  ring

theorem beNat_lt (bs : Bytes) : beNat bs < 256 ^ bs.length := by
  induction bs with
  | nil => decide
  | cons b bs ih =>
    have hb := b.toNat_lt
    have hmul : (b.toNat + 1) * 256 ^ bs.length ≤ 256 * 256 ^ bs.length :=
      Nat.mul_le_mul_right _ (by omega)
    rw [beNat_cons, List.length_cons, Nat.pow_succ']
    rw [Nat.add_mul] at hmul
    omega

/-! ## The division -/

variable {d : ℕ}

@[simp] theorem length_quotients (bs : Bytes) (r : ℕ) : (quotients d bs r).length = bs.length := by
  rw [quotients, List.length_map]
  induction bs generalizing r with
  | nil => rfl
  | cons b bs ih => rw [dividends, List.length_cons, List.length_cons, ih]

theorem dividend_lt (hd : 0 < d) {bs : Bytes} {r : ℕ} (hr : r < d) :
    ∀ cur ∈ dividends d bs r, cur < d * 256 := by
  induction bs generalizing r with
  | nil => exact fun cur hcur => absurd hcur List.not_mem_nil
  | cons b bs ih =>
    have hb := b.toNat_lt
    intro cur hcur
    rcases List.mem_cons.mp hcur with rfl | hcur
    · omega
    · exact ih (Nat.mod_lt _ hd) cur hcur

/-- The invariant of the loop: the quotient of what was read so far, and its remainder. -/
theorem beNat_quotients (hd : 0 < d) {bs : Bytes} {r : ℕ} (hr : r < d) :
    beNat (quotients d bs r) = (r * 256 ^ bs.length + beNat bs) / d := by
  induction bs generalizing r with
  | nil => simp [quotients, dividends, Nat.div_eq_of_lt hr]
  | cons b bs ih =>
    have hb := b.toNat_lt
    generalize hcur : r * 256 + b.toNat = cur
    have hdigit : cur / d < 256 := Nat.div_lt_of_lt_mul (by omega)
    have hbyte : (cur / d).toUInt8.toNat = cur / d := by
      rw [Nat.toUInt8_eq, UInt8.toNat_ofNat', Nat.mod_eq_of_lt hdigit]
    have hcons : quotients d (b :: bs) r = (cur / d).toUInt8 :: quotients d bs (cur % d) := by
      rw [quotients, dividends, hcur]
      rfl
    have hsplit : r * 256 ^ (bs.length + 1) + (b.toNat * 256 ^ bs.length + beNat bs)
        = cur % d * 256 ^ bs.length + beNat bs + d * (cur / d * 256 ^ bs.length) := by
      calc r * 256 ^ (bs.length + 1) + (b.toNat * 256 ^ bs.length + beNat bs)
          = cur * 256 ^ bs.length + beNat bs := by rw [← hcur]; ring
        _ = (cur % d + d * (cur / d)) * 256 ^ bs.length + beNat bs := by rw [Nat.mod_add_div]
        _ = _ := by ring
    rw [hcons, beNat_cons, beNat_cons, hbyte, length_quotients, ih (Nat.mod_lt _ hd),
      List.length_cons, hsplit, Nat.add_mul_div_left _ _ hd]
    exact Nat.add_comm _ _

/-! ## The order -/

/-- The first byte that differs decides, as it does for the numbers. -/
theorem le_iff_beNat_le {as bs : Bytes} (hlen : as.length = bs.length) :
    as ≤ bs ↔ beNat as ≤ beNat bs := by
  induction as generalizing bs with
  | nil =>
    obtain rfl := List.length_eq_zero_iff.mp hlen.symm
    exact ⟨fun _ => Nat.le_refl _, fun _ => List.nil_le _⟩
  | cons a as ih =>
    cases bs with
    | nil => cases hlen
    | cons b bs =>
      have hlen' : as.length = bs.length := Nat.succ.inj hlen
      have ha := beNat_lt as
      have hb := beNat_lt bs
      rw [List.cons_le_cons_iff, ih hlen', beNat_cons, beNat_cons, hlen']
      rw [hlen'] at ha
      rcases Nat.lt_trichotomy a.toNat b.toNat with hlt | heq | hgt
      · have hmul : (a.toNat + 1) * 256 ^ bs.length ≤ b.toNat * 256 ^ bs.length :=
          Nat.mul_le_mul_right _ hlt
        rw [Nat.add_mul, Nat.one_mul] at hmul
        exact ⟨fun _ => by omega, fun _ => .inl (UInt8.lt_iff_toNat_lt.mpr hlt)⟩
      · obtain rfl := UInt8.toNat_inj.mp heq
        refine ⟨fun h => ?_, fun h => .inr ⟨rfl, by omega⟩⟩
        rcases h with hlt | ⟨-, hle⟩
        · exact absurd hlt (UInt8.lt_irrefl _)
        · omega
      · have hmul : (b.toNat + 1) * 256 ^ bs.length ≤ a.toNat * 256 ^ bs.length :=
          Nat.mul_le_mul_right _ hgt
        rw [Nat.add_mul, Nat.one_mul] at hmul
        refine ⟨fun h => ?_, fun h => by omega⟩
        rcases h with hlt | ⟨rfl, -⟩
        · exact absurd (UInt8.lt_iff_toNat_lt.mp hlt) (Nat.not_lt.mpr hgt.le)
        · exact absurd hgt (Nat.lt_irrefl _)

end LongDivision
