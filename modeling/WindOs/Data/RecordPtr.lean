import Mathlib.Data.Int.ModEq
import Mathlib.Tactic.Ring

namespace WindOs.Data

/-! # Differences of record pointers

The size of a record is a power of two times an odd number.  The difference of two
record pointers is computed without a division: the difference in bytes is shifted
right with its sign, and multiplied by the inverse of the odd number modulo `2 ^ w`.
-/

variable {w shift : Nat} {a b inverse : BitVec w} {q : Int}

def recordDiff (shift : Nat) (inverse a b : BitVec w) : BitVec w :=
  (a - b).sshiftRight shift * inverse

theorem ofInt_congr {x y : Int} (same : x ≡ y [ZMOD 2 ^ w]) :
    BitVec.ofInt w x = BitVec.ofInt w y := by
  apply BitVec.eq_of_toNat_eq
  rw [BitVec.toNat_ofInt, BitVec.toNat_ofInt]
  have residue : x % ((2 ^ w : Nat) : Int) = y % ((2 ^ w : Nat) : Int) := by
    rw [Nat.cast_pow]
    exact same
  rw [residue]

/-- The shift is exact on a multiple of its power within the signed range. -/
theorem sshiftRight_ofInt (positive : 0 < w) (lower : -2 ^ (w - 1) ≤ 2 ^ shift * q)
    (upper : 2 ^ shift * q < 2 ^ (w - 1)) :
    (BitVec.ofInt w (2 ^ shift * q)).sshiftRight shift = BitVec.ofInt w q := by
  rw [BitVec.sshiftRight, BitVec.toInt_ofInt_eq_self positive lower upper,
    Int.shiftRight_eq_div_pow]
  congr 1
  exact Int.mul_ediv_cancel_left q (pow_ne_zero shift two_ne_zero)

/-- A quotient that is wrong by a multiple of `2 ^ u` is right again once it is scaled by
`2 ^ p`: the wrong part is shifted out of the word. -/
theorem scaled_quotient {odd inv k c : Int} {u p : Nat} (unit : odd * inv ≡ 1 [ZMOD 2 ^ w])
    (wide : w ≤ u + p) :
    (odd * k + 2 ^ u * c) * inv * 2 ^ p ≡ k * 2 ^ p [ZMOD 2 ^ w] := by
  have out : 2 ^ (u + p) * (c * inv) ≡ 0 [ZMOD 2 ^ w] :=
    Int.modEq_zero_iff_dvd.mpr (Dvd.dvd.mul_right (pow_dvd_pow 2 wide) _)
  calc (odd * k + 2 ^ u * c) * inv * 2 ^ p
      = odd * inv * (k * 2 ^ p) + 2 ^ (u + p) * (c * inv) := by ring
    _ ≡ 1 * (k * 2 ^ p) + 0 [ZMOD 2 ^ w] := (unit.mul_right _).add out
    _ = k * 2 ^ p := by ring

/-- The difference to a record `k` places further on, in an alias of the array that is
`2 ^ shift * 2 ^ u * c` bytes away, is right once it is scaled. -/
theorem recordDiff_scaled {odd inv k c : Int} {u p : Nat} (positive : 0 < w)
    (unit : odd * inv ≡ 1 [ZMOD 2 ^ w]) (wide : w ≤ u + p)
    (apart : a - b = BitVec.ofInt w (2 ^ shift * (odd * k + 2 ^ u * c)))
    (lower : -2 ^ (w - 1) ≤ 2 ^ shift * (odd * k + 2 ^ u * c))
    (upper : 2 ^ shift * (odd * k + 2 ^ u * c) < 2 ^ (w - 1)) :
    recordDiff shift (BitVec.ofInt w inv) a b * BitVec.ofInt w (2 ^ p) =
      BitVec.ofInt w (k * 2 ^ p) := by
  rw [recordDiff, apart, sshiftRight_ofInt positive lower upper, ← BitVec.ofInt_mul,
    ← BitVec.ofInt_mul]
  exact ofInt_congr (scaled_quotient unit wide)

end WindOs.Data
