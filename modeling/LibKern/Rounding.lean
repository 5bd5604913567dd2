import LibKern.BitmapSource
import LibKern.Masks

namespace LibKern.Rounding

/-!
# The rounding macros

`include/kernel.h` rounds to a multiple of a power of two in three ways: `ALIGN`
adds and masks, `round_up` decrements, sets the low bits and increments, and
`roundup` divides and multiplies.  Each of them wraps around at another place,
and still they agree for every width.
-/

open Bitmap Masks

section Macros

variable {width : Nat}

/-- `__round_mask(x, y)`. -/
def roundMask (y : BitVec width) : BitVec width :=
  y - 1

/-- `round_up(x, y)`. -/
def roundUp (x y : BitVec width) : BitVec width :=
  ((x - 1) ||| roundMask y) + 1

/-- `round_down(x, y)`. -/
def roundDown (x y : BitVec width) : BitVec width :=
  x &&& ~~~roundMask y

/-- `roundup(x, y)`. -/
def roundup (x y : BitVec width) : BitVec width :=
  (x + (y - 1)) / y * y

/-- `rounddown(x, y)`. -/
def rounddown (x y : BitVec width) : BitVec width :=
  x - x % y

end Macros

section Values

variable {width k : Nat}
variable {y : BitVec width}

/-- A power of two that is a word divides the number of words. -/
theorem power_dvd
    (isPower : y.toNat = 2 ^ k) :
    2 ^ k ∣ 2 ^ width := by
  have bound := y.isLt
  rw [isPower] at bound
  exact Nat.pow_dvd_pow 2
    (Nat.le_of_lt ((Nat.pow_lt_pow_iff_right (by decide)).mp bound))

/-- The sum from which `ALIGN` and `roundup` start. -/
theorem toNat_add_mask
    (isPower : y.toNat = 2 ^ k)
    (x : BitVec width) :
    (x + (y - 1)).toNat = (x.toNat + (2 ^ k - 1)) % 2 ^ width := by
  rw [BitVec.toNat_add, toNat_mask isPower]

/-- `ALIGN` takes the least multiple, modulo the number of words. -/
theorem toNat_align
    (isPower : y.toNat = 2 ^ k)
    (x : BitVec width) :
    (align x y).toNat =
      (x.toNat + (2 ^ k - 1)) / 2 ^ k * 2 ^ k % 2 ^ width := by
  rw [align, toNat_and_not_mask isPower, toNat_add_mask isPower,
    mod_div_mul (power_dvd isPower)]

/-- `roundup` takes the least multiple, modulo the number of words. -/
theorem toNat_roundup
    (isPower : y.toNat = 2 ^ k)
    (x : BitVec width) :
    (roundup x y).toNat =
      (x.toNat + (2 ^ k - 1)) / 2 ^ k * 2 ^ k % 2 ^ width := by
  rw [roundup, BitVec.toNat_mul, BitVec.toNat_udiv, isPower,
    toNat_add_mask isPower, mod_div_mul (power_dvd isPower), Nat.mod_mod]

/-- `round_up` takes the least multiple, modulo the number of words. -/
theorem toNat_roundUp
    (isPower : y.toNat = 2 ^ k)
    (x : BitVec width) :
    (roundUp x y).toNat =
      (x.toNat + (2 ^ k - 1)) / 2 ^ k * 2 ^ k % 2 ^ width := by
  have positive := Nat.two_pow_pos k
  have bound := y.isLt
  have divides := power_dvd isPower
  have congruent :
      ((x - 1).toNat + 2 ^ k) % 2 ^ width =
        (x.toNat + (2 ^ k - 1)) % 2 ^ width := by
    have sum :
        2 ^ width - 1 + x.toNat + 2 ^ k =
          x.toNat + (2 ^ k - 1) + 2 ^ width := by
      omega
    rw [BitVec.toNat_sub, toNat_one isPower, Nat.mod_add_mod, sum,
      Nat.add_mod_right]
  calc
    (roundUp x y).toNat =
        ((x - 1).toNat / 2 ^ k * 2 ^ k + 2 ^ k) % 2 ^ width := by
      rw [roundUp, roundMask, BitVec.toNat_add, toNat_or_mask isPower,
        toNat_one isPower, Nat.add_assoc, Nat.sub_add_cancel positive]
    _ = ((x - 1).toNat + 2 ^ k) / 2 ^ k * 2 ^ k % 2 ^ width := by
      rw [Nat.add_div_right _ positive, Nat.succ_mul]
    _ = (x.toNat + (2 ^ k - 1)) / 2 ^ k * 2 ^ k % 2 ^ width := by
      rw [← mod_div_mul divides, congruent, mod_div_mul divides]

/-- `round_down` takes the multiple below. -/
theorem toNat_roundDown
    (isPower : y.toNat = 2 ^ k)
    (x : BitVec width) :
    (roundDown x y).toNat = x.toNat / 2 ^ k * 2 ^ k :=
  toNat_and_not_mask isPower

/-- `rounddown` takes the multiple below. -/
theorem toNat_rounddown
    (isPower : y.toNat = 2 ^ k)
    (x : BitVec width) :
    (rounddown x y).toNat = x.toNat / 2 ^ k * 2 ^ k := by
  have atMost : x % y ≤ x := by
    rw [BitVec.le_def, BitVec.toNat_umod]
    exact Nat.mod_le _ _
  have division := Nat.div_add_mod x.toNat (2 ^ k)
  rw [Nat.mul_comm] at division
  rw [rounddown, BitVec.toNat_sub_of_le atMost, BitVec.toNat_umod, isPower]
  omega

end Values

/-- The rounding macros agree for these arguments. -/
structure RoundsAlike
    {width : Nat}
    (x y : BitVec width) : Prop where
  align_eq : align x y = roundUp x y
  roundup_eq : roundup x y = roundUp x y
  /-- Rounding up gives the least multiple, if that is a word. -/
  least :
    ∀ multiple, IsLeast (multiplesFrom y.toNat x.toNat) multiple →
      multiple < 2 ^ width →
      (roundUp x y).toNat = multiple
  rounddown_eq : rounddown x y = roundDown x y
  /-- Rounding down gives the greatest multiple. -/
  greatest :
    IsGreatest (multiplesUpTo y.toNat x.toNat) (roundDown x y).toNat
  distance :
    roundUp x y - roundDown x y = 0 ∨ roundUp x y - roundDown x y = y

/-- For every power of two the rounding macros agree. -/
theorem rounding_macros_agree
    {width : Nat}
    {y : BitVec width}
    (isPower : y.toNat.isPowerOfTwo)
    (x : BitVec width) :
    RoundsAlike x y := by
  obtain ⟨k, isPower⟩ := isPower
  have positive := Nat.two_pow_pos k
  refine ⟨?_, ?_, ?_, ?_, ?_, ?_⟩
  · apply BitVec.eq_of_toNat_eq
    rw [toNat_align isPower, toNat_roundUp isPower]
  · apply BitVec.eq_of_toNat_eq
    rw [toNat_roundup isPower, toNat_roundUp isPower]
  · intro multiple isLeast below
    rw [isPower] at isLeast
    obtain rfl := isLeast.unique (isLeast_multiple positive x.toNat)
    rw [toNat_roundUp isPower, Nat.mod_eq_of_lt below]
  · apply BitVec.eq_of_toNat_eq
    rw [toNat_rounddown isPower, toNat_roundDown isPower]
  · rw [toNat_roundDown isPower, isPower]
    exact isGreatest_multiple positive x.toNat
  · have down := toNat_roundDown isPower x
    rcases least_multiple_eq positive x.toNat with same | next
    · left
      have isSame : roundUp x y = roundDown x y := by
        apply BitVec.eq_of_toNat_eq
        rw [toNat_roundUp isPower, same, ← down,
          Nat.mod_eq_of_lt (roundDown x y).isLt]
      rw [isSame, BitVec.sub_self, BitVec.ofNat_eq_ofNat]
    · right
      have isNext : roundUp x y = y + roundDown x y := by
        apply BitVec.eq_of_toNat_eq
        rw [toNat_roundUp isPower, next, BitVec.toNat_add, down, isPower,
          Nat.add_comm]
      rw [isNext, BitVec.add_sub_cancel]

/-- The sum of `ALIGN` wraps around for the last bytes before `2 ^ 8`. -/
theorem rounding_macros_agree_of_sample :
    roundUp (250 : BitVec 8) 16 = 0 ∧ RoundsAlike (250 : BitVec 8) 16 :=
  ⟨by decide, rounding_macros_agree ⟨4, rfl⟩ 250⟩

end LibKern.Rounding
