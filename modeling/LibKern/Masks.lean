import Mathlib.Data.Nat.Bitwise
import Mathlib.Data.Nat.Log
import Mathlib.Order.Bounds.Basic

namespace LibKern.Masks

/-!
# Masks of powers of two

A power of two minus one is a mask of low bits.  It takes the remainder, its
complement takes the multiple below, and every smaller number fits into it.
Conversely, a number into which all smaller ones fit is such a mask.
-/

section Words

variable {width k : Nat}
variable {x y : BitVec width}

/-- A word can be one if it can be a power of two. -/
theorem toNat_one
    (isPower : y.toNat = 2 ^ k) :
    (1 : BitVec width).toNat = 1 := by
  have positive := Nat.two_pow_pos k
  have bound := y.isLt
  have large : 1 < 2 ^ width := by
    omega
  exact Nat.mod_eq_of_lt large

/-- The mask is a number with low bits only. -/
theorem toNat_mask
    (isPower : y.toNat = 2 ^ k) :
    (y - 1).toNat = 2 ^ k - 1 := by
  have positive := Nat.two_pow_pos k
  have one := toNat_one isPower
  rw [BitVec.toNat_sub_of_le (by rw [BitVec.le_def]; omega), isPower, one]

/-- The complement of the mask shifts the low bits out and back in. -/
theorem and_not_mask
    (isPower : y.toNat = 2 ^ k) :
    x &&& ~~~(y - 1) = (x >>> k) <<< k := by
  apply BitVec.eq_of_getLsbD_eq
  intro index inside
  have isMask : (y - 1).getLsbD index = decide (index < k) := by
    rw [BitVec.getLsbD, toNat_mask isPower, Nat.testBit_two_pow_sub_one]
  rw [BitVec.getLsbD_and, BitVec.getLsbD_not, isMask,
    BitVec.getLsbD_shiftLeft, BitVec.getLsbD_ushiftRight]
  by_cases low : index < k
  · simp [low]
  · have position : k + (index - k) = index := by
      omega
    simp [low, inside, position]

/-- The complement of the mask takes the multiple below. -/
theorem toNat_and_not_mask
    (isPower : y.toNat = 2 ^ k) :
    (x &&& ~~~(y - 1)).toNat = x.toNat / 2 ^ k * 2 ^ k := by
  have below := Nat.div_mul_le_self x.toNat (2 ^ k)
  have bound := x.isLt
  rw [and_not_mask isPower, BitVec.toNat_shiftLeft,
    BitVec.toNat_ushiftRight, Nat.shiftRight_eq_div_pow,
    Nat.shiftLeft_eq, Nat.mod_eq_of_lt (by omega)]

/-- Setting the bits of the mask goes to the end of a block. -/
theorem toNat_or_mask
    (isPower : y.toNat = 2 ^ k) :
    (x ||| (y - 1)).toNat = x.toNat / 2 ^ k * 2 ^ k + (2 ^ k - 1) := by
  have positive := Nat.two_pow_pos k
  rw [BitVec.toNat_or, toNat_mask isPower, ← Nat.shiftRight_eq_div_pow,
    ← Nat.shiftLeft_eq, Nat.shiftLeft_add_eq_or_of_lt (by omega)]
  apply Nat.eq_of_testBit_eq
  intro index
  rw [Nat.testBit_or, Nat.testBit_or, Nat.testBit_two_pow_sub_one,
    Nat.testBit_shiftLeft, Nat.testBit_shiftRight]
  by_cases low : index < k
  · simp [low]
  · have position : k + (index - k) = index := by
      omega
    simp [low, position, Nat.not_lt.mp low]

end Words

section Submasks

variable {m : Nat}

/-- Every number up to a mask of low bits fits into it. -/
theorem and_mask_eq_self
    {k index : Nat}
    (below : index < 2 ^ k) :
    index &&& (2 ^ k - 1) = index := by
  rw [Nat.and_two_pow_sub_one_eq_mod, Nat.mod_eq_of_lt below]

/-- A mask into which all smaller numbers fit has low bits only. -/
theorem isPowerOfTwo_of_submasks
    (submasks : ∀ index ≤ m, index &&& m = index) :
    (m + 1).isPowerOfTwo := by
  by_cases isZero : m = 0
  · exact ⟨0, by rw [isZero]⟩
  · have lower := Nat.pow_log_le_self 2 isZero
    have upper := Nat.lt_pow_succ_log_self (by decide : 1 < 2) m
    have positive := Nat.two_pow_pos (Nat.log 2 m)
    have low := submasks (2 ^ Nat.log 2 m - 1) (by omega)
    rw [Nat.and_comm, Nat.and_two_pow_sub_one_eq_mod,
      Nat.mod_eq_sub_mod lower] at low
    rw [Nat.pow_succ] at upper
    rw [Nat.mod_eq_of_lt (by omega)] at low
    exact ⟨Nat.log 2 m + 1, by rw [Nat.pow_succ]; omega⟩

end Submasks

section Multiples

variable {q n : Nat}

/-- The multiples of a number from another one on. -/
def multiplesFrom (q n : Nat) : Set Nat :=
  {multiple | q ∣ multiple ∧ n ≤ multiple}

/-- The multiples of a number up to another one. -/
def multiplesUpTo (q n : Nat) : Set Nat :=
  {multiple | q ∣ multiple ∧ multiple ≤ n}

/-- The greatest multiple that is not above a number. -/
theorem isGreatest_multiple
    (positive : 0 < q)
    (n : Nat) :
    IsGreatest (multiplesUpTo q n) (n / q * q) := by
  refine ⟨⟨Nat.dvd_mul_left q _, Nat.div_mul_le_self n q⟩, ?_⟩
  intro multiple isMultiple
  obtain ⟨⟨factor, rfl⟩, atMost⟩ := isMultiple
  rw [Nat.mul_comm q factor] at atMost ⊢
  exact Nat.mul_le_mul_right q
    ((Nat.le_div_iff_mul_le positive).mpr atMost)

/-- The least multiple that is not below a number. -/
theorem isLeast_multiple
    (positive : 0 < q)
    (n : Nat) :
    IsLeast (multiplesFrom q n) ((n + (q - 1)) / q * q) := by
  have above := Nat.lt_div_mul_add positive (a := n + (q - 1))
  refine ⟨⟨Nat.dvd_mul_left q _, by omega⟩, ?_⟩
  intro multiple isMultiple
  obtain ⟨⟨factor, rfl⟩, atLeast⟩ := isMultiple
  rw [Nat.mul_comm q factor] at atLeast ⊢
  apply Nat.mul_le_mul_right
  rw [← Nat.lt_succ_iff, Nat.div_lt_iff_lt_mul positive, Nat.succ_mul]
  omega

/-- The least multiple from a number on is the one below it or the next one. -/
theorem least_multiple_eq
    (positive : 0 < q)
    (n : Nat) :
    (n + (q - 1)) / q * q = n / q * q ∨
      (n + (q - 1)) / q * q = n / q * q + q := by
  have lower : n / q ≤ (n + (q - 1)) / q :=
    Nat.div_le_div_right (by omega)
  have upper : (n + (q - 1)) / q ≤ (n + q) / q :=
    Nat.div_le_div_right (by omega)
  rw [Nat.add_div_right n positive] at upper
  rcases Nat.eq_or_lt_of_le lower with same | more
  · exact .inl (by rw [← same])
  · have next : (n + (q - 1)) / q = n / q + 1 := by
      omega
    exact .inr (by rw [next, Nat.succ_mul])

/-- The multiple below a remainder is the remainder of the multiple below. -/
theorem mod_div_mul
    {modulus : Nat}
    (divides : q ∣ modulus)
    (n : Nat) :
    n % modulus / q * q = n / q * q % modulus := by
  obtain ⟨parts, rfl⟩ := divides
  rw [Nat.mod_mul_right_div_self, Nat.mul_comm q parts,
    Nat.mul_mod_mul_right]

end Multiples

end LibKern.Masks
