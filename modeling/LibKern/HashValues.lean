import LibKern.HashSource
import Mathlib.Algebra.Group.Units.Equiv
import Mathlib.Data.BitVec
import Mathlib.Tactic.Ring

namespace LibKern.Hash

/-!
# Hashing by multiplication

The shifts and additions of `hash_64` multiply by a prime in the golden ratio.
The prime has an inverse modulo `2 ^ 64`, so the multiplication is injective, and
the shift at the end keeps the highest bits of the product.
-/

/-- The inverse of `GOLDEN_RATIO_PRIME_64` modulo `2 ^ 64`. -/
def goldenRatioInverse64 : BitVec 64 :=
  0x6208001000040001

/-- The prime as a sum of powers of two, in the order of the shifts. -/
theorem goldenRatioPrime64_eq :
    goldenRatioPrime64 =
      1 - .twoPow 64 18 - .twoPow 64 51 + .twoPow 64 54 -
          .twoPow 64 57 + .twoPow 64 61 + .twoPow 64 63 := by
  decide

theorem goldenRatioPrime64_mul_inverse :
    goldenRatioPrime64 * goldenRatioInverse64 = 1 := by
  decide

/-- Multiplying by the prime is injective. -/
theorem mul_goldenRatioPrime64_injective :
    Function.Injective fun val => val * goldenRatioPrime64 :=
  (Units.mkOfMulEqOne _ _ goldenRatioPrime64_mul_inverse).mulRight.injective

/-- The running value of `hash_64` before the last shift. -/
theorem hash64_eq (val : BitVec 64) (bits : BitVec 32) :
    hash64 val bits =
      if (64 - bits).toNat < 64 then
        some ((val * goldenRatioPrime64) >>> (64 - bits).toNat)
      else
        none := by
  have product :
      val - val <<< 18 - val <<< 18 <<< 33 + val <<< 18 <<< 33 <<< 3 -
            val <<< 18 <<< 33 <<< 3 <<< 3 +
          val <<< 18 <<< 33 <<< 3 <<< 3 <<< 4 +
        val <<< 18 <<< 33 <<< 3 <<< 3 <<< 4 <<< 2 =
      val * goldenRatioPrime64 := by
    simp only [← BitVec.shiftLeft_add]
    rw [goldenRatioPrime64_eq]
    simp only [BitVec.shiftLeft_eq_mul_twoPow]
    ring
  rw [hash64, ← product]

/-- A shift by the bits that are not wanted. -/
theorem toNat_sub_bits
    {bits : BitVec 32}
    (atMost : bits.toNat ≤ 64) :
    (64 - bits).toNat = 64 - bits.toNat := by
  apply BitVec.toNat_sub_of_le
  rw [BitVec.le_def]
  exact atMost

/--
`hash_64` multiplies by the prime and keeps the highest bits of the product.  All
bits together determine the value.
-/
theorem hash64_is_multiplicative :
    (∀ (val : BitVec 64) (bits : BitVec 32),
      1 ≤ bits.toNat →
      bits.toNat ≤ 64 →
      ∃ hash,
        hash64 val bits = some hash ∧
          hash.toNat =
            (val.toNat * 0x9e37fffffffc0001 % 2 ^ 64) >>>
              (64 - bits.toNat) ∧
          hash.toNat < 2 ^ bits.toNat) ∧
      Function.Injective fun val => hash64 val 64 := by
  constructor
  · intro val bits positive atMost
    have isShift := toNat_sub_bits atMost
    have isHash :
        ((val * goldenRatioPrime64) >>> (64 - bits).toNat).toNat =
          (val.toNat * 0x9e37fffffffc0001 % 2 ^ 64) >>>
            (64 - bits.toNat) := by
      rw [BitVec.toNat_ushiftRight, BitVec.toNat_mul, isShift]
      rfl
    refine ⟨_, by rw [hash64_eq, if_pos (by omega)], isHash, ?_⟩
    rw [isHash, Nat.shiftRight_eq_div_pow]
    apply Nat.div_lt_of_lt_mul
    rw [← Nat.pow_add, Nat.sub_add_cancel atMost]
    exact Nat.mod_lt _ (by decide)
  · intro val other same
    apply mul_goldenRatioPrime64_injective
    simp only [hash64_eq] at same
    have noShift : (64 - (64 : BitVec 32)).toNat = 0 := rfl
    rw [noShift, if_pos (by decide), if_pos (by decide),
      Option.some.injEq, BitVec.ushiftRight_zero,
      BitVec.ushiftRight_zero] at same
    exact same

end LibKern.Hash
