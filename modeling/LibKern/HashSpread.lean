import LibKern.HashValues
import LibKern.TopBits

namespace LibKern.Hash

/-!
# Integers are spread evenly

The primes of `hash_64` and `hash_32` have inverses, so a multiplication by one
of them only permutes the values.  Every hash is therefore the hash of equally
many values.  With no bits at all, or with more bits than the type has, the last
shift is undefined.
-/

/-- `GOLDEN_RATIO_PRIME_32` as a number of 32 bits. -/
def goldenRatioFactor32 : BitVec 32 :=
  0x9e370001

/-- The inverse of `GOLDEN_RATIO_PRIME_32` modulo `2 ^ 32`. -/
def goldenRatioInverse32 : BitVec 32 :=
  0x61c90001

theorem goldenRatioFactor32_mul_inverse :
    goldenRatioFactor32 * goldenRatioInverse32 = 1 := by
  decide

/-- The upper half of the product of `hash_32` does not matter. -/
theorem hash32_eq (val bits : BitVec 32) :
    hash32 val bits =
      if (32 - bits).toNat < 32 then
        some ((val * goldenRatioFactor32) >>> (32 - bits).toNat)
      else
        none := by
  have product :
      (val.setWidth 64 * goldenRatioPrime32).setWidth 32 =
        val * goldenRatioFactor32 := by
    rw [BitVec.setWidth_mul _ _ (by decide),
      BitVec.setWidth_setWidth_of_le _ (by decide), BitVec.setWidth_eq]
    rfl
  rw [hash32, product]

/-- The shift at the end is defined for these numbers of bits. -/
theorem shift_lt_iff
    {width : Nat}
    (bits : BitVec 32)
    (positive : 0 < width)
    (small : width < 2 ^ 31) :
    (BitVec.ofNat 32 width - bits).toNat < width ↔
      1 ≤ bits.toNat ∧ bits.toNat ≤ width := by
  have below := bits.isLt
  rw [BitVec.toNat_sub, BitVec.toNat_ofNat,
    Nat.mod_eq_of_lt (by omega : width < 2 ^ 32)]
  by_cases atMost : bits.toNat ≤ width
  · have wraps :
        2 ^ 32 - bits.toNat + width = (width - bits.toNat) + 2 ^ 32 := by
      omega
    rw [wraps, Nat.add_mod_right, Nat.mod_eq_of_lt (by omega)]
    omega
  · rw [Nat.mod_eq_of_lt (by omega)]
    omega

/-- What a multiplication and a shift do to the values of a type. -/
theorem card_shifted_product
    {width : Nat}
    {multiplier inverse hash : BitVec width}
    {bits : Nat}
    (cancels : multiplier * inverse = 1)
    (atMost : bits ≤ width)
    (inside : hash.toNat < 2 ^ bits) :
    Nat.card
        {val : BitVec width //
          some ((val * multiplier) >>> (width - bits)) = some hash} =
      2 ^ (width - bits) := by
  have whole :
      (hash.toNat + 1) * 2 ^ (width - bits) ≤ 2 ^ width := by
    calc (hash.toNat + 1) * 2 ^ (width - bits)
        ≤ 2 ^ bits * 2 ^ (width - bits) :=
          Nat.mul_le_mul_right _ inside
      _ = 2 ^ width := by
          rw [← Nat.pow_add, Nat.add_sub_cancel' atMost]
  rw [← TopBits.card_mul_top cancels whole]
  apply Nat.card_congr
  refine Equiv.subtypeEquivRight ?_
  intro val
  rw [Option.some.injEq, ← BitVec.toNat_inj, BitVec.toNat_ushiftRight,
    Nat.shiftRight_eq_div_pow]

/--
Every hash of this many bits belongs to equally many values, both of `hash_ptr`,
which is `hash_64`, and of `hash_32`.  Both are defined exactly for numbers of
bits from one to the width of the type.
-/
theorem integer_hashes_are_spread_evenly :
    (∀ (bits : BitVec 32) (hash : Word),
      1 ≤ bits.toNat →
      bits.toNat ≤ 64 →
      hash.toNat < 2 ^ bits.toNat →
      Nat.card {ptr : Word // hashPtr ptr bits = some hash} =
        2 ^ (64 - bits.toNat)) ∧
      (∀ (bits hash : BitVec 32),
        1 ≤ bits.toNat →
        bits.toNat ≤ 32 →
        hash.toNat < 2 ^ bits.toNat →
        Nat.card {val : BitVec 32 // hash32 val bits = some hash} =
          2 ^ (32 - bits.toNat)) ∧
      ∀ (ptr : Word) (val bits : BitVec 32),
        ((hashPtr ptr bits).isSome = true ↔
          1 ≤ bits.toNat ∧ bits.toNat ≤ 64) ∧
          ((hash32 val bits).isSome = true ↔
            1 ≤ bits.toNat ∧ bits.toNat ≤ 32) := by
  refine ⟨?_, ?_, ?_⟩
  · intro bits hash positive atMost inside
    have isShift := toNat_sub_bits atMost
    have defined : 64 - bits.toNat < 64 := by
      omega
    simp only [hashPtr, hashLong, hash64_eq, defined, ↓reduceIte, isShift]
    exact card_shifted_product goldenRatioPrime64_mul_inverse atMost inside
  · intro bits hash positive atMost inside
    have isShift : (32 - bits).toNat = 32 - bits.toNat := by
      apply BitVec.toNat_sub_of_le
      rw [BitVec.le_def]
      exact atMost
    have defined : 32 - bits.toNat < 32 := by
      omega
    simp only [hash32_eq, defined, ↓reduceIte, isShift]
    exact card_shifted_product goldenRatioFactor32_mul_inverse atMost
      inside
  · intro ptr val bits
    constructor
    · rw [hashPtr, hashLong, hash64_eq,
        ← shift_lt_iff bits (by decide) (by decide)]
      simp
    · rw [hash32_eq, ← shift_lt_iff bits (by decide) (by decide)]
      simp

/-- A hash of four bits belongs to a sixteenth of the values. -/
theorem integer_hashes_are_spread_evenly_of_sample :
    Nat.card {val : BitVec 32 // hash32 val 4 = some 7} = 2 ^ 28 :=
  integer_hashes_are_spread_evenly.2.1 4 7 (by decide) (by decide)
    (by decide)

end LibKern.Hash
