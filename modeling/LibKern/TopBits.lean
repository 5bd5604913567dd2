import Mathlib.Algebra.Group.Units.Equiv
import Mathlib.Data.BitVec
import Mathlib.SetTheory.Cardinal.Finite

namespace LibKern.TopBits

/-!
# The highest bits of a product

Equally many values have the same highest bits.  A multiplication by a number
that has an inverse permutes the values, so this is also true for the highest
bits of the product.
-/

variable {width low top : Nat}

/-- The values with given highest bits are numbered by their other bits. -/
def equivLow
    (inside : (top + 1) * 2 ^ low ≤ 2 ^ width) :
    {value : BitVec width // value.toNat / 2 ^ low = top} ≃
      Fin (2 ^ low) where
  toFun value := ⟨value.1.toNat % 2 ^ low, Nat.mod_lt _ (Nat.two_pow_pos low)⟩
  invFun rest :=
    ⟨BitVec.ofNat width (top * 2 ^ low + rest), by
      have below := rest.isLt
      rw [Nat.succ_mul] at inside
      rw [BitVec.toNat_ofNat, Nat.mod_eq_of_lt (by omega), mul_comm,
        Nat.mul_add_div (Nat.two_pow_pos low), Nat.div_eq_of_lt below,
        Nat.add_zero]⟩
  left_inv value := by
    obtain ⟨value, rfl⟩ := value
    apply Subtype.ext
    apply BitVec.eq_of_toNat_eq
    rw [BitVec.toNat_ofNat, mul_comm, Nat.div_add_mod,
      Nat.mod_eq_of_lt value.isLt]
  right_inv rest := by
    have below := rest.isLt
    have whole : top * 2 ^ low + rest < 2 ^ width := by
      rw [Nat.succ_mul] at inside
      omega
    apply Fin.ext
    simp only [BitVec.toNat_ofNat]
    rw [Nat.mod_eq_of_lt whole, mul_comm, Nat.mul_add_mod,
      Nat.mod_eq_of_lt below]

/-- Equally many values have a product with these highest bits. -/
theorem card_mul_top
    {multiplier inverse : BitVec width}
    (cancels : multiplier * inverse = 1)
    (inside : (top + 1) * 2 ^ low ≤ 2 ^ width) :
    Nat.card
        {value : BitVec width //
          (value * multiplier).toNat / 2 ^ low = top} =
      2 ^ low := by
  have permuted :
      {value : BitVec width //
          (value * multiplier).toNat / 2 ^ low = top} ≃
        {value : BitVec width // value.toNat / 2 ^ low = top} :=
    (Units.mkOfMulEqOne _ _ cancels).mulRight.subtypeEquiv fun _ =>
      Iff.rfl
  rw [Nat.card_congr (permuted.trans (equivLow inside)), Nat.card_fin]

end LibKern.TopBits
