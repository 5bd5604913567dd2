import LibKern.Log2Values

namespace LibKern.Log2

/-!
# Orders of 32-bit numbers

The functions of `bitops.h` for the order of a count go by `fls`, which finds
the highest set bit.  So they are right at run time, unlike those that go by
`fls64`, and so is the branch of `ilog2` for arguments of 32 bits.
-/

open Bitmap

variable {n : BitVec 32}

/-- The functions at run time compute what the branches for constants do. -/
structure OrdersAgree (n : BitVec 32) : Prop where
  logarithm :
    Macro.ilog2 false 4 (n.setWidth 64) =
      Macro.ilog2 true 4 (n.setWidth 64)
  bitmaskOrder :
    Macro.ilog2 true 4 (n.setWidth 64) =
      some ((getBitmaskOrder n : Int) - 1)
  countOrder :
    Macro.orderBase2 true (n.setWidth 64) = some (getCountOrder n)
  rounded :
    Macro.roundupPowOfTwo true (n.setWidth 64) =
      shiftOne (getCountOrder n)

theorem toNat_ne_zero_of_ne (nonzero : n ≠ 0) : n.toNat ≠ 0 :=
  fun isZero => nonzero (BitVec.eq_of_toNat_eq isZero)

/-- `fls` is one more than the logarithm. -/
theorem fls_eq_log_succ (nonzero : n ≠ 0) :
    fls n = Nat.log 2 n.toNat + 1 := by
  have positive := toNat_ne_zero_of_ne nonzero
  rw [fls_eq_size]
  apply le_antisymm
  · rw [Nat.size_le]
    exact Nat.lt_pow_succ_log_self (by decide) _
  · rw [Nat.succ_le_iff, Nat.lt_size]
    exact Nat.pow_log_le_self 2 positive

/-- A number that is no power of two is rounded up to the next one. -/
theorem clog_eq_log_succ_of_not_power
    {number : Nat}
    (nonzero : number ≠ 0)
    (noPower : ¬number.isPowerOfTwo) :
    Nat.clog 2 number = Nat.log 2 number + 1 := by
  have below := Nat.lt_pow_succ_log_self (by decide : 1 < 2) number
  have atMost := Nat.pow_log_le_self 2 nonzero
  apply le_antisymm
  · exact Nat.clog_le_of_le_pow below.le
  · rw [Nat.succ_le_iff, Nat.lt_clog_iff_pow_lt (by decide)]
    exact lt_of_le_of_ne atMost fun same => noPower ⟨_, same.symm⟩

/-- The test of `get_count_order` recognises the powers of two. -/
theorem and_sub_one_eq_zero_iff (nonzero : n ≠ 0) :
    n &&& (n - 1) = 0 ↔ n.toNat.isPowerOfTwo := by
  have positive := toNat_ne_zero_of_ne nonzero
  have before : (n - 1).toNat = n.toNat - 1 := by
    apply BitVec.toNat_sub_of_le
    rw [BitVec.le_def]
    exact Nat.one_le_iff_ne_zero.mpr positive
  rw [← Nat.and_sub_one_eq_zero_iff_isPowerOfTwo positive, ← before,
    ← BitVec.toNat_and, ← BitVec.toNat_inj]
  rfl

/-- `get_count_order` is the logarithm, rounded up. -/
theorem getCountOrder_eq (nonzero : n ≠ 0) :
    getCountOrder n = Nat.clog 2 n.toNat := by
  have positive := toNat_ne_zero_of_ne nonzero
  rw [getCountOrder, fls_eq_log_succ nonzero]
  by_cases isPower : n.toNat.isPowerOfTwo
  · rw [if_neg (not_not.mpr ((and_sub_one_eq_zero_iff nonzero).mpr
      isPower))]
    obtain ⟨k, isPower⟩ := isPower
    rw [isPower, Nat.log_pow (by decide), Nat.clog_pow _ _ (by decide)]
    omega
  · rw [if_pos ((and_sub_one_eq_zero_iff nonzero).not.mpr isPower),
      clog_eq_log_succ_of_not_power positive isPower]
    omega

/-- The logarithm at run time of a number of 32 bits. -/
theorem ilog2U32_eq (nonzero : n ≠ 0) :
    ilog2U32 n = Nat.log 2 n.toNat := by
  rw [ilog2U32, fls_eq_log_succ nonzero]
  omega

/--
The orders at run time are those of the constants for all numbers of 32 bits
but 0, whose logarithm is not defined.
-/
theorem runtime_orders_agree_iff (n : BitVec 32) :
    OrdersAgree n ↔ n ≠ 0 := by
  constructor
  · intro agree isZero
    have undefined := agree.logarithm
    rw [isZero] at undefined
    exact absurd undefined (by decide)
  · intro nonzero
    have sameNumber : (n.setWidth 64).toNat = n.toNat := by
      rw [BitVec.toNat_setWidth]
      have bound := n.isLt
      omega
    have wideNonzero : n.setWidth 64 ≠ 0 := by
      intro isZero
      rw [isZero] at sameNumber
      exact nonzero (BitVec.eq_of_toNat_eq sameNumber.symm)
    have constant :
        Macro.ilog2 true 4 (n.setWidth 64) =
          some (Nat.log 2 n.toNat : Int) := by
      rw [← sameNumber]
      exact ilog2_constant wideNonzero
    refine
      { logarithm := ?_
        bitmaskOrder := ?_
        countOrder := ?_
        rounded := ?_ }
    · have narrow : (n.setWidth 64).setWidth 32 = n := by
        simp
      rw [constant, ← ilog2U32_eq nonzero]
      simp [Macro.ilog2, narrow]
    · rw [constant, getBitmaskOrder, fls_eq_log_succ nonzero]
      simp
    · rw [getCountOrder_eq nonzero, ← sameNumber]
      refine (orderBase2_constant_iff wideNonzero).mpr ?_
      have bound := n.isLt
      omega
    · rw [getCountOrder_eq nonzero, ← sameNumber]
      exact roundup_constant wideNonzero

end LibKern.Log2
