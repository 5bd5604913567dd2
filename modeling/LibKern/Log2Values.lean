import LibKern.BitScan
import LibKern.Log2Source
import Mathlib.Data.Nat.Log
import Mathlib.Order.Bounds.Basic

namespace LibKern.Log2

/-!
# Values of the logarithms and powers of two

The ladder of `ilog2` finds the highest set bit.  The functions that run when the
argument is not a constant look for the lowest one instead, so they are right
for powers of two only.
-/

open Bitmap

section Powers

variable {n : Nat}

/-- The powers of two from a number on. -/
def powersFrom (n : Nat) : Set Nat :=
  {power | power.isPowerOfTwo ∧ n ≤ power}

/-- The powers of two up to a number. -/
def powersUpTo (n : Nat) : Set Nat :=
  {power | power.isPowerOfTwo ∧ power ≤ n}

/-- The least power of two that is not below a number. -/
theorem isLeast_pow_clog (n : Nat) :
    IsLeast (powersFrom n) (2 ^ Nat.clog 2 n) := by
  refine ⟨⟨⟨_, rfl⟩, Nat.le_pow_clog (by decide) n⟩, ?_⟩
  intro power isPower
  obtain ⟨⟨k, rfl⟩, atLeast⟩ := isPower
  apply Nat.pow_le_pow_right (by decide)
  exact Nat.clog_le_of_le_pow atLeast

/-- The greatest power of two that is not above a number. -/
theorem isGreatest_pow_log (nonzero : n ≠ 0) :
    IsGreatest (powersUpTo n) (2 ^ Nat.log 2 n) := by
  refine ⟨⟨⟨_, rfl⟩, Nat.pow_log_le_self 2 nonzero⟩, ?_⟩
  intro power isPower
  obtain ⟨⟨k, rfl⟩, atMost⟩ := isPower
  apply Nat.pow_le_pow_right (by decide)
  exact Nat.le_log_of_pow_le (by decide) atMost

/-- Rounding up goes over the logarithm of the number before. -/
theorem clog_eq_log_succ (large : 2 ≤ n) :
    Nat.clog 2 n = Nat.log 2 (n - 1) + 1 := by
  apply le_antisymm
  · apply Nat.clog_le_of_le_pow
    have below := Nat.lt_pow_succ_log_self (by decide : 1 < 2) (n - 1)
    omega
  · rw [Nat.succ_le_iff, Nat.lt_clog_iff_pow_lt (by decide)]
    have atMost := Nat.pow_log_le_self 2 (by omega : n - 1 ≠ 0)
    omega

end Powers

section Ladder

variable {n : BitVec 64}

/-- A word that is not zero is a number that is not zero. -/
theorem toNat_ne_zero (nonzero : n ≠ 0) : n.toNat ≠ 0 := by
  intro isZero
  exact nonzero (BitVec.eq_of_toNat_eq isZero)

/-- A set bit is a lower bound. -/
theorem two_pow_le_of_bit
    {bit : Nat}
    (isSet : n.getLsbD bit = true) :
    2 ^ bit ≤ n.toNat := by
  by_contra small
  have isClear := Nat.testBit_lt_two_pow (Nat.lt_of_not_le small)
  rw [BitVec.testBit_toNat, isSet] at isClear
  exact absurd isClear (by simp)

/-- The ladder finds the highest set bit. -/
theorem ilog2Ladder_eq
    {bits : Nat}
    (nonzero : n ≠ 0)
    (atMost : bits ≤ 64)
    (below : n.toNat < 2 ^ bits) :
    Macro.ilog2Ladder n bits = some (Nat.log 2 n.toNat : Int) := by
  induction bits with
  | zero =>
      have positive := toNat_ne_zero nonzero
      rw [Nat.pow_zero] at below
      omega
  | succ bit inductionHypothesis =>
      rw [Macro.ilog2Ladder]
      split
      · rename_i isSet
        rw [and_singleBit_ne_zero_iff (by omega)] at isSet
        rw [Nat.log_eq_of_pow_le_of_lt_pow (two_pow_le_of_bit isSet)
          below]
      · rename_i isClear
        apply inductionHypothesis (by omega)
        by_contra large
        apply isClear
        rw [and_singleBit_ne_zero_iff (by omega), ← BitVec.testBit_toNat]
        exact Nat.testBit_of_two_pow_le_and_two_pow_add_one_gt
          (by omega) below

/-- The logarithm of a constant. -/
theorem ilog2_constant (nonzero : n ≠ 0) :
    Macro.ilog2 true 8 n = some (Nat.log 2 n.toNat : Int) := by
  have positive := toNat_ne_zero nonzero
  rw [Macro.ilog2, if_pos rfl, if_neg (by omega)]
  exact ilog2Ladder_eq nonzero le_rfl n.isLt

/-- The logarithm of a word is a number of a bit. -/
theorem log_lt (n : BitVec 64) : Nat.log 2 n.toNat < 64 := by
  by_cases isZero : n.toNat = 0
  · rw [isZero, Nat.log_zero_right]
    decide
  · exact Nat.log_lt_of_lt_pow isZero n.isLt

end Ladder

section Bits

variable {n : BitVec 64}

/-- The lowest set bit is not above the highest one. -/
theorem ffs_le_log (nonzero : n ≠ 0) : ffs n ≤ Nat.log 2 n.toNat := by
  obtain ⟨-, isSet, -⟩ := ffs_spec nonzero
  exact Nat.le_log_of_pow_le (by decide) (two_pow_le_of_bit isSet)

/-- The lowest set bit of a power of two is its only one. -/
theorem ffs_eq_log_iff (nonzero : n ≠ 0) :
    ffs n = Nat.log 2 n.toNat ↔ n.toNat.isPowerOfTwo := by
  obtain ⟨inside, isSet, isClear⟩ := ffs_spec nonzero
  constructor
  · intro same
    refine ⟨ffs n, ?_⟩
    apply Nat.eq_of_testBit_eq
    intro bit
    rw [Nat.testBit_two_pow, BitVec.testBit_toNat]
    rcases lt_trichotomy bit (ffs n) with isBelow | rfl | isAbove
    · rw [isClear bit isBelow]
      simp [Nat.ne_of_gt isBelow]
    · rw [isSet]
      simp
    · have isAboveAll : n.toNat < 2 ^ bit := by
        apply (Nat.lt_pow_succ_log_self (by decide : 1 < 2) _).trans_le
        apply Nat.pow_le_pow_right (by decide)
        omega
      rw [← BitVec.testBit_toNat, Nat.testBit_lt_two_pow isAboveAll]
      simp [Nat.ne_of_lt isAbove]
  · intro isPower
    obtain ⟨k, isPower⟩ := isPower
    rw [isPower, Nat.log_pow (by decide)]
    rw [← BitVec.testBit_toNat, isPower, Nat.testBit_two_pow,
      decide_eq_true_iff] at isSet
    exact isSet.symm

/-- The number before a number that is not zero. -/
theorem toNat_sub_one (nonzero : n ≠ 0) :
    (n - 1).toNat = n.toNat - 1 := by
  apply BitVec.toNat_sub_of_le
  rw [BitVec.le_def]
  exact Nat.one_le_iff_ne_zero.mpr (toNat_ne_zero nonzero)

/-- `is_power_of_2` recognises the powers of two. -/
theorem isPowerOf2_iff (n : BitVec 64) :
    isPowerOf2 n = true ↔ n.toNat.isPowerOfTwo := by
  rw [isPowerOf2, decide_eq_true_iff,
    ← Nat.ne_zero_and_sub_one_eq_zero_iff_isPowerOfTwo]
  by_cases isZero : n = 0
  · simp [isZero]
  · rw [and_iff_right isZero, and_iff_right (toNat_ne_zero isZero),
      ← toNat_sub_one isZero, ← BitVec.toNat_and, ← BitVec.toNat_inj]
    rfl

/-- The run-time logarithm is the position of the lowest set bit. -/
theorem ilog2U64_eq (nonzero : n ≠ 0) : ilog2U64 n = ffs n := by
  rw [ilog2U64, fls64, if_neg nonzero]
  omega

end Bits

section Shifts

/-- A shift that is defined. -/
theorem shiftOne_eq
    {count : Nat}
    (inside : count < 64) :
    shiftOne count = some (BitVec.twoPow 64 count) := by
  rw [shiftOne, if_pos (by omega), Int.toNat_natCast, BitVec.twoPow_eq]
  rfl

/-- A shift that is not defined. -/
theorem shiftOne_eq_none
    {count : Nat}
    (outside : 64 ≤ count) :
    shiftOne count = none := by
  rw [shiftOne, if_neg (by omega)]

/-- The value of a shift. -/
theorem toNat_twoPow
    {count : Nat}
    (inside : count < 64) :
    (BitVec.twoPow 64 count).toNat = 2 ^ count := by
  rw [BitVec.toNat_twoPow, Nat.mod_eq_of_lt]
  exact Nat.pow_lt_pow_right (by decide) inside

/-- Different shifts have different values. -/
theorem shiftOne_inj
    {count other : Nat}
    (inside : count < 64)
    (otherInside : other < 64) :
    shiftOne count = shiftOne other ↔ count = other := by
  rw [shiftOne_eq inside, shiftOne_eq otherInside, Option.some.injEq,
    ← BitVec.toNat_inj, toNat_twoPow inside, toNat_twoPow otherInside]
  exact Nat.pow_right_inj (by decide)

end Shifts

section Rounding

variable {n : BitVec 64}

/-- A number that is at least 2 is not 0 or 1, and there is one before. -/
theorem of_two_le (large : 2 ≤ n.toNat) :
    n ≠ 0 ∧ n ≠ 1 ∧ n - 1 ≠ 0 := by
  have nonzero : n ≠ 0 := by
    intro isZero
    rw [isZero] at large
    exact absurd large (by decide)
  have notOne : n ≠ 1 := by
    intro isOne
    rw [isOne] at large
    exact absurd large (by decide)
  refine ⟨nonzero, notOne, ?_⟩
  intro isZero
  have before : 0 = n.toNat - 1 := by
    rw [← toNat_sub_one nonzero, isZero]
    rfl
  omega

/-- Rounding a constant up. -/
theorem roundup_constant (nonzero : n ≠ 0) :
    Macro.roundupPowOfTwo true n = shiftOne (Nat.clog 2 n.toNat) := by
  rw [Macro.roundupPowOfTwo, if_pos rfl]
  split
  · rename_i isOne
    rw [isOne]
    rfl
  · rename_i notOne
    have positive := toNat_ne_zero nonzero
    have large : 2 ≤ n.toNat := by
      have different : n.toNat ≠ 1 := fun same =>
        notOne (BitVec.eq_of_toNat_eq same)
      omega
    obtain ⟨-, -, before⟩ := of_two_le large
    rw [ilog2_constant before, toNat_sub_one nonzero,
      clog_eq_log_succ large]
    rfl

/-- Rounding a constant other than 1 down. -/
theorem rounddown_constant
    (nonzero : n ≠ 0)
    (notOne : n ≠ 1) :
    Macro.rounddownPowOfTwo true n = shiftOne (Nat.log 2 n.toNat) := by
  rw [Macro.rounddownPowOfTwo, if_pos rfl, if_neg notOne,
    ilog2_constant nonzero]
  rfl

/-- Rounding up at run time goes by the lowest set bit. -/
theorem roundupPowOfTwo_eq (nonzero : n - 1 ≠ 0) :
    roundupPowOfTwo n = shiftOne (ffs (n - 1) + 1 : Nat) := by
  rw [roundupPowOfTwo, flsLong, fls64, if_neg nonzero]

/-- Rounding down at run time goes by the lowest set bit. -/
theorem rounddownPowOfTwo_eq (nonzero : n ≠ 0) :
    rounddownPowOfTwo n = shiftOne (ffs n) := by
  obtain ⟨inside, -⟩ := ffs_spec nonzero
  have isPosition : (BitVec.ofNat 32 (ffs n + 1) - 1).toNat = ffs n := by
    have one : (1 : BitVec 32).toNat = 1 := rfl
    rw [BitVec.toNat_sub, BitVec.toNat_ofNat, one]
    omega
  rw [rounddownPowOfTwo, flsLong, fls64, if_neg nonzero, isPosition]

/-- The result is defined and is the least power of two from `n` on. -/
def IsRoundedUp (n : BitVec 64) (result : Option (BitVec 64)) : Prop :=
  ∃ value,
    result = some value ∧ IsLeast (powersFrom n.toNat) value.toNat

/-- The result is defined and is the greatest power of two up to `n`. -/
def IsRoundedDown (n : BitVec 64) (result : Option (BitVec 64)) : Prop :=
  ∃ value,
    result = some value ∧ IsGreatest (powersUpTo n.toNat) value.toNat

/-- A power of two that rounds up to at most half of the words. -/
theorem clog_lt (atMost : n.toNat ≤ 2 ^ 63) :
    Nat.clog 2 n.toNat < 64 := by
  have bound := Nat.clog_le_of_le_pow atMost
  omega

/-- A shift by the rounded up logarithm rounds up. -/
theorem isRoundedUp_shiftOne (atMost : n.toNat ≤ 2 ^ 63) :
    IsRoundedUp n (shiftOne (Nat.clog 2 n.toNat)) := by
  have inside := clog_lt atMost
  refine ⟨_, shiftOne_eq inside, ?_⟩
  rw [toNat_twoPow inside]
  exact isLeast_pow_clog n.toNat

/-- A shift by the logarithm rounds down. -/
theorem isRoundedDown_shiftOne (nonzero : n ≠ 0) :
    IsRoundedDown n (shiftOne (Nat.log 2 n.toNat)) := by
  have inside := log_lt n
  refine ⟨_, shiftOne_eq inside, ?_⟩
  rw [toNat_twoPow inside]
  exact isGreatest_pow_log (toNat_ne_zero nonzero)

end Rounding

section Runtime

/-- The run-time logarithm is the one of a constant, and it is right. -/
def IlogAgrees (n : BitVec 64) : Prop :=
  some (ilog2U64 n) = Macro.ilog2 true 8 n ∧
    ilog2U64 n = Nat.log 2 n.toNat

/-- Rounding up at run time is rounding a constant up, and it is right. -/
def RoundupAgrees (n : BitVec 64) : Prop :=
  roundupPowOfTwo n = Macro.roundupPowOfTwo true n ∧
    IsRoundedUp n (roundupPowOfTwo n)

/-- Rounding down at run time is rounding a constant down, and it is right. -/
def RounddownAgrees (n : BitVec 64) : Prop :=
  rounddownPowOfTwo n = Macro.rounddownPowOfTwo true n ∧
    IsRoundedDown n (rounddownPowOfTwo n)

variable {n : BitVec 64}

/-- A result that agrees with one that is right is right. -/
theorem agrees_iff
    {right : Option (BitVec 64) → Prop}
    {result constant : Option (BitVec 64)}
    {condition : Prop}
    (same : result = constant ↔ condition)
    (isRight : right constant) :
    result = constant ∧ right result ↔ condition := by
  rw [← same]
  constructor
  · intro agrees
    exact agrees.1
  · intro agrees
    refine ⟨agrees, ?_⟩
    rw [agrees]
    exact isRight

theorem ilogAgrees_iff (nonzero : n ≠ 0) :
    IlogAgrees n ↔ isPowerOf2 n = true := by
  rw [IlogAgrees, ilog2_constant nonzero, Option.some.injEq, and_self,
    ilog2U64_eq nonzero, Int.natCast_inj, ffs_eq_log_iff nonzero,
    isPowerOf2_iff]

theorem roundupAgrees_iff
    (large : 2 ≤ n.toNat)
    (atMost : n.toNat ≤ 2 ^ 63) :
    RoundupAgrees n ↔ isPowerOf2 (n - 1) = true := by
  obtain ⟨nonzero, -, before⟩ := of_two_le large
  have inside := clog_lt atMost
  have isLog := clog_eq_log_succ large
  have lowest := ffs_le_log before
  rw [toNat_sub_one nonzero] at lowest
  rw [RoundupAgrees, roundup_constant nonzero]
  apply agrees_iff
  · rw [roundupPowOfTwo_eq before, shiftOne_inj (by omega) inside,
      isPowerOf2_iff, ← ffs_eq_log_iff before, isLog,
      toNat_sub_one nonzero, Nat.add_right_cancel_iff]
  · exact isRoundedUp_shiftOne atMost

theorem rounddownAgrees_iff (large : 2 ≤ n.toNat) :
    RounddownAgrees n ↔ isPowerOf2 n = true := by
  obtain ⟨nonzero, notOne, -⟩ := of_two_le large
  obtain ⟨inside, -⟩ := ffs_spec nonzero
  rw [RounddownAgrees, rounddown_constant nonzero notOne]
  apply agrees_iff
  · rw [rounddownPowOfTwo_eq nonzero, shiftOne_inj inside (log_lt n),
      ffs_eq_log_iff nonzero, isPowerOf2_iff]
  · exact isRoundedDown_shiftOne nonzero

/--
The functions for arguments that are not constant agree with the branches for
constants exactly where the bit that is searched is the only one.
-/
theorem runtime_agrees_iff (n : BitVec 64) :
    (1 ≤ n.toNat → (IlogAgrees n ↔ isPowerOf2 n = true)) ∧
      (2 ≤ n.toNat → n.toNat ≤ 2 ^ 63 →
        (RoundupAgrees n ↔ isPowerOf2 (n - 1) = true)) ∧
      (2 ≤ n.toNat → (RounddownAgrees n ↔ isPowerOf2 n = true)) := by
  refine ⟨?_, roundupAgrees_iff, rounddownAgrees_iff⟩
  intro positive
  apply ilogAgrees_iff
  intro isZero
  rw [isZero] at positive
  exact absurd positive (by decide)

/-- The run-time functions are wrong for small numbers already. -/
theorem runtime_disagrees :
    ¬IlogAgrees 3 ∧ ¬RoundupAgrees 4 ∧ ¬RounddownAgrees 3 := by
  refine ⟨fun agrees => ?_, fun agrees => ?_, fun agrees => ?_⟩
  · exact absurd agrees.1 (by decide)
  · exact absurd agrees.1 (by decide)
  · exact absurd agrees.1 (by decide)

end Runtime

section Constants

variable {n : BitVec 64}

/-- Rounding down the constant 1 gives 0, which is not a power of two. -/
theorem not_isRoundedDown_one :
    ¬IsRoundedDown 1 (Macro.rounddownPowOfTwo true 1) := by
  intro isRounded
  obtain ⟨value, isValue, isGreatest⟩ := isRounded
  have isZero : value = 0 := by
    have given : Macro.rounddownPowOfTwo true 1 = some 0 := by
      decide
    rw [given, Option.some.injEq] at isValue
    exact isValue.symm
  rw [isZero] at isGreatest
  exact absurd (Nat.pos_of_isPowerOfTwo isGreatest.1.1) (by decide)

theorem isRoundedUp_constant
    (nonzero : n ≠ 0)
    (atMost : n.toNat ≤ 2 ^ 63) :
    IsRoundedUp n (Macro.roundupPowOfTwo true n) := by
  rw [roundup_constant nonzero]
  exact isRoundedUp_shiftOne atMost

theorem isRoundedDown_constant_iff (nonzero : n ≠ 0) :
    IsRoundedDown n (Macro.rounddownPowOfTwo true n) ↔ n ≠ 1 := by
  constructor
  · intro isRounded isOne
    rw [isOne] at isRounded
    exact not_isRoundedDown_one isRounded
  · intro notOne
    rw [rounddown_constant nonzero notOne]
    exact isRoundedDown_shiftOne nonzero

/--
Rounding down and up gives powers of two around a number, which both are the
number itself if it is a power of two, and only then.
-/
def Brackets
    (n : BitVec 64)
    (below above : Option (BitVec 64)) : Prop :=
  ∃ down up,
    below = some down ∧ above = some up ∧
      down.toNat.isPowerOfTwo ∧ up.toNat.isPowerOfTwo ∧
      down.toNat ≤ n.toNat ∧ n.toNat ≤ up.toNat ∧
      (down = n ∧ up = n ↔ isPowerOf2 n = true)

theorem brackets_constant_iff
    (nonzero : n ≠ 0)
    (atMost : n.toNat ≤ 2 ^ 63) :
    Brackets n (Macro.rounddownPowOfTwo true n)
        (Macro.roundupPowOfTwo true n) ↔
      n ≠ 1 := by
  constructor
  · intro brackets isOne
    obtain ⟨down, up, isDown, -, isPower, -⟩ := brackets
    rw [isOne] at isDown
    have isZero : some (0 : BitVec 64) = some down := isDown
    rw [Option.some.injEq] at isZero
    rw [← isZero] at isPower
    exact absurd (Nat.pos_of_isPowerOfTwo isPower) (by decide)
  · intro notOne
    obtain ⟨down, isDown, isGreatest⟩ :=
      (isRoundedDown_constant_iff nonzero).mpr notOne
    obtain ⟨up, isUp, isLeast⟩ := isRoundedUp_constant nonzero atMost
    refine ⟨down, up, isDown, isUp, isGreatest.1.1, isLeast.1.1,
      isGreatest.1.2, isLeast.1.2, ?_⟩
    rw [isPowerOf2_iff]
    constructor
    · intro same
      rw [← same.1]
      exact isGreatest.1.1
    · intro isPower
      constructor
      · apply BitVec.eq_of_toNat_eq
        exact le_antisymm isGreatest.1.2
          (isGreatest.2 ⟨isPower, le_rfl⟩)
      · apply BitVec.eq_of_toNat_eq
        exact le_antisymm (isLeast.2 ⟨isPower, le_rfl⟩) isLeast.1.2

/-- The base 2 order of a constant is defined for the lower half. -/
theorem orderBase2_constant_iff (nonzero : n ≠ 0) :
    Macro.orderBase2 true n = some (Nat.clog 2 n.toNat : Int) ↔
      n.toNat ≤ 2 ^ 63 := by
  rw [Macro.orderBase2, roundup_constant nonzero]
  constructor
  · intro isOrder
    by_contra tooLarge
    have outside : 64 ≤ Nat.clog 2 n.toNat := by
      rw [Nat.succ_le_iff, Nat.lt_clog_iff_pow_lt (by decide)]
      omega
    rw [shiftOne_eq_none outside] at isOrder
    exact absurd isOrder (by simp)
  · intro atMost
    have inside := clog_lt atMost
    have isPower := toNat_twoPow inside
    have notZero : BitVec.twoPow 64 (Nat.clog 2 n.toNat) ≠ 0 := by
      intro isZero
      rw [isZero] at isPower
      exact absurd isPower.symm (Nat.two_pow_pos _).ne'
    rw [shiftOne_eq inside, Option.bind_eq_bind, Option.bind_some,
      ilog2_constant notZero, isPower, Nat.log_pow (by decide)]

/--
The branches for constants, part by part: the logarithm and rounding up are
right, rounding down is wrong for 1 only, and the order is right wherever rounding
up is defined.
-/
theorem constant_branches_exact
    (n : BitVec 64)
    (positive : 1 ≤ n.toNat) :
    Macro.ilog2 true 8 n = some (Nat.log 2 n.toNat : Int) ∧
      (n.toNat ≤ 2 ^ 63 →
        IsRoundedUp n (Macro.roundupPowOfTwo true n)) ∧
      (IsRoundedDown n (Macro.rounddownPowOfTwo true n) ↔ n ≠ 1) ∧
      (n.toNat ≤ 2 ^ 63 →
        (Brackets n (Macro.rounddownPowOfTwo true n)
            (Macro.roundupPowOfTwo true n) ↔
          n ≠ 1)) ∧
      (Macro.orderBase2 true n = some (Nat.clog 2 n.toNat : Int) ↔
        n.toNat ≤ 2 ^ 63) := by
  have nonzero : n ≠ 0 := by
    intro isZero
    rw [isZero] at positive
    exact absurd positive (by decide)
  exact ⟨ilog2_constant nonzero, isRoundedUp_constant nonzero,
    isRoundedDown_constant_iff nonzero, brackets_constant_iff nonzero,
    orderBase2_constant_iff nonzero⟩

/-- The parts at a number between two powers of two. -/
theorem constant_branches_exact_of_twelve :
    Macro.ilog2 true 8 12 = some 3 ∧
      IsRoundedUp 12 (Macro.roundupPowOfTwo true 12) ∧
      IsRoundedDown 12 (Macro.rounddownPowOfTwo true 12) := by
  obtain ⟨-, up, down, -⟩ :=
    constant_branches_exact 12 (by decide)
  exact ⟨by decide, up (by decide), down.mpr (by decide)⟩

/-- Rounding down the constant 1 does not give a power of two. -/
theorem rounddown_constant_one :
    Macro.rounddownPowOfTwo true 1 = some 0 ∧
      ¬IsRoundedDown 1 (Macro.rounddownPowOfTwo true 1) ∧
      rounddownPowOfTwo 1 = some 1 := by
  exact ⟨by decide, not_isRoundedDown_one, by decide⟩

end Constants

end LibKern.Log2
