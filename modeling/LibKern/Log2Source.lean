import LibKern.BitopsSource

namespace LibKern.Log2

/-!
# Source of `log2.h`

Logarithms and powers of two of an `unsigned long`, on a machine with a word size
of 64 bits.  A shift by 64 or more is undefined, and so is a logarithm that is
not representable; both are reported as `none`.  The macros take a flag that
tells whether `__builtin_constant_p` holds of their argument.
-/

open Bitmap

/-- `fls64(x)`. -/
def fls64 (x : BitVec 64) : Nat :=
  if x = 0 then 0 else ffs x + 1

/-- `fls_long(l)`, where `sizeof(l)` is 8. -/
def flsLong (l : BitVec 64) : Nat :=
  fls64 l

/-- `get_bitmask_order(count)`. -/
def getBitmaskOrder (count : BitVec 32) : Nat :=
  fls count

/-- `get_count_order(count)`. -/
def getCountOrder (count : BitVec 32) : Int :=
  let order : Int := fls count - 1
  if count &&& (count - 1) ≠ 0 then order + 1 else order

/-- `__ilog2_u32(n)`. -/
def ilog2U32 (n : BitVec 32) : Int :=
  fls n - 1

/-- `__ilog2_u64(n)`. -/
def ilog2U64 (n : BitVec 64) : Int :=
  fls64 n - 1

/-- `is_power_of_2(n)`. -/
def isPowerOf2 (n : BitVec 64) : Bool :=
  decide (n ≠ 0 ∧ n &&& (n - 1) = 0)

/-- `1UL << count`. -/
def shiftOne (count : Int) : Option (BitVec 64) :=
  if 0 ≤ count ∧ count < 64 then
    some ((1 : BitVec 64) <<< count.toNat)
  else
    none

/-- `__roundup_pow_of_two(n)`. -/
def roundupPowOfTwo (n : BitVec 64) : Option (BitVec 64) :=
  shiftOne (flsLong (n - 1))

/-- `__rounddown_pow_of_two(n)`, with a subtraction of type `unsigned`. -/
def rounddownPowOfTwo (n : BitVec 64) : Option (BitVec 64) :=
  shiftOne (BitVec.ofNat 32 (flsLong n) - 1).toNat

namespace Macro

/-- The tests of `ilog2` for all bits below this one, from the highest on. -/
def ilog2Ladder (n : BitVec 64) : Nat → Option Int
  | 0 => none
  | bit + 1 =>
      if n &&& ((1 : BitVec 64) <<< bit) ≠ 0 then
        some bit
      else
        ilog2Ladder n bit

/-- `ilog2(n)` for an argument with `sizeof(n)` bytes. -/
def ilog2
    (constant : Bool)
    (size : Nat)
    (n : BitVec 64) : Option Int :=
  if constant then
    if n.toNat < 1 then none else ilog2Ladder n 64
  else if size ≤ 4 then
    some (ilog2U32 (n.setWidth 32))
  else
    some (ilog2U64 n)

/-- `roundup_pow_of_two(n)`. -/
def roundupPowOfTwo
    (constant : Bool)
    (n : BitVec 64) : Option (BitVec 64) :=
  if constant then
    if n = 1 then
      some 1
    else do
      let log ← ilog2 constant 8 (n - 1)
      shiftOne (log + 1)
  else
    Log2.roundupPowOfTwo n

/-- `rounddown_pow_of_two(n)`. -/
def rounddownPowOfTwo
    (constant : Bool)
    (n : BitVec 64) : Option (BitVec 64) :=
  if constant then
    if n = 1 then
      some 0
    else do
      let log ← ilog2 constant 8 n
      shiftOne log
  else
    Log2.rounddownPowOfTwo n

/-- `order_base_2(n)`. -/
def orderBase2
    (constant : Bool)
    (n : BitVec 64) : Option Int := do
  let rounded ← roundupPowOfTwo constant n
  ilog2 constant 8 rounded

end Macro

end LibKern.Log2
