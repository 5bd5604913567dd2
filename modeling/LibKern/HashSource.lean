import LibKern.CText
import LibKern.Memory
import LibKern.Program

namespace LibKern.Hash

/-!
# Source of `hash.h`

`hash_64`, `hash_32` and `hash_ptr` for integers and addresses, and
`hash_internal` for a buffer.  A shift by the width of its type or more is
undefined and reported as `none`.
-/

open Program

/-- `GOLDEN_RATIO_PRIME_64`. -/
def goldenRatioPrime64 : BitVec 64 :=
  0x9e37fffffffc0001

/-- `hash_64(val, bits)`. -/
def hash64 (val : BitVec 64) (bits : BitVec 32) : Option (BitVec 64) :=
  let hash := val
  let n := hash
  let n := n <<< 18
  let hash := hash - n
  let n := n <<< 33
  let hash := hash - n
  let n := n <<< 3
  let hash := hash + n
  let n := n <<< 3
  let hash := hash - n
  let n := n <<< 4
  let hash := hash + n
  let n := n <<< 2
  let hash := hash + n
  let shift := (64 - bits).toNat
  if shift < 64 then some (hash >>> shift) else none

/-- `GOLDEN_RATIO_PRIME_32`. -/
def goldenRatioPrime32 : BitVec 64 :=
  0x9e370001

/--
`hash_32(val, bits)`.  The prime is an `unsigned long`, so the product has 64
bits before it is stored in an `uint32_t`.
-/
def hash32 (val : BitVec 32) (bits : BitVec 32) : Option (BitVec 32) :=
  let hash := (val.setWidth 64 * goldenRatioPrime32).setWidth 32
  let shift := (32 - bits).toNat
  if shift < 32 then some (hash >>> shift) else none

/-- `hash_long(val, bits)` for words of 64 bits. -/
def hashLong (val : Word) (bits : BitVec 32) : Option Word :=
  hash64 val bits

/-- `hash_ptr(ptr, bits)`. -/
def hashPtr (ptr : Word) (bits : BitVec 32) : Option Word :=
  hashLong ptr bits

section Internal

/--
The memory that `hash_internal` reads, with the addresses that have been read
and the number of iterations of its loop.
-/
structure HashMachine where
  memory : Memory Word Byte
  addresses : List Word
  iterations : Nat

/-- Read a byte and record its address. -/
def loadChar (address : Word) : Program HashMachine Byte := do
  let byte ← reads fun machine => machine.memory.cell address
  updates fun machine =>
    some { machine with addresses := machine.addresses ++ [address] }
  pure byte

/-- Record one more iteration of the loop. -/
def countIteration : Program HashMachine Unit :=
  updates fun machine =>
    some { machine with iterations := machine.iterations + 1 }

/-- The variables of the loop of `hash_internal`. -/
structure HashVars where
  p : Word
  h : BitVec 32

/-- One iteration of `while (p < e)`. -/
def hashStep (e : Word) (vars : HashVars) :
    Program HashMachine (Flow HashVars (BitVec 32)) :=
  if vars.p < e then do
    countIteration
    let byte ← loadChar vars.p
    let h := vars.h ^^^ byte.setWidth 32
    let h := h * 0x9e3779b9
    pure (.next ⟨vars.p + 1, h⟩)
  else
    pure (.done vars.h)

/--
`hash_internal(data, len)`.  The end pointer is `*p + len`: a byte and an
`unsigned int` are added as numbers of type `unsigned int`, and the sum is
converted to a pointer.
-/
def hashInternal
    (data : Word)
    (len : BitVec 32) :
    Program HashMachine (BitVec 64) := do
  let first ← loadChar data
  let e : Word := (first.setWidth 32 + len).setWidth 64
  let h ← loop (hashStep e) ⟨data, 0xfeedbeef⟩
  pure (h.setWidth 64)

end Internal

end LibKern.Hash
