import LibKern.CMemory

namespace LibKern.Bitmap

/-!
# The bit operations

This module transcribes the functions of `include/bitops.h` and `lib/bitops.c`
that work on a word size of 64 bits.  The arguments that count bits are natural
numbers; no operation on them exceeds the range of its type.
-/

open Program

/-- `BITS_TO_LONGS(nr)`. -/
def bitsToLongs (nr : Nat) : Nat :=
  (nr + 64 - 1) / 64

/-- `set_bit(nr, addr)`. -/
def setBit (nr : Nat) (addr : Int) : Program CMemory Unit := do
  let word ← loadLong (addr + (nr / 64 : Nat))
  storeLong (addr + (nr / 64 : Nat))
    (word ||| ((1 : BitVec 64) <<< (nr % 64)))

/-- `clear_bit(nr, addr)`. -/
def clearBit (nr : Nat) (addr : Int) : Program CMemory Unit := do
  let word ← loadLong (addr + (nr / 64 : Nat))
  storeLong (addr + (nr / 64 : Nat))
    (word &&& ~~~((1 : BitVec 64) <<< (nr % 64)))

/-- `test_bit(nr, addr)`. -/
def testBit (nr : Nat) (addr : Int) : Program CMemory Bool := do
  let word ← loadLong (addr + (nr / 64 : Nat))
  pure (((1 : BitVec 64) <<< (nr % 64)) &&& word ≠ 0)

/-- `hweight32(w)`. -/
def hweight32 (w : BitVec 32) : BitVec 32 :=
  let res := w - ((w >>> 1) &&& 0x55555555)
  let res := (res &&& 0x33333333) + ((res >>> 2) &&& 0x33333333)
  let res := (res + (res >>> 4)) &&& 0x0f0f0f0f
  let res := res + (res >>> 8)
  (res + (res >>> 16)) &&& 0xff

/-- `hweight64(w)`. -/
def hweight64 (w : BitVec 64) : BitVec 64 :=
  let res := w - ((w >>> 1) &&& 0x5555555555555555)
  let res :=
    (res &&& 0x3333333333333333) + ((res >>> 2) &&& 0x3333333333333333)
  let res := (res + (res >>> 4)) &&& 0x0f0f0f0f0f0f0f0f
  let res := res + (res >>> 8)
  let res := res + (res >>> 16)
  (res + (res >>> 32)) &&& 0xff

/-- One of the tests of `__ffs`. -/
def ffsStep
    (mask : BitVec 64)
    (shift : Nat)
    (current : Nat × BitVec 64) : Nat × BitVec 64 :=
  if current.2 &&& mask = 0 then
    (current.1 + shift, current.2 >>> shift)
  else
    current

/-- `__ffs(word)`. -/
def ffs (word : BitVec 64) : Nat :=
  let current := ffsStep 0xffffffff 32 (0, word)
  let current := ffsStep 0xffff 16 current
  let current := ffsStep 0xff 8 current
  let current := ffsStep 0xf 4 current
  let current := ffsStep 0x3 2 current
  (ffsStep 0x1 1 current).1

/-- `ffz(x)`. -/
def ffz (x : BitVec 64) : Nat :=
  ffs (~~~x)

/-- One of the tests of `fls`. -/
def flsStep
    (mask : BitVec 32)
    (shift : Nat)
    (current : BitVec 32 × Nat) : BitVec 32 × Nat :=
  if current.1 &&& mask = 0 then
    (current.1 <<< shift, current.2 - shift)
  else
    current

/-- `fls(x)`. -/
def fls (x : BitVec 32) : Nat :=
  if x = 0 then 0
  else
    let current := flsStep 0xffff0000 16 (x, 32)
    let current := flsStep 0xff000000 8 current
    let current := flsStep 0xf0000000 4 current
    let current := flsStep 0xc0000000 2 current
    (flsStep 0x80000000 1 current).2

/-- `x & ~(BITS_PER_LONG-1)`. -/
def wholeWords (x : Nat) : Nat :=
  x / 64 * 64

/-- The variables of the loop of `find_next_bit` and `find_first_bit`. -/
structure ScanVars where
  p : Int
  result : Nat
  size : Nat

/-- The part of a scan behind the label `found_first`. -/
def foundFirst (tmp : BitVec 64) (result size : Nat) : Nat :=
  let tmp := tmp &&& (BitVec.allOnes 64 >>> (64 - size))
  if tmp = 0 then result + size else result + ffs tmp

/-- The loop of a scan over whole words and the last word. -/
def scanWords (vars : ScanVars) :
    Program CMemory (Flow ScanVars Nat) :=
  if wholeWords vars.size ≠ 0 then do
    let tmp ← loadLong vars.p
    if tmp ≠ 0 then
      pure (.done (vars.result + ffs tmp))
    else
      pure (.next ⟨vars.p + 1, vars.result + 64, vars.size - 64⟩)
  else if vars.size = 0 then
    pure (.done vars.result)
  else do
    let tmp ← loadLong vars.p
    pure (.done (foundFirst tmp vars.result vars.size))

/-- `find_next_bit(addr, size, offset)`. -/
def findNextBit
    (addr : Int)
    (size offset : Nat) :
    Program CMemory Nat :=
  let p := addr + (offset / 64 : Nat)
  let result := wholeWords offset
  if offset ≥ size then
    pure size
  else
    let size := size - result
    let offset := offset % 64
    if offset ≠ 0 then do
      let tmp ← loadLong p
      let tmp := tmp &&& (BitVec.allOnes 64 <<< offset)
      if size < 64 then
        pure (foundFirst tmp result size)
      else if tmp ≠ 0 then
        pure (result + ffs tmp)
      else
        loop scanWords ⟨p + 1, result + 64, size - 64⟩
    else
      loop scanWords ⟨p, result, size⟩

/-- `find_first_bit(addr, size)`. -/
def findFirstBit (addr : Int) (size : Nat) : Program CMemory Nat :=
  loop scanWords ⟨addr, 0, size⟩

/-- The part of a scan for a zero behind the label `found_first`. -/
def foundFirstZero (tmp : BitVec 64) (result size : Nat) : Nat :=
  let tmp := tmp ||| (BitVec.allOnes 64 <<< size)
  if tmp = BitVec.allOnes 64 then result + size else result + ffz tmp

/-- The loop of a scan for a zero over whole words and the last word. -/
def scanZeroWords (vars : ScanVars) :
    Program CMemory (Flow ScanVars Nat) :=
  if wholeWords vars.size ≠ 0 then do
    let tmp ← loadLong vars.p
    if ~~~tmp ≠ 0 then
      pure (.done (vars.result + ffz tmp))
    else
      pure (.next ⟨vars.p + 1, vars.result + 64, vars.size - 64⟩)
  else if vars.size = 0 then
    pure (.done vars.result)
  else do
    let tmp ← loadLong vars.p
    pure (.done (foundFirstZero tmp vars.result vars.size))

/-- `find_next_zero_bit(addr, size, offset)`. -/
def findNextZeroBit
    (addr : Int)
    (size offset : Nat) :
    Program CMemory Nat :=
  let p := addr + (offset / 64 : Nat)
  let result := wholeWords offset
  if offset ≥ size then
    pure size
  else
    let size := size - result
    let offset := offset % 64
    if offset ≠ 0 then do
      let tmp ← loadLong p
      let tmp := tmp ||| (BitVec.allOnes 64 >>> (64 - offset))
      if size < 64 then
        pure (foundFirstZero tmp result size)
      else if ~~~tmp ≠ 0 then
        pure (result + ffz tmp)
      else
        loop scanZeroWords ⟨p + 1, result + 64, size - 64⟩
    else
      loop scanZeroWords ⟨p, result, size⟩

/-- `find_first_zero_bit(addr, size)`. -/
def findFirstZeroBit (addr : Int) (size : Nat) : Program CMemory Nat :=
  loop scanZeroWords ⟨addr, 0, size⟩

/-- The label `found` of `find_last_bit`. -/
def foundLast (words : Nat) (tmp : BitVec 64) : Nat :=
  words * 64 + fls (tmp.setWidth 32)

/-- The loop of `find_last_bit`. -/
def lastWord
    (addr : Int)
    (size words : Nat) :
    Program CMemory (Flow Nat Nat) :=
  if words ≠ 0 then do
    let words := words - 1
    let tmp ← loadLong (addr + words)
    if tmp ≠ 0 then
      pure (.done (foundLast words tmp))
    else
      pure (.next words)
  else
    pure (.done size)

/-- `find_last_bit(addr, size)`. -/
def findLastBit (addr : Int) (size : Nat) : Program CMemory Nat :=
  let words := size / 64
  if size % 64 ≠ 0 then do
    let word ← loadLong (addr + words)
    let tmp := word &&& (BitVec.allOnes 64 >>> (64 - size % 64))
    if tmp ≠ 0 then
      pure (foundLast words tmp)
    else
      loop (lastWord addr size) words
  else
    loop (lastWord addr size) words

/-- The loop of `for_each_set_bit(bit, addr, size)`. -/
def eachSetBit
    {β : Type}
    (addr : Int)
    (size : Nat)
    (body : Nat → β → Program CMemory β) :
    Nat × β → Program CMemory (Flow (Nat × β) β)
  | (bit, current) =>
      if bit < size then do
        let current ← body bit current
        let bit ← findNextBit addr size (bit + 1)
        pure (.next (bit, current))
      else
        pure (.done current)

/-- `for_each_set_bit(bit, addr, size)` with a body that updates a variable. -/
def forEachSetBit
    {β : Type}
    (addr : Int)
    (size : Nat)
    (start : β)
    (body : Nat → β → Program CMemory β) :
    Program CMemory β := do
  let bit ← findFirstBit addr size
  loop (eachSetBit addr size body) (bit, start)

end LibKern.Bitmap
