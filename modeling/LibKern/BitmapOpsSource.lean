import LibKern.BitmapSource

namespace LibKern.Bitmap

/-!
# The operations on bitmaps

This module transcribes the operations of `lib/bitmap.c` and `include/bitmap.h`
that compare, combine, shift and map bitmaps, and the ones that allocate
regions.  A name without a prefix is the function of `lib/bitmap.c`, for example
`bitmapAnd` is `__bitmap_and`.  The functions of `include/bitmap.h` are in the
namespace `Inline`; their first argument tells whether the compiler knows the
number of bits.
-/

open Program

/-- `ENOMEM`. -/
def enomem : Int := 12

/-- `EBUSY`. -/
def ebusy : Int := 16

/-- `BITMAP_LAST_WORD_MASK(nbits)`. -/
def lastWordMask (nbits : Nat) : BitVec 64 :=
  if nbits % 64 ≠ 0 then ((1 : BitVec 64) <<< (nbits % 64)) - 1
  else ~~~0

section Compare

/--
The comparisons look for a whole word that passes a test, and then at the used
bits of the last word.
-/
def anyUsedWord
    (bits : Nat)
    (test : Nat → Program CMemory Bool)
    (word : Nat → Program CMemory (BitVec 64)) :
    Program CMemory Bool := do
  let found ← anyUp (bits / 64) test
  if found then
    pure true
  else if bits % 64 ≠ 0 then do
    let last ← word (bits / 64)
    pure (last &&& lastWordMask bits ≠ 0)
  else
    pure false

/-- The comparisons other than `__bitmap_equal` look for a nonzero word. -/
def anyNonzeroWord
    (bits : Nat)
    (word : Nat → Program CMemory (BitVec 64)) :
    Program CMemory Bool :=
  anyUsedWord bits
    (fun k => do
      let value ← word k
      pure (value ≠ 0))
    word

/-- Two words at the same place of two bitmaps. -/
def bothWords
    (op : BitVec 64 → BitVec 64 → BitVec 64)
    (bitmap1 bitmap2 : Int)
    (k : Nat) :
    Program CMemory (BitVec 64) := do
  let first ← loadLong (bitmap1 + k)
  let second ← loadLong (bitmap2 + k)
  pure (op first second)

/-- `__bitmap_empty(bitmap, bits)`. -/
def bitmapEmpty (bitmap : Int) (bits : Nat) : Program CMemory Bool := do
  let found ← anyNonzeroWord bits fun k => loadLong (bitmap + k)
  pure !found

/-- `__bitmap_full(bitmap, bits)`. -/
def bitmapFull (bitmap : Int) (bits : Nat) : Program CMemory Bool := do
  let found ← anyNonzeroWord bits fun k => do
    let word ← loadLong (bitmap + k)
    pure (~~~word)
  pure !found

/-- `__bitmap_equal(bitmap1, bitmap2, bits)`. -/
def bitmapEqual
    (bitmap1 bitmap2 : Int)
    (bits : Nat) :
    Program CMemory Bool := do
  let found ←
    anyUsedWord bits
      (fun k => do
        let first ← loadLong (bitmap1 + k)
        let second ← loadLong (bitmap2 + k)
        pure (first ≠ second))
      (bothWords (fun first second => first ^^^ second) bitmap1 bitmap2)
  pure !found

/-- `__bitmap_intersects(bitmap1, bitmap2, bits)`. -/
def bitmapIntersects
    (bitmap1 bitmap2 : Int)
    (bits : Nat) :
    Program CMemory Bool :=
  anyNonzeroWord bits
    (bothWords (fun first second => first &&& second) bitmap1 bitmap2)

/-- `__bitmap_subset(bitmap1, bitmap2, bits)`. -/
def bitmapSubset
    (bitmap1 bitmap2 : Int)
    (bits : Nat) :
    Program CMemory Bool := do
  let found ←
    anyNonzeroWord bits
      (bothWords (fun first second => first &&& ~~~second) bitmap1
        bitmap2)
  pure !found

/-- `__bitmap_weight(bitmap, bits)`. -/
def bitmapWeight (bitmap : Int) (bits : Nat) : Program CMemory Nat := do
  let w ←
    foldUp (bits / 64) 0 fun k w => do
      let word ← loadLong (bitmap + k)
      pure (w + (hweight64 word).toNat)
  if bits % 64 ≠ 0 then do
    let last ← loadLong (bitmap + (bits / 64 : Nat))
    pure (w + (hweight64 (last &&& lastWordMask bits)).toNat)
  else
    pure w

end Compare

section Combine

variable (dst bitmap1 bitmap2 : Int) (bits : Nat)

/-- `dst[k] = op(bitmap1[k], bitmap2[k])`, with the value of the assignment. -/
def combineWord
    (op : BitVec 64 → BitVec 64 → BitVec 64)
    (k : Nat) :
    Program CMemory (BitVec 64) := do
  let word ← bothWords op bitmap1 bitmap2 k
  storeLong (dst + k) word
  pure word

/-- The loop of `__bitmap_or` and `__bitmap_xor`. -/
def combineWords
    (op : BitVec 64 → BitVec 64 → BitVec 64) :
    Program CMemory Unit :=
  countUp (bitsToLongs bits) fun k => do
    let _ ← combineWord dst bitmap1 bitmap2 op k
    pure ()

/-- The loop of `__bitmap_and` and `__bitmap_andnot`. -/
def combineAnyWord
    (op : BitVec 64 → BitVec 64 → BitVec 64) :
    Program CMemory Bool := do
  let result ←
    foldUp (bitsToLongs bits) 0 fun k result => do
      let word ← combineWord dst bitmap1 bitmap2 op k
      pure (result ||| word)
  pure (result ≠ 0)

/-- `__bitmap_and(dst, bitmap1, bitmap2, bits)`. -/
def bitmapAnd : Program CMemory Bool :=
  combineAnyWord dst bitmap1 bitmap2 bits
    fun first second => first &&& second

/-- `__bitmap_or(dst, bitmap1, bitmap2, bits)`. -/
def bitmapOr : Program CMemory Unit :=
  combineWords dst bitmap1 bitmap2 bits
    fun first second => first ||| second

/-- `__bitmap_xor(dst, bitmap1, bitmap2, bits)`. -/
def bitmapXor : Program CMemory Unit :=
  combineWords dst bitmap1 bitmap2 bits
    fun first second => first ^^^ second

/-- `__bitmap_andnot(dst, bitmap1, bitmap2, bits)`. -/
def bitmapAndnot : Program CMemory Bool :=
  combineAnyWord dst bitmap1 bitmap2 bits
    fun first second => first &&& ~~~second

end Combine

/-- `__bitmap_complement(dst, src, bits)`. -/
def bitmapComplement
    (dst src : Int)
    (bits : Nat) :
    Program CMemory Unit := do
  countUp (bits / 64) fun k => do
    let word ← loadLong (src + k)
    storeLong (dst + k) (~~~word)
  onlyIf (bits % 64 ≠ 0) (do
    let word ← loadLong (src + (bits / 64 : Nat))
    storeLong (dst + (bits / 64 : Nat)) (~~~word &&& lastWordMask bits))

section ShiftRight

variable (dst src : Int) (shift bits : Nat)

/-- `__bitmap_shift_right` reads the word above, if its bits are needed. -/
def bitmapShiftUpper (k : Nat) : Program CMemory (BitVec 64) :=
  let lim := bitsToLongs bits
  let left := bits % 64
  let off := shift / 64
  let rem := shift % 64
  let mask := ((1 : BitVec 64) <<< left) - 1
  if rem = 0 ∨ off + k + 1 ≥ lim then
    pure 0
  else do
    let upper ← loadLong (src + (off + k + 1 : Nat))
    pure
      (if off + k + 1 = lim - 1 ∧ left ≠ 0 then upper &&& mask else upper)

/-- The body of the loop of `__bitmap_shift_right`. -/
def bitmapShiftRightWord (k : Nat) : Program CMemory Unit := do
  let lim := bitsToLongs bits
  let left := bits % 64
  let off := shift / 64
  let rem := shift % 64
  let mask := ((1 : BitVec 64) <<< left) - 1
  let upper ← bitmapShiftUpper src shift bits k
  let lower ← loadLong (src + (off + k : Nat))
  let lower := if left ≠ 0 ∧ off + k = lim - 1 then lower &&& mask else lower
  storeLong (dst + k) ((upper <<< (64 - rem)) ||| (lower >>> rem))
  onlyIf (left ≠ 0 ∧ k = lim - 1) (do
    let word ← loadLong (dst + k)
    storeLong (dst + k) (word &&& mask))

/-- `__bitmap_shift_right(dst, src, shift, bits)`. -/
def bitmapShiftRight : Program CMemory Unit := do
  countUp (bitsToLongs bits - shift / 64)
    (bitmapShiftRightWord dst src shift bits)
  onlyIf (shift / 64 ≠ 0)
    (clearLongs (dst + (bitsToLongs bits : Int) - (shift / 64 : Nat))
      (shift / 64))

end ShiftRight

section SetClear

/-- The variables of the loop of `bitmap_set` and `bitmap_clear`. -/
structure SpanVars where
  p : Int
  nr : Nat
  count : Nat
  mask : BitVec 64

/-- The loop of `bitmap_set` and `bitmap_clear` over all but the last word. -/
def spanWord
    (change : BitVec 64 → BitVec 64 → BitVec 64)
    (vars : SpanVars) :
    Program CMemory (Flow SpanVars SpanVars) :=
  if vars.nr ≥ vars.count then do
    let word ← loadLong vars.p
    storeLong vars.p (change word vars.mask)
    pure (.next ⟨vars.p + 1, vars.nr - vars.count, 64, ~~~0⟩)
  else
    pure (.done vars)

/-- The common body of `bitmap_set` and `bitmap_clear`. -/
def changeSpan
    (change : BitVec 64 → BitVec 64 → BitVec 64)
    (map : Int)
    (start nr : Nat) :
    Program CMemory Unit := do
  let size := start + nr
  let vars ←
    loop (spanWord change)
      { p := map + (start / 64 : Nat)
        nr := nr
        count := 64 - start % 64
        mask := (~~~0 : BitVec 64) <<< (start % 64) }
  onlyIf (vars.nr ≠ 0) (do
    let word ← loadLong vars.p
    storeLong vars.p (change word (vars.mask &&& lastWordMask size)))

/-- `bitmap_set(map, start, nr)`. -/
def bitmapSet (map : Int) (start nr : Nat) : Program CMemory Unit :=
  changeSpan (fun word mask => word ||| mask) map start nr

/-- `bitmap_clear(map, start, nr)`. -/
def bitmapClear (map : Int) (start nr : Nat) : Program CMemory Unit :=
  changeSpan (fun word mask => word &&& ~~~mask) map start nr

end SetClear

section ZeroArea

/-- `__ALIGN_MASK(x, mask)`. -/
def alignMask (x mask : BitVec 64) : BitVec 64 :=
  (x + mask) &&& ~~~mask

/-- The code of `bitmap_find_next_zero_area` from the label `again` on. -/
def nextZeroArea
    (map : Int)
    (size : BitVec 64)
    (nr : BitVec 32)
    (mask : BitVec 64)
    (start : BitVec 64) :
    Program CMemory (Flow (BitVec 64) (BitVec 64)) := do
  let index ← findNextZeroBit map size.toNat start.toNat
  let index := alignMask (.ofNat 64 index) mask
  let last := index + nr.setWidth 64
  if last > size then
    pure (.done last)
  else do
    let i ← findNextBit map last.toNat index.toNat
    if i < last.toNat then
      pure (.next (.ofNat 64 i + 1))
    else
      pure (.done index)

/-- `bitmap_find_next_zero_area(map, size, start, nr, align_mask)`. -/
def bitmapFindNextZeroArea
    (map : Int)
    (size start : BitVec 64)
    (nr : BitVec 32)
    (mask : BitVec 64) :
    Program CMemory (BitVec 64) :=
  loop (nextZeroArea map size nr mask) start

end ZeroArea

section Map

/-- The loop of `bitmap_pos_to_ord`. -/
def countBelow
    (buf : Int)
    (pos : Int)
    (bits : Nat) :
    Nat × Nat → Program CMemory (Flow (Nat × Nat) Nat)
  | (i, ord) =>
      if i < pos then do
        let i ← findNextBit buf bits (i + 1)
        pure (.next (i, ord + 1))
      else
        pure (.done ord)

/-- `bitmap_pos_to_ord(buf, pos, bits)`. -/
def bitmapPosToOrd
    (buf pos : Int)
    (bits : Nat) :
    Program CMemory Int :=
  if pos < 0 ∨ pos ≥ bits then
    pure (-1)
  else do
    let isSet ← testBit pos.toNat buf
    if ¬isSet then
      pure (-1)
    else do
      let i ← findFirstBit buf bits
      let ord ← loop (countBelow buf pos bits) (i, 0)
      pure ord

/-- The loop of `bitmap_ord_to_pos`. -/
def skipSetBits
    (buf : Int)
    (bits : Nat) :
    Nat × Nat → Program CMemory (Flow (Nat × Nat) (Nat × Nat))
  | (i, ord) =>
      if i < bits ∧ ord > 0 then do
        let i ← findNextBit buf bits (i + 1)
        pure (.next (i, ord - 1))
      else
        pure (.done (i, ord))

/-- `bitmap_ord_to_pos(buf, ord, bits)` for an ordinal that is not negative. -/
def bitmapOrdToPos
    (buf : Int)
    (ord bits : Nat) :
    Program CMemory Nat :=
  if ord < bits then do
    let i ← findFirstBit buf bits
    let (i, ord) ← loop (skipSetBits buf bits) (i, ord)
    pure (if i < bits ∧ ord = 0 then i else 0)
  else
    pure 0

/-- `bitmap_remap(dst, src, old, new, bits)`. -/
def bitmapRemap
    (dst src old new : Int)
    (bits : Nat) :
    Program CMemory Unit :=
  if dst = src then
    pure ()
  else do
    bitmapZero dst bits
    let w ← bitmapWeight new bits
    forEachSetBit src bits () fun oldbit _ => do
      let n ← bitmapPosToOrd old oldbit bits
      if n < 0 ∨ w = 0 then
        setBit oldbit dst
      else do
        let pos ← bitmapOrdToPos new (n.toNat % w) bits
        setBit pos dst

/-- `bitmap_bitremap(oldbit, old, new, bits)`. -/
def bitmapBitremap
    (oldbit old new : Int)
    (bits : Nat) :
    Program CMemory Int := do
  let w ← bitmapWeight new bits
  let n ← bitmapPosToOrd old oldbit bits
  if n < 0 ∨ w = 0 then
    pure oldbit
  else do
    let pos ← bitmapOrdToPos new (n.toNat % w) bits
    pure pos

/-- `bitmap_onto(dst, orig, relmap, bits)`. -/
def bitmapOnto
    (dst orig relmap : Int)
    (bits : Nat) :
    Program CMemory Unit :=
  if dst = orig then
    pure ()
  else do
    bitmapZero dst bits
    let _ ←
      forEachSetBit relmap bits 0 fun n m => do
        let isSet ← testBit m orig
        onlyIf (isSet = true) (setBit n dst)
        pure (m + 1)
    pure ()

/-- `bitmap_fold(dst, orig, sz, bits)`. -/
def bitmapFold
    (dst orig : Int)
    (sz bits : Nat) :
    Program CMemory Unit :=
  if dst = orig then
    pure ()
  else do
    bitmapZero dst bits
    forEachSetBit orig bits () fun oldbit _ => setBit (oldbit % sz) dst

end Map

section Regions

/-- The operations of `__reg_op`. -/
inductive RegOp where
  | isFree
  | alloc
  | release
  deriving Repr, DecidableEq

/-- The mask for one word of a region. -/
def regMask (nbitsinlong offset : Nat) : BitVec 64 :=
  let mask := (1 : BitVec 64) <<< (nbitsinlong - 1)
  (mask + (mask - 1)) <<< offset

/--
`__reg_op(bitmap, pos, order, reg_op)` for an order of at most 30, so that
`1 << order` is a number of type `int`.
-/
def regOp
    (bitmap pos : Int)
    (order : Nat)
    (op : RegOp) :
    Program CMemory Int := do
  let nbitsReg := 2 ^ order
  let index := pos.tdiv 64
  let offset := pos - index * 64
  let nlongsReg := bitsToLongs nbitsReg
  let nbitsinlong := min nbitsReg 64
  let mask := regMask nbitsinlong offset.toNat
  match op with
  | .isFree => do
      let found ←
        anyUp nlongsReg fun i => do
          let word ← loadLong (bitmap + index + i)
          pure (word &&& mask ≠ 0)
      pure (if found then 0 else 1)
  | .alloc => do
      countUp nlongsReg fun i => do
        let word ← loadLong (bitmap + index + i)
        storeLong (bitmap + index + i) (word ||| mask)
      pure 0
  | .release => do
      countUp nlongsReg fun i => do
        let word ← loadLong (bitmap + index + i)
        storeLong (bitmap + index + i) (word &&& ~~~mask)
      pure 0

/-- The loop of `bitmap_find_free_region`. -/
def findRegion
    (bitmap : Int)
    (bits order : Nat)
    (pos : BitVec 32) :
    Program CMemory (Flow (BitVec 32) Int) :=
  let last := pos + ((1 : BitVec 32) <<< order)
  if last.toInt ≤ bits then do
    let free ← regOp bitmap pos.toInt order .isFree
    if free = 0 then
      pure (.next last)
    else do
      let _ ← regOp bitmap pos.toInt order .alloc
      pure (.done pos.toInt)
  else
    pure (.done (-enomem))

/-- `bitmap_find_free_region(bitmap, bits, order)`. -/
def bitmapFindFreeRegion
    (bitmap : Int)
    (bits order : Nat) :
    Program CMemory Int :=
  loop (findRegion bitmap bits order) 0

/-- `bitmap_release_region(bitmap, pos, order)`. -/
def bitmapReleaseRegion
    (bitmap pos : Int)
    (order : Nat) :
    Program CMemory Unit := do
  let _ ← regOp bitmap pos order .release
  pure ()

/-- `bitmap_allocate_region(bitmap, pos, order)`. -/
def bitmapAllocateRegion
    (bitmap pos : Int)
    (order : Nat) :
    Program CMemory Int := do
  let free ← regOp bitmap pos order .isFree
  if free = 0 then
    pure (-ebusy)
  else do
    let _ ← regOp bitmap pos order .alloc
    pure 0

end Regions

namespace Inline

variable (constant : Bool)

/-- `small_const_nbits(nbits)`. -/
def smallConstNbits (nbits : Nat) : Prop :=
  constant = true ∧ nbits ≤ 64
  deriving Decidable

section Fill

variable (dst src : Int) (nbits : Nat)

/-- `bitmap_zero(dst, nbits)`. -/
def bitmapZero : Program CMemory Unit :=
  if smallConstNbits constant nbits then storeLong dst 0
  else Bitmap.bitmapZero dst nbits

/-- `bitmap_fill(dst, nbits)`. -/
def bitmapFill : Program CMemory Unit := do
  let nlongs := bitsToLongs nbits
  onlyIf (¬smallConstNbits constant nbits)
    (countUp (nlongs - 1) fun index => storeLong (dst + index) (~~~0))
  storeLong (dst + (nlongs - 1 : Nat)) (lastWordMask nbits)

/-- `bitmap_copy(dst, src, nbits)`. -/
def bitmapCopy : Program CMemory Unit :=
  if smallConstNbits constant nbits then do
    let word ← loadLong src
    storeLong dst word
  else
    countUp (bitsToLongs nbits) fun index => do
      let word ← loadLong (src + index)
      storeLong (dst + index) word

end Fill

section Combine

variable (dst src1 src2 : Int) (nbits : Nat)

/-- `bitmap_and(dst, src1, src2, nbits)`. -/
def bitmapAnd : Program CMemory Bool :=
  if smallConstNbits constant nbits then do
    let first ← loadLong src1
    let second ← loadLong src2
    storeLong dst (first &&& second)
    pure (first &&& second ≠ 0)
  else
    Bitmap.bitmapAnd dst src1 src2 nbits

/-- `bitmap_or(dst, src1, src2, nbits)`. -/
def bitmapOr : Program CMemory Unit :=
  if smallConstNbits constant nbits then do
    let first ← loadLong src1
    let second ← loadLong src2
    storeLong dst (first ||| second)
  else
    Bitmap.bitmapOr dst src1 src2 nbits

/-- `bitmap_xor(dst, src1, src2, nbits)`. -/
def bitmapXor : Program CMemory Unit :=
  if smallConstNbits constant nbits then do
    let first ← loadLong src1
    let second ← loadLong src2
    storeLong dst (first ^^^ second)
  else
    Bitmap.bitmapXor dst src1 src2 nbits

/-- `bitmap_andnot(dst, src1, src2, nbits)`. -/
def bitmapAndnot : Program CMemory Bool :=
  if smallConstNbits constant nbits then do
    let first ← loadLong src1
    let second ← loadLong src2
    storeLong dst (first &&& ~~~second)
    pure (first &&& ~~~second ≠ 0)
  else
    Bitmap.bitmapAndnot dst src1 src2 nbits

end Combine

section Compare

variable (src src1 src2 : Int) (nbits : Nat)

/-- `bitmap_equal(src1, src2, nbits)`. -/
def bitmapEqual : Program CMemory Bool :=
  if smallConstNbits constant nbits then do
    let first ← loadLong src1
    let second ← loadLong src2
    pure ((first ^^^ second) &&& lastWordMask nbits = 0)
  else
    Bitmap.bitmapEqual src1 src2 nbits

/-- `bitmap_intersects(src1, src2, nbits)`. -/
def bitmapIntersects : Program CMemory Bool :=
  if smallConstNbits constant nbits then do
    let first ← loadLong src1
    let second ← loadLong src2
    pure ((first &&& second) &&& lastWordMask nbits ≠ 0)
  else
    Bitmap.bitmapIntersects src1 src2 nbits

/-- `bitmap_subset(src1, src2, nbits)`. -/
def bitmapSubset : Program CMemory Bool :=
  if smallConstNbits constant nbits then do
    let first ← loadLong src1
    let second ← loadLong src2
    pure ((first &&& ~~~second) &&& lastWordMask nbits = 0)
  else
    Bitmap.bitmapSubset src1 src2 nbits

/-- `bitmap_empty(src, nbits)`. -/
def bitmapEmpty : Program CMemory Bool :=
  if smallConstNbits constant nbits then do
    let word ← loadLong src
    pure (word &&& lastWordMask nbits = 0)
  else
    Bitmap.bitmapEmpty src nbits

/-- `bitmap_full(src, nbits)`. -/
def bitmapFull : Program CMemory Bool :=
  if smallConstNbits constant nbits then do
    let word ← loadLong src
    pure (~~~word &&& lastWordMask nbits = 0)
  else
    Bitmap.bitmapFull src nbits

/-- `bitmap_weight(src, nbits)`. -/
def bitmapWeight : Program CMemory Nat :=
  if smallConstNbits constant nbits then do
    let word ← loadLong src
    pure (hweight64 (word &&& lastWordMask nbits)).toNat
  else
    Bitmap.bitmapWeight src nbits

end Compare

/-- `bitmap_complement(dst, src, nbits)`. -/
def bitmapComplement
    (dst src : Int)
    (nbits : Nat) :
    Program CMemory Unit :=
  if smallConstNbits constant nbits then do
    let word ← loadLong src
    storeLong dst (~~~word &&& lastWordMask nbits)
  else
    Bitmap.bitmapComplement dst src nbits

section Shift

variable (dst src : Int) (n nbits : Nat)

/-- `bitmap_shift_right(dst, src, n, nbits)`. -/
def bitmapShiftRight : Program CMemory Unit :=
  if smallConstNbits constant nbits then do
    let word ← loadLong src
    storeLong dst (word >>> n)
  else
    Bitmap.bitmapShiftRight dst src n nbits

/-- `bitmap_shift_left(dst, src, n, nbits)`. -/
def bitmapShiftLeft : Program CMemory Unit :=
  if smallConstNbits constant nbits then do
    let word ← loadLong src
    storeLong dst ((word <<< n) &&& lastWordMask nbits)
  else
    Bitmap.bitmapShiftLeft dst src n nbits

end Shift

end Inline

end LibKern.Bitmap
