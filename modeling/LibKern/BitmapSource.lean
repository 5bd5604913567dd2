import LibKern.BitopsSource

namespace LibKern.Bitmap

/-!
# The bitmap functions

This module transcribes functions of `lib/bitmap.c` and `include/bitmap.h`.  A
pointer is an address in memory; the bits of a bitmap are counted by natural
numbers.  The counters of `int` type that the source adds up are 32 bits wide
where they can wrap around.  The counters of digits and chunks in
`__bitmap_parse` are natural numbers, since `buflen` keeps them from wrapping
around to zero.
-/

open Program

/-- `EINVAL`. -/
def einval : Int := 22

/-- `ERANGE`. -/
def erange : Int := 34

/-- `EOVERFLOW`. -/
def eoverflow : Int := 75

/-- `ALIGN(x, a)`. -/
def align {width : Nat} (x a : BitVec width) : BitVec width :=
  (x + (a - 1)) &&& ~~~(a - 1)

/-- `bitmap_zero(dst, nbits)` for a number of bits that is not constant. -/
def bitmapZero (dst : Int) (nbits : Nat) : Program CMemory Unit :=
  clearLongs dst (bitsToLongs nbits)

section ShiftLeft

variable (dst src : Int) (shift bits : Nat)

/-- `__bitmap_shift_left` reads the word below, if its bits are needed. -/
def bitmapShiftLower (k : Nat) : Program CMemory (BitVec 64) :=
  if shift % 64 ≠ 0 ∧ k > 0 then loadLong (src + (k - 1 : Nat))
  else pure 0

/-- The body of the loop of `__bitmap_shift_left`. -/
def bitmapShiftLeftWord (k : Nat) : Program CMemory Unit := do
  let lim := bitsToLongs bits
  let left := bits % 64
  let off := shift / 64
  let rem := shift % 64
  let lower ← bitmapShiftLower src shift k
  let upper ← loadLong (src + k)
  let upper :=
    if left ≠ 0 ∧ k = lim - 1 then
      upper &&& (((1 : BitVec 64) <<< left) - 1)
    else
      upper
  storeLong (dst + (k + off : Nat))
    ((lower >>> (64 - rem)) ||| (upper <<< rem))
  onlyIf (left ≠ 0 ∧ k + off = lim - 1) (do
    let word ← loadLong (dst + (k + off : Nat))
    storeLong (dst + (k + off : Nat))
      (word &&& (((1 : BitVec 64) <<< left) - 1)))

/-- `__bitmap_shift_left(dst, src, shift, bits)`. -/
def bitmapShiftLeft : Program CMemory Unit := do
  countDown (bitsToLongs bits - shift / 64)
    (bitmapShiftLeftWord dst src shift bits)
  onlyIf (shift / 64 ≠ 0) (clearLongs dst (shift / 64))

end ShiftLeft

/-- `CHUNKSZ`. -/
def chunkSz : Nat := 32

/-- `unhex(c)`. -/
def unhex (c : Byte) : Nat :=
  if isdigit c then (c - ascii '0').toNat
  else (toupper c - ascii 'A' + 10).toNat

section Snprintf

variable (buf : Int) (buflen : BitVec 32) (maskp : Int)

/-- The variables of the loop of `bitmap_snprintf`. -/
structure SnprintfVars where
  i : Int
  chunksz : Nat
  sep : List Byte
  len : BitVec 32

/-- The loop of `bitmap_snprintf`. -/
def snprintfChunk (vars : SnprintfVars) :
    Program CMemory (Flow SnprintfVars (BitVec 32)) :=
  if vars.i ≥ 0 then do
    let chunkmask : BitVec 32 :=
      (((1 : BitVec 64) <<< vars.chunksz) - 1).setWidth 32
    let word := vars.i / 64
    let bit := (vars.i % 64).toNat
    let content ← loadLong (maskp + word)
    let val := (content >>> bit) &&& chunkmask.setWidth 64
    let written ←
      snprintf (buf + vars.len.toInt) (buflen - vars.len).toNat
        (vars.sep ++ paddedNumeral 16 ((vars.chunksz + 3) / 4) val.toNat)
    pure (.next
      { i := vars.i - chunkSz
        chunksz := chunkSz
        sep := [ascii ',']
        len := vars.len + written })
  else
    pure (.done vars.len)

/-- `bitmap_snprintf(buf, buflen, maskp, nmaskbits)`. -/
def bitmapSnprintf (nmaskbits : Nat) : Program CMemory (BitVec 32) :=
  let chunksz := nmaskbits % chunkSz
  let chunksz := if chunksz = 0 then chunkSz else chunksz
  loop (snprintfChunk buf buflen maskp)
    { i :=
        (align (.ofNat 32 nmaskbits) (.ofNat 32 chunkSz) -
          .ofNat 32 chunkSz).toInt
      chunksz := chunksz
      sep := []
      len := 0 }

end Snprintf

section Parse

/-- The variables of `__bitmap_parse` in the loop over one chunk. -/
structure ChunkVars where
  buf : Int
  buflen : Nat
  c : Byte
  chunk : BitVec 32
  ndigits : Nat
  totaldigits : Nat

/-- The loop of `__bitmap_parse` over the characters of a chunk. -/
def parseChar (vars : ChunkVars) :
    Program CMemory (Flow ChunkVars (Except Int ChunkVars)) :=
  if vars.buflen ≠ 0 then do
    let oldC := vars.c
    let c ← loadChar vars.buf
    let vars :=
      { vars with buf := vars.buf + 1, buflen := vars.buflen - 1, c := c }
    if isspace c then
      pure (.next vars)
    else if vars.totaldigits ≠ 0 ∧ c ≠ 0 ∧ isspace oldC then
      pure (.done (.error (-einval)))
    else if c = 0 ∨ c = ascii ',' then
      pure (.done (.ok vars))
    else if ¬isxdigit c then
      pure (.done (.error (-einval)))
    else if vars.chunk.setWidth 64 &&&
        ~~~(((1 : BitVec 64) <<< (chunkSz - 4)) - 1) ≠ 0 then
      pure (.done (.error (-eoverflow)))
    else
      pure (.next
        { vars with
          chunk := (vars.chunk <<< 4) ||| .ofNat 32 (unhex c)
          ndigits := vars.ndigits + 1
          totaldigits := vars.totaldigits + 1 })
  else
    pure (.done (.ok vars))

/-- The variables of `__bitmap_parse` in the loop over the chunks. -/
structure ParseVars where
  buf : Int
  buflen : Nat
  c : Byte
  totaldigits : Nat
  nchunks : Nat
  nbits : BitVec 32

variable (maskp : Int) (nmaskbits : Nat)

/-- The condition of the loop of `__bitmap_parse` over the chunks. -/
def parseMore (vars : ParseVars) :
    Program CMemory (Flow ParseVars Int) :=
  if vars.buflen ≠ 0 ∧ vars.c = ascii ',' then pure (.next vars)
  else pure (.done 0)

/-- The loop of `__bitmap_parse` over the chunks. -/
def parseChunk (vars : ParseVars) :
    Program CMemory (Flow ParseVars Int) := do
  let scanned ←
    loop parseChar
      ⟨vars.buf, vars.buflen, vars.c, 0, 0, vars.totaldigits⟩
  match scanned with
  | .error status => pure (.done status)
  | .ok read =>
      let vars :=
        { vars with
          buf := read.buf
          buflen := read.buflen
          c := read.c
          totaldigits := read.totaldigits }
      if read.ndigits = 0 then
        pure (.done (-einval))
      else if vars.nchunks = 0 ∧ read.chunk = 0 then
        parseMore vars
      else do
        bitmapShiftLeft maskp maskp chunkSz nmaskbits
        let word ← loadLong maskp
        storeLong maskp (word ||| read.chunk.setWidth 64)
        let nchunks := vars.nchunks + 1
        let nbits :=
          vars.nbits +
            .ofNat 32 (if nchunks = 1 then fls read.chunk else chunkSz)
        if nbits.toInt > nmaskbits then
          pure (.done (-eoverflow))
        else
          parseMore { vars with nchunks := nchunks, nbits := nbits }

/-- `__bitmap_parse(buf, buflen, maskp, nmaskbits)`. -/
def bitmapParse (buf : Int) (buflen : Nat) : Program CMemory Int := do
  bitmapZero maskp nmaskbits
  loop (parseChunk maskp nmaskbits) ⟨buf, buflen, 0, 0, 0, 0⟩

end Parse

section ListPrintf

variable (buf : Int) (buflen : BitVec 32) (maskp : Int)

/-- The number of bytes that `bscnl_emit` passes to `snprintf`. -/
def emitSize (len : BitVec 32) : Nat :=
  ((buflen - len).signExtend 64).toNat

/-- `bscnl_emit(buf, buflen, rbot, rtop, len)`. -/
def bscnlEmit
    (rbot rtop : Nat)
    (len : BitVec 32) :
    Program CMemory (BitVec 32) := do
  let len ←
    if len.toInt > 0 then do
      let written ←
        snprintf (buf + len.toInt) (emitSize buflen len) [ascii ',']
      pure (len + written)
    else
      pure len
  if rbot = rtop then do
    let written ←
      snprintf (buf + len.toInt) (emitSize buflen len) (numeral 10 rbot)
    pure (len + written)
  else do
    let written ←
      snprintf (buf + len.toInt) (emitSize buflen len)
        (numeral 10 rbot ++ [ascii '-'] ++ numeral 10 rtop)
    pure (len + written)

/-- The variables of the loop of `bitmap_snlistprintf`. -/
structure ListVars where
  cur : Nat
  rbot : Nat
  len : BitVec 32

/-- The loop of `bitmap_snlistprintf`. -/
def listRange (nmaskbits : Nat) (vars : ListVars) :
    Program CMemory (Flow ListVars (BitVec 32)) :=
  if vars.cur < nmaskbits then do
    let rtop := vars.cur
    let cur ← findNextBit maskp nmaskbits (vars.cur + 1)
    if cur ≥ nmaskbits ∨ cur > rtop + 1 then do
      let len ← bscnlEmit buf buflen vars.rbot rtop vars.len
      pure (.next ⟨cur, cur, len⟩)
    else
      pure (.next { vars with cur := cur })
  else
    pure (.done vars.len)

/-- `bitmap_snlistprintf(buf, buflen, maskp, nmaskbits)`. -/
def bitmapSnlistprintf (nmaskbits : Nat) : Program CMemory (BitVec 32) :=
  if buflen = 0 then
    pure 0
  else do
    storeChar buf 0
    let cur ← findFirstBit maskp nmaskbits
    loop (listRange buf buflen maskp nmaskbits) ⟨cur, cur, 0⟩

end ListPrintf

section ParseList

variable (maskp : Int) (nmaskbits : Nat)

/-- The loop of `bitmap_parselist` that sets the bits of a range. -/
def setRange (b a : BitVec 32) :
    Program CMemory (Flow (BitVec 32) Unit) :=
  if a ≤ b then do
    setBit a.toNat maskp
    pure (.next (a + 1))
  else
    pure (.done ())

/-- The part of `bitmap_parselist` that reads the end of a range. -/
def parseRangeEnd (a : BitVec 32) (bp : Int) :
    Program CMemory (Except Int (BitVec 32 × Int)) := do
  let c ← loadChar bp
  if c = ascii '-' then do
    let c ← loadChar (bp + 1)
    if ¬isdigit c then
      pure (.error (-einval))
    else do
      let (value, bp) ← strtoul (bp + 1)
      pure (.ok (value.setWidth 32, bp))
  else
    pure (.ok (a, bp))

/-- The part of `bitmap_parselist` that sets a range that was read. -/
def finishRange
    (a b : BitVec 32)
    (bp : Int) :
    Program CMemory (Flow Int Int) :=
  if ¬a ≤ b then
    pure (.done (-einval))
  else if b.toNat ≥ nmaskbits then
    pure (.done (-erange))
  else do
    loop (setRange maskp b) a
    let c ← loadChar bp
    let bp := if c = ascii ',' then bp + 1 else bp
    let c ← loadChar bp
    if c ≠ 0 ∧ c ≠ ascii '\n' then
      pure (.next bp)
    else
      pure (.done 0)

/-- The loop of `bitmap_parselist`. -/
def parseRange (bp : Int) : Program CMemory (Flow Int Int) := do
  let c ← loadChar bp
  if ¬isdigit c then
    pure (.done (-einval))
  else do
    let (value, bp) ← strtoul bp
    let a := value.setWidth 32
    match ← parseRangeEnd a bp with
    | .error status => pure (.done status)
    | .ok (b, bp) => finishRange maskp nmaskbits a b bp

/-- `bitmap_parselist(bp, maskp, nmaskbits)`. -/
def bitmapParselist (bp : Int) : Program CMemory Int := do
  bitmapZero maskp nmaskbits
  loop (parseRange maskp nmaskbits) bp

end ParseList

end LibKern.Bitmap
