import LibKern.BitmapGrammar
import LibKern.CPrint
import LibKern.Rounding

namespace LibKern.Bitmap

/-!
# The hexadecimal text of a bitmap

`bitmap_snprintf` prints the number of a bitmap in chunks of 32 bits, from the
top down.  `__bitmap_parse` reads the same number back, so that the bits above
`nmaskbits`, which are not printed, are zero afterwards.
-/

open Program

section Number

variable {longs : Region (BitVec 64)}
variable {maskp : Int}
variable {nmaskbits : Nat}

/-- The number whose binary representation is a bitmap. -/
def bitmapNumber
    (longs : Region (BitVec 64))
    (maskp : Int)
    (nmaskbits : Nat) : Nat :=
  Nat.ofBits fun index : Fin nmaskbits => longs.bit maskp index

theorem testBit_bitmapNumber (index : Nat) :
    (bitmapNumber longs maskp nmaskbits).testBit index =
      (decide (index < nmaskbits) && longs.bit maskp index) := by
  rw [bitmapNumber, Nat.testBit_ofBits]
  split <;> simp_all

theorem bitmapNumber_lt :
    bitmapNumber longs maskp nmaskbits < 2 ^ nmaskbits :=
  Nat.ofBits_lt_two_pow _

/-- The chunk of 32 bits that `bitmap_snprintf` takes out of a word. -/
theorem toNat_chunk
    {count : Nat}
    {content : BitVec 64}
    (atWord : longs.cell (maskp + (count / 2 : Nat)) = some content) :
    ((content >>> (32 * (count % 2))) &&&
        ((((1 : BitVec 64) <<< (min 32 (nmaskbits - 32 * count))) -
          1).setWidth 32).setWidth 64).toNat =
      bitmapNumber longs maskp nmaskbits / 2 ^ (32 * count) % 2 ^ 32 := by
  apply Nat.eq_of_testBit_eq
  intro index
  rw [Nat.testBit_mod_two_pow, Nat.testBit_div_two_pow,
    testBit_bitmapNumber, ← BitVec.getLsbD, BitVec.getLsbD_and,
    BitVec.getLsbD_ushiftRight, BitVec.getLsbD_setWidth,
    BitVec.getLsbD_setWidth, getLsbD_lowMask (by omega)]
  by_cases inside : index < 32
  · have sameWord : (index + 32 * count) / 64 = count / 2 := by
      omega
    have position :
        (index + 32 * count) % 64 = 32 * (count % 2) + index := by
      omega
    rw [Region.bit_of_cell atWord sameWord, position]
    by_cases used : index + 32 * count < nmaskbits
    · have below : index < min 32 (nmaskbits - 32 * count) := by
        omega
      simp [inside, used, below]
      omega
    · have above : ¬index < min 32 (nmaskbits - 32 * count) := by
        omega
      simp [used, above]
  · simp [inside]

end Number

section Text

variable {nmaskbits number count : Nat}

/-- The chunks that `bitmap_snprintf` prints for a number. -/
def hexChunks (nmaskbits number : Nat) : Nat → List (List Byte)
  | 0 => []
  | count + 1 =>
      paddedNumeral 16 ((min 32 (nmaskbits - 32 * count) + 3) / 4)
          (number / 2 ^ (32 * count) % 2 ^ 32) ::
        hexChunks nmaskbits number count

/-- The text that `bitmap_snprintf` prints for a number. -/
def hexText (nmaskbits number : Nat) : List Byte :=
  joined (hexChunks nmaskbits number ((nmaskbits + 31) / 32))

theorem unhex_digitChar
    (digit : Nat)
    (bound : digit < 16) :
    unhex (digitChar digit) = digit := by
  have checked :
      ∀ small : Fin 16, unhex (digitChar small) = small := by
    decide
  exact checked ⟨digit, bound⟩

/-- A padded numeral of 32 bits is a chunk with this number. -/
theorem hexNumber_paddedNumeral (width number : Nat) :
    hexNumber (paddedNumeral 16 width number) = number :=
  numeralValue_paddedNumeral (by omega) unhex_digitChar width number

theorem chunk_paddedNumeral
    (width : Nat)
    (small : number < 2 ^ 32) :
    Chunk (paddedNumeral 16 width number) where
  nonempty := by
    simp [paddedNumeral, numeral_ne_nil]
  hexadecimal := by
    intro c isMember
    rw [paddedNumeral, List.mem_append] at isMember
    rcases isMember with isZero | isDigit
    · rw [List.eq_of_mem_replicate isZero]
      decide
    · obtain ⟨digit, bound, rfl⟩ :=
        exists_digitChar_of_mem_numeral (by omega) isDigit
      exact isxdigit_digitChar bound
  small := by
    rwa [hexNumber_paddedNumeral]

theorem length_hexChunks :
    (hexChunks nmaskbits number count).length = count := by
  induction count with
  | zero =>
      rfl
  | succ count inductionHypothesis =>
      rw [hexChunks, List.length_cons, inductionHypothesis]

theorem hexChunks_ne_nil
    (positive : 0 < count) :
    hexChunks nmaskbits number count ≠ [] := by
  rw [← List.length_pos_iff, length_hexChunks]
  exact positive

theorem isChunk_hexChunks :
    ∀ digits ∈ hexChunks nmaskbits number count, Chunk digits := by
  induction count with
  | zero =>
      simp [hexChunks]
  | succ count inductionHypothesis =>
      rw [hexChunks, List.forall_mem_cons]
      exact ⟨chunk_paddedNumeral _ (Nat.mod_lt _ (Nat.two_pow_pos _)),
        inductionHypothesis⟩

/-- The chunks make up the lower bits of the number. -/
theorem chunksValue_hexChunks :
    chunksValue (hexChunks nmaskbits number count) =
      number % 2 ^ (32 * count) := by
  induction count with
  | zero =>
      simp [hexChunks, chunksValue, Nat.mod_one]
  | succ count inductionHypothesis =>
      rw [hexChunks, chunksValue, hexNumber_paddedNumeral,
        length_hexChunks, inductionHypothesis, Nat.mul_succ, Nat.pow_add,
        Nat.mod_mul]
      ring

theorem hexText_ne_nil
    (positive : 1 ≤ nmaskbits) :
    hexText nmaskbits number ≠ [] := by
  rw [hexText]
  obtain ⟨count, isCount⟩ :=
    Nat.exists_eq_succ_of_ne_zero (by omega : (nmaskbits + 31) / 32 ≠ 0)
  rw [isCount]
  apply joined_ne_nil
  simp [paddedNumeral, numeral_ne_nil]

/-- A chunk takes nine characters at most. -/
theorem length_joined_hexChunks_le :
    (joined (hexChunks nmaskbits number count)).length ≤ 9 * count := by
  have numeralBound
      (count : Nat) :
      (paddedNumeral 16 ((min 32 (nmaskbits - 32 * count) + 3) / 4)
        (number / 2 ^ (32 * count) % 2 ^ 32)).length ≤ 8 := by
    apply length_paddedNumeral_le
    · omega
    · exact length_numeral_le (by omega) (by omega)
        (Nat.mod_lt _ (Nat.two_pow_pos _))
  induction count with
  | zero =>
      simp [hexChunks, joined]
  | succ count inductionHypothesis =>
      have first := numeralBound count
      rw [hexChunks]
      rcases Nat.eq_zero_or_pos count with isZero | positive
      · subst isZero
        rw [hexChunks, joined_singleton]
        omega
      · rw [joined_cons _ (hexChunks_ne_nil positive), List.length_append,
          List.length_cons]
        omega

end Text

section Print

variable {memory before : CMemory}
variable {buf maskp : Int}
variable {buflen : BitVec 32}
variable {nmaskbits : Nat}

/-- The first bit of the last chunk of 32 bits. -/
theorem toInt_start
    (positive : 1 ≤ nmaskbits)
    (bound : nmaskbits < 2 ^ 31) :
    (align (.ofNat 32 nmaskbits) (.ofNat 32 chunkSz) -
        .ofNat 32 chunkSz).toInt =
      32 * ((nmaskbits + 31) / 32 : Nat) - 32 := by
  have isPower : (BitVec.ofNat 32 chunkSz).toNat = 2 ^ 5 := rfl
  have rounded :
      (align (.ofNat 32 nmaskbits) (.ofNat 32 chunkSz)).toNat =
        (nmaskbits + 31) / 32 * 32 := by
    rw [Rounding.toNat_align isPower, BitVec.toNat_ofNat]
    omega
  have start :
      (align (.ofNat 32 nmaskbits) (.ofNat 32 chunkSz) -
          .ofNat 32 chunkSz).toNat =
        (nmaskbits + 31) / 32 * 32 - 32 := by
    rw [BitVec.toNat_sub, rounded, BitVec.toNat_ofNat, chunkSz]
    omega
  rw [BitVec.toInt_eq_toNat_of_lt (by omega), start]
  omega

/-- The loop of `bitmap_snprintf` at one of the chunks. -/
structure PrintingChunks
    (before : CMemory)
    (buf maskp : Int)
    (buflen : BitVec 32)
    (nmaskbits count chunksz : Nat)
    (printed sep text : List Byte)
    (memory : CMemory) : Prop where
  positive : 1 ≤ buflen.toNat
  mapped : before.longs.Mapped maskp (bitsToLongs nmaskbits)
  isPrinted : Printed before buf buflen.toNat printed memory
  inside : 32 * count < nmaskbits + 32
  isSize : count ≠ 0 → chunksz = min 32 (nmaskbits - 32 * (count - 1))
  isText :
    text =
      printed ++ separated sep
        (hexChunks nmaskbits
          (bitmapNumber before.longs maskp nmaskbits) count)
  small : text.length < 2 ^ 31

namespace PrintingChunks

variable {count chunksz : Nat} {printed sep text : List Byte}

/-- The text of the chunk that is printed next. -/
def nextChunk
    (longs : Region (BitVec 64))
    (maskp : Int)
    (nmaskbits count : Nat) : List Byte :=
  paddedNumeral 16 ((min 32 (nmaskbits - 32 * count) + 3) / 4)
    (bitmapNumber longs maskp nmaskbits / 2 ^ (32 * count) % 2 ^ 32)

/-- The arguments of the next call of `snprintf`. -/
theorem ensures_snprintfChunk
    {post : Flow SnprintfVars (BitVec 32) → CMemory → Prop}
    (printing :
      PrintingChunks before buf maskp buflen nmaskbits (count + 1) chunksz
        printed sep text memory) :
    (snprintfChunk buf buflen maskp
        ⟨32 * (count + 1 : Nat) - 32, chunksz, sep,
          .ofNat 32 printed.length⟩).Ensures memory post ↔
      (snprintf (buf + printed.length)
        (buflen - .ofNat 32 printed.length).toNat
        (sep ++ nextChunk before.longs maskp nmaskbits count)).Ensures
          memory fun written after =>
            post (.next
              ⟨32 * count - 32, 32, [ascii ','],
                .ofNat 32 printed.length + written⟩) after := by
  have isFirst : chunksz = min 32 (nmaskbits - 32 * count) := by
    simpa using printing.isSize
  have position :
      (32 * ((count + 1 : Nat) : Int) - 32) = 32 * count := by
    omega
  have isWord : (32 * (count : Int)) / 64 = (count / 2 : Nat) := by
    omega
  have isBit : ((32 * (count : Int)) % 64).toNat = 32 * (count % 2) := by
    omega
  have inside := printing.inside
  obtain ⟨content, atWord⟩ :=
    printing.mapped (count / 2) (lt_bitsToLongs (by omega))
  have length := congrArg List.length printing.isText
  have small := printing.small
  rw [List.length_append] at length
  have isLength :
      (BitVec.ofNat 32 printed.length).toInt = printed.length :=
    toInt_ofNat_of_lt (by omega)
  rw [snprintfChunk]
  simp only [position, isWord, isBit, isFirst, isLength]
  rw [if_pos (by omega), ensures_bind, ensures_loadLong,
    printing.isPrinted.sameLongs]
  simp only [atWord, Option.some.injEq, exists_eq_left', ensures_bind,
    ensures_pure, toNat_chunk atWord]
  rfl

/-- The loop after the next call of `snprintf`. -/
theorem next
    (printing :
      PrintingChunks before buf maskp buflen nmaskbits (count + 1) chunksz
        printed sep text memory)
    {after : CMemory}
    (isPrinted :
      Printed before buf buflen.toNat
        (printed ++ (sep ++ nextChunk before.longs maskp nmaskbits count))
        after) :
    PrintingChunks before buf maskp buflen nmaskbits count 32
      (printed ++ (sep ++ nextChunk before.longs maskp nmaskbits count))
      [ascii ','] text after where
  positive := printing.positive
  mapped := printing.mapped
  isPrinted := isPrinted
  inside := by
    have inside := printing.inside
    omega
  isSize := by
    have inside := printing.inside
    omega
  isText := by
    rw [printing.isText, hexChunks, separated]
    simp [nextChunk, List.append_assoc]
  small := printing.small

/-- The sizes are right as long as the text does not exceed the buffer. -/
theorem toNat_size
    (printing :
      PrintingChunks before buf maskp buflen nmaskbits count chunksz printed
        sep text memory) :
    ((buflen - BitVec.ofNat 32 printed.length).toNat : Int) =
      if printed.length ≤ buflen.toNat then
        buflen.toNat - printed.length
      else
        2 ^ 32 + buflen.toNat - printed.length := by
  have bound := buflen.isLt
  have small := printing.small
  have length := congrArg List.length printing.isText
  rw [List.length_append] at length
  rw [BitVec.toNat_sub, BitVec.toNat_ofNat]
  split <;> omega

end PrintingChunks

/-- The loop of `bitmap_snprintf` prints the chunks below. -/
theorem ensures_snprintfChunks
    {count chunksz : Nat}
    {printed sep text : List Byte}
    (printing :
      PrintingChunks before buf maskp buflen nmaskbits count chunksz printed
        sep text memory)
    (fits :
      count ≠ 0 →
      (printed ++ beforeLast sep
        (hexChunks nmaskbits (bitmapNumber before.longs maskp nmaskbits)
          count)).length ≤ buflen.toNat) :
    (loop (snprintfChunk buf buflen maskp)
      ⟨32 * count - 32, chunksz, sep,
        .ofNat 32 printed.length⟩).Ensures memory fun len after =>
          len = .ofNat 32 text.length ∧
            Printed before buf buflen.toNat text after ∧
            TrueCalls buf buflen.toNat memory after := by
  induction count generalizing memory printed sep chunksz with
  | zero =>
      obtain rfl : text = printed := by
        simpa [hexChunks, separated] using printing.isText
      rw [ensures_loop, snprintfChunk, if_neg (by simp), ensures_pure]
      exact ⟨rfl, printing.isPrinted, .refl⟩
  | succ count inductionHypothesis =>
      have size := printing.toNat_size
      have fitsNow := fits (by omega)
      rw [List.length_append] at fitsNow
      rw [if_pos (by omega)] at size
      rw [ensures_loop, printing.ensures_snprintfChunk]
      refine (printing.isPrinted.ensures_snprintf printing.positive
        (.inl ⟨by omega, by omega⟩)).weaken ?_
      intro written after step
      obtain ⟨rfl, isMade, stillPrinted⟩ := step
      rw [← BitVec.ofNat_add, ← List.length_append]
      refine (inductionHypothesis (printing.next stillPrinted)
        ?_).weaken ?_
      · intro later
        rw [hexChunks, beforeLast_cons _ _ (hexChunks_ne_nil (by omega)),
          ← PrintingChunks.nextChunk] at fitsNow
        rw [List.length_append] at fitsNow ⊢
        simp only [List.length_append] at fitsNow ⊢
        omega
      · intro len final result
        obtain ⟨isLength, finallyPrinted, areTrue⟩ := result
        refine ⟨isLength, finallyPrinted,
          (TrueCalls.single isMade ?_).trans areTrue⟩
        rw [TrueSize, size]
        omega

/-- The length of what `bitmap_snprintf` prints before its last call. -/
def hexOffset (nmaskbits number : Nat) : Nat :=
  (beforeLast []
    (hexChunks nmaskbits number ((nmaskbits + 31) / 32))).length

theorem hexOffset_le
    {number : Nat}
    (positive : 1 ≤ nmaskbits) :
    hexOffset nmaskbits number ≤ (hexText nmaskbits number).length := by
  have shorter :
      hexOffset nmaskbits number ≤
        (separated []
          (hexChunks nmaskbits number ((nmaskbits + 31) / 32))).length :=
    length_beforeLast_le []
  rwa [separated_eq_joined _ (hexChunks_ne_nil (by omega)),
    List.nil_append] at shorter

/-- The loop of `bitmap_snprintf` at its first chunk. -/
theorem PrintingChunks.start
    (positive : 1 ≤ nmaskbits)
    (bound : nmaskbits < 2 ^ 31)
    (mapped : memory.longs.Mapped maskp (bitsToLongs nmaskbits))
    (room : memory.chars.Mapped buf buflen.toNat)
    (nonempty : 1 ≤ buflen.toNat) :
    PrintingChunks memory buf maskp buflen nmaskbits
      ((nmaskbits + 31) / 32)
      (if nmaskbits % chunkSz = 0 then chunkSz else nmaskbits % chunkSz)
      [] []
      (hexText nmaskbits (bitmapNumber memory.longs maskp nmaskbits))
      memory where
  positive := nonempty
  mapped := mapped
  isPrinted := .nil room
  inside := by
    omega
  isSize := by
    intro _
    by_cases whole : nmaskbits % chunkSz = 0
    · rw [if_pos whole]
      simp only [chunkSz] at whole ⊢
      omega
    · rw [if_neg whole]
      simp only [chunkSz] at whole ⊢
      omega
  isText := by
    rw [List.nil_append,
      separated_eq_joined _ (hexChunks_ne_nil (by omega))]
    rfl
  small := by
    have short := @length_joined_hexChunks_le nmaskbits
      (bitmapNumber memory.longs maskp nmaskbits) ((nmaskbits + 31) / 32)
    rw [hexText]
    omega

/-- `bitmap_snprintf` prints the number of the bitmap. -/
theorem ensures_bitmapSnprintf
    (positive : 1 ≤ nmaskbits)
    (bound : nmaskbits < 2 ^ 31)
    (mapped : memory.longs.Mapped maskp (bitsToLongs nmaskbits))
    (room : memory.chars.Mapped buf buflen.toNat)
    (nonempty : 1 ≤ buflen.toNat)
    (fits :
      hexOffset nmaskbits (bitmapNumber memory.longs maskp nmaskbits) ≤
        buflen.toNat) :
    (bitmapSnprintf buf buflen maskp nmaskbits).Ensures memory
      fun len after =>
        let text :=
          hexText nmaskbits (bitmapNumber memory.longs maskp nmaskbits)
        len.toInt = text.length ∧
          Printed memory buf buflen.toNat text after ∧
          TrueCalls buf buflen.toNat memory after := by
  have printing :=
    PrintingChunks.start positive bound mapped room nonempty
  rw [bitmapSnprintf, toInt_start positive bound]
  refine (ensures_snprintfChunks printing fun _ => fits).weaken ?_
  intro len after result
  obtain ⟨rfl, isPrinted, areTrue⟩ := result
  exact ⟨toInt_ofNat_of_lt printing.small, isPrinted, areTrue⟩

end Print

section RoundTrip

variable {memory : CMemory}
variable {buf maskp dst : Int}
variable {buflen : BitVec 32}
variable {nmaskbits : Nat}

/-- What `bitmap_snprintf` prints is a list of chunks. -/
theorem chunks_hexText
    {exhausted : Prop}
    {number : Nat}
    (positive : 1 ≤ nmaskbits) :
    Chunks exhausted (hexText nmaskbits number)
      (hexChunks nmaskbits number ((nmaskbits + 31) / 32)) :=
  chunks_iff_joined.mpr ⟨hexChunks_ne_nil (by omega), isChunk_hexChunks, [],
    (List.append_nil _).symm, .inl (by simp [Blank])⟩

/-- The number of the chunks is the number that was printed. -/
theorem chunksValue_hexText
    {number : Nat}
    (fits : number < 2 ^ nmaskbits) :
    chunksValue (hexChunks nmaskbits number ((nmaskbits + 31) / 32)) =
      number := by
  rw [chunksValue_hexChunks]
  exact Nat.mod_eq_of_lt
    (fits.trans_le (Nat.pow_le_pow_right (by omega) (by omega)))

/-- `__bitmap_parse` reads the number that `bitmap_snprintf` prints. -/
theorem ensures_bitmapParse_hexText
    {exhausted : Prop}
    {number textlen : Nat}
    (positive : 1 ≤ nmaskbits)
    (bound : nmaskbits < 2 ^ 31)
    (mapped : memory.longs.Mapped dst (bitsToLongs nmaskbits))
    (fits : number < 2 ^ nmaskbits)
    (input :
      Input exhausted memory.chars buf textlen
        (hexText nmaskbits number)) :
    (bitmapParse dst nmaskbits buf textlen).Ensures memory
      fun status after =>
        status = 0 ∧
          ∀ index < bitsToLongs nmaskbits * 64,
            after.longs.bit dst index = number.testBit index := by
  have nonempty :
      hexChunks nmaskbits number ((nmaskbits + 31) / 32) ≠ [] :=
    hexChunks_ne_nil (by omega)
  have isChunks := @chunks_hexText nmaskbits exhausted number positive
  have isValue := chunksValue_hexText fits
  have countFits :=
    (countFits_iff_of_chunks bound isChunks).mpr
      (.inl (by rwa [isValue]))
  have starts := head_joined nonempty isChunk_hexChunks []
  rw [List.append_nil] at starts
  have noBlanks : Blank [] := by
    simp [Blank]
  refine (ensures_bitmapParse positive mapped input noBlanks
    starts).weaken ?_
  intro status after verdict
  rcases verdict with ⟨accepted, chunks, otherChunks, -, represented⟩ |
    ⟨-, none⟩
  · obtain rfl := isChunks.unique otherChunks
    rw [Nat.zero_mul, Nat.zero_add, isValue] at represented
    exact ⟨accepted, represented fits⟩
  · exact absurd countFits (none _ isChunks)

/--
What `bitmap_snprintf` prints without truncation is parsed into the same bits,
and the unused bits are zero.
-/
theorem bitmapSnprintf_bitmapParse
    (positive : 1 ≤ nmaskbits)
    (noOverflow : nmaskbits + 31 < 2 ^ 31)
    (source : memory.longs.Mapped maskp (bitsToLongs nmaskbits))
    (target : memory.longs.Mapped dst (bitsToLongs nmaskbits))
    (room : memory.chars.Mapped buf buflen.toNat)
    (fits :
      (hexText nmaskbits
        (bitmapNumber memory.longs maskp nmaskbits)).length <
          buflen.toNat) :
    (bitmapSnprintf buf buflen maskp nmaskbits).Ensures memory
      fun len printed =>
        ∀ textlen : BitVec 32,
          len ≤ textlen →
          (bitmapParse dst nmaskbits buf textlen.toNat).Ensures printed
            fun status after =>
              status = 0 ∧
                ∀ index < bitsToLongs nmaskbits * 64,
                  after.longs.bit dst index =
                    (decide (index < nmaskbits) &&
                      memory.longs.bit maskp index) := by
  have offset :
      hexOffset nmaskbits (bitmapNumber memory.longs maskp nmaskbits) ≤
        buflen.toNat :=
    (hexOffset_le positive).trans (by omega)
  refine (ensures_bitmapSnprintf positive (by omega) source room (by omega)
    offset).weaken ?_
  intro len printed result
  obtain ⟨isLength, isPrinted, -⟩ := result
  have string := isPrinted.string (hexText_ne_nil positive) fits
  intro textlen enough
  rw [BitVec.le_def, toNat_of_toInt isLength] at enough
  have input :
      Input
        ((hexText nmaskbits
          (bitmapNumber memory.longs maskp nmaskbits)).length =
            textlen.toNat)
        printed.chars buf textlen.toNat _ :=
    { stores := string.of_append
      nonzero := ne_zero_of_mem_joined isChunk_hexChunks
      ending := by
        rcases enough.eq_or_lt with isEqual | isLess
        · exact .inl ⟨isEqual, isEqual⟩
        · exact .inr ⟨isLess.ne, isLess,
            string.of_append_right.head⟩ }
  rw [← isPrinted.sameLongs] at target
  refine (ensures_bitmapParse_hexText positive (by omega) target
    bitmapNumber_lt input).weaken ?_
  intro status after parsed
  refine ⟨parsed.1, fun index below => ?_⟩
  rw [parsed.2 index below, testBit_bitmapNumber]

/-- A bitmap of 40 bits with unused bits that are set. -/
theorem bitmapSnprintf_bitmapParse_of_sample :
    (bitmapSnprintf 0 32 0 40).Ensures
      { longs := .ofList [0xffff00000000abcd, 0]
        chars := .ofList (List.replicate 32 0) }
      fun len printed =>
        ∀ textlen : BitVec 32,
          len ≤ textlen →
          (bitmapParse 1 40 0 textlen.toNat).Ensures printed
            fun status after =>
              status = 0 ∧
                ∀ index < bitsToLongs 40 * 64,
                  after.longs.bit 1 index =
                    (decide (index < 40) &&
                      (Region.ofList
                        [(0xffff00000000abcd : BitVec 64), 0]).bit 0
                          index) := by
  refine bitmapSnprintf_bitmapParse (by decide) (by decide)
    (Region.mapped_ofList (by decide)) ?_
    (Region.mapped_ofList (by decide)) ?_
  · intro index below
    obtain rfl : index = 0 := Nat.lt_one_iff.mp below
    exact ⟨0, rfl⟩
  · exact length_joined_hexChunks_le.trans_lt (by decide)

end RoundTrip

end LibKern.Bitmap
