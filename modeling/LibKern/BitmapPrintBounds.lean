import LibKern.BitmapHex
import LibKern.BitmapListPrint

namespace LibKern.Bitmap

/-!
# Printing into a buffer that is too short

Both printers subtract the length of what was printed from the size of the
buffer.  After the first truncated call the difference is negative, but
`snprintf` takes it for a large size and writes behind the buffer.
-/

open Program

/--
A printer stays within its buffer: it changes nothing outside, it passes the
space that remains to every call of `snprintf`, the buffer holds as much of the
text as fits, and the length of the whole text is returned.
-/
def PrintsWithin
    (program : Program CMemory (BitVec 32))
    (memory : CMemory)
    (buf : Int)
    (buflen : BitVec 32)
    (text : List Byte) : Prop :=
  program.Ensures memory fun len after =>
    memory.chars.SameOutside after.chars buf buflen.toNat ∧
      TrueCalls buf buflen.toNat memory after ∧
      after.chars.Stores buf (text.take (buflen.toNat - 1) ++ [0]) ∧
      len.toInt = text.length

section Hex

variable {before memory : CMemory}
variable {buf maskp : Int}
variable {buflen : BitVec 32}
variable {nmaskbits : Nat}

/-- Further calls of `snprintf` by `bitmap_snprintf`. -/
private theorem permits_snprintfChunks_calls
    (vars : SnprintfVars) :
    (loop (snprintfChunk buf buflen maskp) vars).Permits memory
      fun _ after => ∃ made, after.calls = memory.calls ++ made := by
  refine permits_loop
    (fun _ (after : CMemory) =>
      ∃ made, after.calls = memory.calls ++ made) ?_ ⟨[], by simp⟩
  intro current between made
  obtain ⟨made, isMade⟩ := made
  rw [snprintfChunk, permits_ite]
  split
  · rw [permits_bind, loadLong, permits_reads]
    intro content _
    rw [permits_bind]
    refine permits_snprintf.weaken ?_
    intro written after result
    obtain ⟨-, -, isCall, -⟩ := result
    rw [permits_pure]
    exact ⟨made ++ _, by rw [isCall, isMade, List.append_assoc]⟩
  · rw [permits_pure]
    exact ⟨made, isMade⟩

/-- A chunk that starts behind the buffer is printed with a wrong size. -/
theorem permits_snprintfChunks_wrong
    {count chunksz : Nat}
    {printed sep text : List Byte}
    (printing :
      PrintingChunks before buf maskp buflen nmaskbits count chunksz printed
        sep text memory)
    (nonzero : count ≠ 0)
    (exceeds :
      buflen.toNat <
        (printed ++ beforeLast sep
          (hexChunks nmaskbits (bitmapNumber before.longs maskp nmaskbits)
            count)).length) :
    (loop (snprintfChunk buf buflen maskp)
      ⟨32 * count - 32, chunksz, sep,
        .ofNat 32 printed.length⟩).Permits memory fun _ after =>
          WrongCall buf buflen.toNat memory after := by
  induction count generalizing memory printed sep chunksz with
  | zero =>
      exact absurd rfl nonzero
  | succ count inductionHypothesis =>
      have size := printing.toNat_size
      rw [permits_loop_iff, permits_iff, printing.ensures_snprintfChunk,
        ← permits_iff]
      by_cases starts : printed.length ≤ buflen.toNat
      · rw [if_pos starts] at size
        have someMore : count ≠ 0 := by
          rintro rfl
          simp only [hexChunks, beforeLast, List.dropLast_singleton,
            separated, List.append_nil] at exceeds
          omega
        refine ((printing.isPrinted.ensures_snprintf printing.positive
          (.inl ⟨starts, by omega⟩)).permits).weaken ?_
        intro written after step
        obtain ⟨rfl, isMade, stillPrinted⟩ := step
        dsimp only
        rw [← BitVec.ofNat_add, ← List.length_append]
        refine (inductionHypothesis (printing.next stillPrinted) someMore
          ?_).weaken ?_
        · rw [hexChunks, beforeLast_cons _ _
            (hexChunks_ne_nil (by omega)),
            ← PrintingChunks.nextChunk] at exceeds
          simp only [List.length_append] at exceeds ⊢
          omega
        · intro _ final wrong
          exact wrong.extend isMade
      · rw [if_neg starts] at size
        have notTrue :
            ¬TrueSize buf buflen.toNat
              (buf + printed.length,
                (buflen - .ofNat 32 printed.length).toNat) := by
          rw [TrueSize, size]
          omega
        refine permits_snprintf.weaken ?_
        intro written after result
        obtain ⟨-, -, isCall, -⟩ := result
        refine (permits_snprintfChunks_calls _).weaken ?_
        intro _ final more
        obtain ⟨made, isMade⟩ := more
        exact .of_first isCall isMade notTrue

/-- When `bitmap_snprintf` stays within its buffer. -/
theorem printsWithin_bitmapSnprintf_iff
    (positive : 1 ≤ nmaskbits)
    (bound : nmaskbits < 2 ^ 31)
    (mapped : memory.longs.Mapped maskp (bitsToLongs nmaskbits))
    (room : memory.chars.Mapped buf buflen.toNat)
    (nonempty : 1 ≤ buflen.toNat) :
    PrintsWithin (bitmapSnprintf buf buflen maskp nmaskbits) memory buf
        buflen
        (hexText nmaskbits (bitmapNumber memory.longs maskp nmaskbits)) ↔
      hexOffset nmaskbits (bitmapNumber memory.longs maskp nmaskbits) ≤
        buflen.toNat := by
  constructor
  · intro within
    by_contra exceeds
    obtain ⟨len, after, returned, -, areTrue, -, -⟩ := within
    rw [bitmapSnprintf, toInt_start positive bound] at returned
    have wrong :=
      permits_snprintfChunks_wrong
        (.start positive bound mapped room nonempty) (by omega)
        (not_le.mp exceeds) _ _ returned
    exact wrong.not_trueCalls areTrue
  · intro fits
    refine (ensures_bitmapSnprintf positive bound mapped room nonempty
      fits).weaken ?_
    intro len after result
    obtain ⟨isLength, isPrinted, areTrue⟩ := result
    exact ⟨isPrinted.sameOutside, areTrue,
      isPrinted.truncatedString (hexText_ne_nil positive), isLength⟩

end Hex

section List

variable {before memory : CMemory}
variable {buf maskp : Int}
variable {buflen : BitVec 32}
variable {nmaskbits start : Nat}
variable {printed text : List Byte}
variable {list : List (Nat × Nat)}

/-- A size for a place behind the buffer is wrong. -/
theorem not_trueSize_emitSize
    {len : Nat}
    (small : buflen.toNat < 2 ^ 31)
    (exceeds : buflen.toNat < len)
    (near : len < buflen.toNat + 2 ^ 31) :
    ¬TrueSize buf buflen.toNat
      (buf + (BitVec.ofNat 32 len).toInt,
        emitSize buflen (.ofNat 32 len)) := by
  have difference :
      (buflen - BitVec.ofNat 32 len).toNat =
        2 ^ 32 + buflen.toNat - len := by
    rw [BitVec.toNat_sub, BitVec.toNat_ofNat]
    omega
  have large : 2 ^ 63 ≤ emitSize buflen (.ofNat 32 len) := by
    rw [emitSize, BitVec.toNat_signExtend, BitVec.toNat_setWidth,
      difference, BitVec.msb_eq_decide, difference,
      decide_eq_true (by omega), if_pos rfl]
    omega
  have bounds := BitVec.le_toInt (BitVec.ofNat 32 len)
  rw [TrueSize]
  dsimp only
  omega

/-- Every size for a buffer that is too large for an `int` is wrong. -/
theorem not_trueSize_emitSize_zero
    (large : 2 ^ 31 ≤ buflen.toNat) :
    ¬TrueSize buf buflen.toNat
      (buf + (0 : BitVec 32).toInt, emitSize buflen 0) := by
  have noChange : buflen - 0 = buflen := by
    simp
  have huge : 2 ^ 63 ≤ emitSize buflen 0 := by
    rw [emitSize, noChange, BitVec.toNat_signExtend,
      BitVec.toNat_setWidth, BitVec.msb_eq_decide,
      decide_eq_true (by omega), if_pos rfl]
    omega
  have isZero : (0 : BitVec 32).toInt = 0 := rfl
  have isLess := buflen.isLt
  rw [TrueSize, isZero]
  dsimp only
  omega

/-- Further calls of `snprintf` by `bscnl_emit`. -/
private theorem permits_bscnlEmit_calls
    (first last : Nat)
    (len : BitVec 32) :
    (bscnlEmit buf buflen first last len).Permits memory fun _ after =>
      after.longs = memory.longs ∧
        ∃ made,
          after.calls =
            memory.calls ++ (buf + len.toInt, emitSize buflen len) ::
              made := by
  rw [permits_bscnlEmit_iff, permits_ite]
  split
  · refine (permits_emitPiece _).weaken ?_
    intro next between result
    obtain ⟨-, sameLongs, isCall, -⟩ := result
    refine (permits_emitPiece _).weaken ?_
    intro _ after result
    obtain ⟨-, stillSame, nextCall, -⟩ := result
    exact ⟨stillSame.trans sameLongs, [_], by
      rw [nextCall, isCall, List.append_assoc]; rfl⟩
  · rw [permits_pure]
    refine (permits_emitPiece _).weaken ?_
    intro _ after result
    obtain ⟨-, sameLongs, isCall, -⟩ := result
    exact ⟨sameLongs, [], isCall⟩

/-- Further calls of `snprintf` by `bitmap_snlistprintf`. -/
private theorem permits_listRanges_calls
    (mapped : memory.longs.Mapped maskp (bitsToLongs nmaskbits))
    (isRuns : Runs (memory.longs.bit maskp) nmaskbits start list)
    (len : BitVec 32) :
    (loop (listRange buf buflen maskp nmaskbits)
      ⟨nextStart nmaskbits list, nextStart nmaskbits list, len⟩).Permits
        memory fun _ after =>
          ∃ made, after.calls = memory.calls ++ made := by
  induction list generalizing start memory len with
  | nil =>
      rw [nextStart, permits_listRange_end]
      exact ⟨[], by simp⟩
  | cons run rest inductionHypothesis =>
      rw [nextStart, permits_listRange_run mapped isRuns]
      refine (permits_bscnlEmit_calls _ _ _).weaken ?_
      intro next between result
      obtain ⟨sameLongs, made, isMade⟩ := result
      have following := isRuns.tail
      rw [← sameLongs] at following mapped
      refine (inductionHypothesis mapped following next).weaken ?_
      intro _ after more
      obtain ⟨others, isOthers⟩ := more
      exact ⟨_, by rw [isOthers, isMade, List.append_assoc]⟩

/-- The next call of `snprintf` by `bitmap_snlistprintf` is wrong. -/
private theorem permits_listRanges_first
    {len : BitVec 32}
    (mapped : memory.longs.Mapped maskp (bitsToLongs nmaskbits))
    (isRuns : Runs (memory.longs.bit maskp) nmaskbits start list)
    (nonempty : list ≠ [])
    (notTrue :
      ¬TrueSize buf buflen.toNat
        (buf + len.toInt, emitSize buflen len)) :
    (loop (listRange buf buflen maskp nmaskbits)
      ⟨nextStart nmaskbits list, nextStart nmaskbits list, len⟩).Permits
        memory fun _ after =>
          WrongCall buf buflen.toNat memory after := by
  obtain ⟨⟨first, last⟩, rest, rfl⟩ := List.exists_cons_of_ne_nil nonempty
  rw [nextStart, permits_listRange_run mapped isRuns]
  refine (permits_bscnlEmit_calls _ _ _).weaken ?_
  intro next between result
  obtain ⟨sameLongs, made, isMade⟩ := result
  have following := isRuns.tail
  rw [← sameLongs] at following mapped
  refine (permits_listRanges_calls mapped following next).weaken ?_
  intro _ after more
  obtain ⟨others, isOthers⟩ := more
  refine ⟨(buf + len.toInt, emitSize buflen len) :: made ++ others, ?_, _,
    by simp, notTrue⟩
  rw [isOthers, isMade, List.append_assoc]

/-- A run takes 21 characters at most. -/
theorem length_rangeText_le
    {run : Nat × Nat}
    (first : run.1 < 2 ^ 31)
    (last : run.2 < 2 ^ 31) :
    (rangeText run).length ≤ 21 := by
  have firstLength : (numeral 10 run.1).length ≤ 10 :=
    length_numeral_le (by omega) (by omega) (by omega)
  have lastLength : (numeral 10 run.2).length ≤ 10 :=
    length_numeral_le (by omega) (by omega) (by omega)
  rw [rangeText]
  split
  · omega
  · simp only [List.length_append, List.length_singleton]
    omega

/-- A run that starts behind the buffer is printed with a wrong size. -/
theorem permits_listRanges_wrong
    (positive : 1 ≤ buflen.toNat)
    (bound : nmaskbits < 2 ^ 31)
    (small : buflen.toNat < 2 ^ 31)
    (mapped : before.longs.Mapped maskp (bitsToLongs nmaskbits))
    (isRuns : Runs (before.longs.bit maskp) nmaskbits start list)
    (isPrinted : Printed before buf buflen.toNat printed memory)
    (inside : printed.length ≤ buflen.toNat)
    (nonempty : list ≠ [])
    (exceeds :
      buflen.toNat <
        printed.length +
          lastStart (sepAfter printed) (list.map rangeText)) :
    (loop (listRange buf buflen maskp nmaskbits)
      ⟨nextStart nmaskbits list, nextStart nmaskbits list,
        .ofNat 32 printed.length⟩).Permits memory fun _ after =>
          WrongCall buf buflen.toNat memory after := by
  induction list generalizing start printed memory with
  | nil =>
      exact absurd rfl nonempty
  | cons run rest inductionHypothesis =>
      obtain ⟨first, last⟩ := run
      have hereRuns := isRuns
      have hereMapped := mapped
      rw [← isPrinted.sameLongs] at hereRuns hereMapped
      have range := isRuns.bounds (first, last) (by simp)
      have short : (rangeText (first, last)).length ≤ 21 :=
        length_rangeText_le (by omega) (by omega)
      have sepShort : (sepAfter printed).length ≤ 1 := by
        rw [sepAfter]
        split <;> simp
      rw [nextStart, permits_listRange_run hereMapped hereRuns,
        permits_bscnlEmit_iff]
      have commaRoom :
          ListRoom buflen printed.length
            (printed ++ sepAfter printed).length :=
        ⟨by omega, .inr ⟨small, inside⟩⟩
      refine ((ensures_emitComma positive isPrinted commaRoom le_rfl
        le_rfl).permits).weaken ?_
      intro len between result
      obtain ⟨rfl, stillPrinted, commaTrue⟩ := result
      obtain ⟨commaMade, isComma, -⟩ := commaTrue small
      by_cases starts :
          (printed ++ sepAfter printed).length ≤ buflen.toNat
      · have rangeRoom :
            ListRoom buflen (printed ++ sepAfter printed).length
              (printed ++ sepAfter printed ++
                rangeText (first, last)).length :=
          ⟨by omega, .inr ⟨small, starts⟩⟩
        refine ((ensures_emitPiece positive stillPrinted rangeRoom le_rfl
          List.length_append.ge).permits).weaken ?_
        intro len after result
        obtain ⟨rfl, finallyPrinted, rangeTrue⟩ := result
        obtain ⟨rangeMade, isRange, -⟩ := rangeTrue small
        have someRest : rest ≠ [] := by
          rintro rfl
          rw [List.map_singleton, lastStart, ← List.length_append]
            at exceeds
          omega
        rw [List.map_cons, lastStart_cons _ _ (by simpa using someRest),
          ← Nat.add_assoc, ← List.length_append, ← List.append_assoc,
          ← sepAfter_append _ (rangeText_ne_nil (first, last))] at exceeds
        have following := isRuns.tail
        refine Permits.weaken ?_ fun _ final wrong =>
          WrongCall.extend isComma (WrongCall.extend isRange wrong)
        by_cases ends :
            (printed ++ sepAfter printed ++
              rangeText (first, last)).length ≤ buflen.toNat
        · exact inductionHypothesis following finallyPrinted ends someRest
            exceeds
        · have length :
              (printed ++ sepAfter printed ++
                rangeText (first, last)).length ≤ buflen.toNat + 21 := by
            rw [List.length_append]
            omega
          rw [← finallyPrinted.sameLongs] at following mapped
          exact permits_listRanges_first mapped following someRest
            (not_trueSize_emitSize small (by omega) (by omega))
      · have length :
            (printed ++ sepAfter printed).length ≤ buflen.toNat + 1 := by
          rw [List.length_append]
          omega
        refine (permits_emitPiece _).weaken ?_
        intro next after result
        obtain ⟨-, sameLongs, isCall, -⟩ := result
        have following := isRuns.tail
        rw [← stillPrinted.sameLongs, ← sameLongs] at following mapped
        refine (permits_listRanges_calls mapped following next).weaken ?_
        intro _ final more
        obtain ⟨others, isOthers⟩ := more
        exact WrongCall.extend isComma
          (.of_first isCall isOthers
            (not_trueSize_emitSize small (by omega) (by omega)))

/-- When `bitmap_snlistprintf` stays within its buffer. -/
theorem printsWithin_bitmapSnlistprintf_iff
    (bound : nmaskbits < 2 ^ 31)
    (mapped : memory.longs.Mapped maskp (bitsToLongs nmaskbits))
    (room : memory.chars.Mapped buf buflen.toNat)
    (positive : 1 ≤ buflen.toNat)
    (isRuns : Runs (memory.longs.bit maskp) nmaskbits 0 list) :
    PrintsWithin (bitmapSnlistprintf buf buflen maskp nmaskbits) memory
        buf buflen (listText list) ↔
      list = [] ∨
        buflen.toNat < 2 ^ 31 ∧ listOffset list ≤ buflen.toNat ∧
          (listText list).length < 2 ^ 31 := by
  constructor
  · intro within
    obtain ⟨len, after, returned, -, areTrue, -, isLength⟩ := within
    have isInt := len.toInt_lt
    by_contra! failing
    obtain ⟨nonempty, failing⟩ := failing
    have permitted :
        (bitmapSnlistprintf buf buflen maskp nmaskbits).Permits memory
          fun _ after => WrongCall buf buflen.toNat memory after := by
      rw [permits_bitmapSnlistprintf_iff positive mapped room isRuns]
      by_cases small : buflen.toNat < 2 ^ 31
      · have exceeds : buflen.toNat < listOffset list := by
          by_contra inside
          have long := failing small (not_lt.mp inside)
          omega
        exact permits_listRanges_wrong positive bound small mapped isRuns
          (printed_empty positive room) (Nat.zero_le _) nonempty
          (by simpa [sepAfter, listOffset] using exceeds)
      · exact permits_listRanges_first mapped isRuns nonempty
          (not_trueSize_emitSize_zero (not_lt.mp small))
    exact (permitted _ _ returned).not_trueCalls areTrue
  · intro fits
    rcases fits with rfl | ⟨small, inside, length⟩
    · rw [PrintsWithin, ensures_bitmapSnlistprintf_iff positive mapped room
        isRuns, nextStart, ensures_listRange_end]
      refine ⟨(printed_empty positive room).sameOutside, .refl, ?_, rfl⟩
      simpa [listText, joined] using
        Region.stores_singleton (memory.chars.write_cell_same buf 0)
    · refine (ensures_bitmapSnlistprintf positive mapped room isRuns
        fun _ => ⟨by omega, .inr ⟨small, inside⟩⟩).weaken ?_
      intro len after result
      obtain ⟨rfl, same, -, string, areTrue⟩ := result
      exact ⟨same, areTrue small, string, toInt_ofNat_of_lt length⟩

end List

section Both

variable {memory : CMemory}
variable {buf maskp : Int}
variable {buflen : BitVec 32}
variable {nmaskbits : Nat}

/--
The printers stay within their buffer, if and only if the last piece of the
text starts inside of it, and for lists all sizes are numbers of type `int`.
-/
theorem bitmap_printsWithin_iff
    (positive : 1 ≤ nmaskbits)
    (bound : nmaskbits < 2 ^ 31)
    (mapped : memory.longs.Mapped maskp (bitsToLongs nmaskbits))
    (room : memory.chars.Mapped buf buflen.toNat)
    (nonempty : 1 ≤ buflen.toNat) :
    (PrintsWithin (bitmapSnprintf buf buflen maskp nmaskbits) memory buf
        buflen
        (hexText nmaskbits (bitmapNumber memory.longs maskp nmaskbits)) ↔
      hexOffset nmaskbits (bitmapNumber memory.longs maskp nmaskbits) ≤
        buflen.toNat) ∧
    (PrintsWithin (bitmapSnlistprintf buf buflen maskp nmaskbits) memory
        buf buflen
        (listText (runs (memory.longs.bit maskp) nmaskbits)) ↔
      runs (memory.longs.bit maskp) nmaskbits = [] ∨
        buflen.toNat < 2 ^ 31 ∧
          listOffset (runs (memory.longs.bit maskp) nmaskbits) ≤
            buflen.toNat ∧
          (listText (runs (memory.longs.bit maskp) nmaskbits)).length <
            2 ^ 31) :=
  ⟨printsWithin_bitmapSnprintf_iff positive bound mapped room nonempty,
    printsWithin_bitmapSnlistprintf_iff bound mapped room nonempty
      Runs.of_runs⟩

/-- A memory with a bitmap of one word and a buffer of four bytes. -/
def shortMemory (word : BitVec 64) : CMemory where
  longs := .ofList [word]
  chars := .ofList [0, 0, 0, 0]

/-- The list `0,2-3` does not fit, but only its end is left out. -/
theorem bitmap_printsWithin_of_sample :
    PrintsWithin (bitmapSnprintf 0 4 0 8) (shortMemory 13) 0 4
        (hexText 8 (bitmapNumber (shortMemory 13).longs 0 8)) ∧
      PrintsWithin (bitmapSnlistprintf 0 4 0 8) (shortMemory 13) 0 4
        (listText [(0, 0), (2, 3)]) := by
  have isRuns :
      runs ((shortMemory 13).longs.bit 0) 8 = [(0, 0), (2, 3)] := by
    decide +kernel
  obtain ⟨hex, list⟩ :=
    @bitmap_printsWithin_iff (shortMemory 13) 0 0 4 8 (by decide)
      (by decide) (Region.mapped_ofList (by decide))
      (Region.mapped_ofList (by decide)) (by decide)
  rw [isRuns] at list
  exact ⟨hex.mpr (by decide +kernel), list.mpr (by decide +kernel)⟩

/--
The second chunk of 64 bits and the last number of `0,2,4,6` are printed
behind a buffer of four bytes.
-/
theorem bitmap_printsWithin_fails :
    ¬PrintsWithin (bitmapSnprintf 0 4 0 64) (shortMemory 85) 0 4
        (hexText 64 (bitmapNumber (shortMemory 85).longs 0 64)) ∧
      ¬PrintsWithin (bitmapSnlistprintf 0 4 0 64) (shortMemory 85) 0 4
        (listText (runs ((shortMemory 85).longs.bit 0) 64)) := by
  constructor
  · rw [printsWithin_bitmapSnprintf_iff (by decide) (by decide)
      (Region.mapped_ofList (by decide))
      (Region.mapped_ofList (by decide)) (by decide)]
    decide +kernel
  · rw [printsWithin_bitmapSnlistprintf_iff (by decide)
      (Region.mapped_ofList (by decide))
      (Region.mapped_ofList (by decide)) (by decide) Runs.of_runs]
    decide +kernel

end Both

end LibKern.Bitmap
